import TreeScript.Text.Base64
import TreeScript.Text.Utf8
import TreeScript.Scalar.Binary64
import TreeScript.Scalar.Guid
import TreeScript.Scalar.Instant

/-!
# TreeScript — scalar values

The eleven kinds of value that a node can hold besides another node, their
names in source text, and their text form. Numbers, truth values, dates,
identifiers and encoded bytes are read with the white space around them
dropped; strings, characters and expressions keep every character.

* `Kind`, `Scalar` — the kinds and the values;
* `ConversionError` — why a text is no value of a kind;
* `Scalar.read` — a text as a value of a named kind;
* `Scalar.text` — the text form, with bytes as base 64 or as characters.
-/

namespace TreeScript

/-- The kinds of scalar values. -/
inductive Kind where
  | string
  | int
  | float
  | bool
  | byte
  | sbyte
  | char
  | blob
  | date
  | guid
  | expr
  deriving DecidableEq, Repr

/-- The name of a kind in source text. -/
def Kind.name : Kind → String
  | .string => "string"
  | .int => "int"
  | .float => "float"
  | .bool => "bool"
  | .byte => "byte"
  | .sbyte => "sbyte"
  | .char => "char"
  | .blob => "blob"
  | .date => "date"
  | .guid => "guid"
  | .expr => "x"

/-- All kinds. -/
def Kind.all : List Kind :=
  [.int, .float, .bool, .byte, .sbyte, .char, .blob, .date, .guid, .string, .expr]

/-- The kind with this name; no name at all means a string. -/
def Kind.ofName? (name : String) : Option Kind :=
  if name = "" then some .string else Kind.all.find? fun k => k.name == name

/-- A scalar value. An expression is kept as its text and read when it is used. -/
inductive Scalar where
  | string (s : String)
  | int (n : Int64)
  | float (x : Binary64)
  | bool (b : Bool)
  | byte (b : UInt8)
  | sbyte (b : Int8)
  | char (c : Char)
  | blob (bytes : List UInt8)
  | date (t : Instant)
  | guid (g : Guid)
  | expr (s : String)
  deriving DecidableEq

/-- The kind of a value. -/
def Scalar.kind : Scalar → Kind
  | .string _ => .string
  | .int _ => .int
  | .float _ => .float
  | .bool _ => .bool
  | .byte _ => .byte
  | .sbyte _ => .sbyte
  | .char _ => .char
  | .blob _ => .blob
  | .date _ => .date
  | .guid _ => .guid
  | .expr _ => .expr

-- ---------------------------------------------------------------------------
-- Conversion errors
-- ---------------------------------------------------------------------------

/-- Why a value could not be converted. -/
inductive ConversionCause where
  | numeral (fault : Numeral.Fault)
  | float (fault : Binary64.Fault)
  | notBoolean
  | notOneCharacter
  | notBase64
  | notDate
  | notGuid
  | unknownType
  | noValue
  | notWhole
  | notInteger
  | noIntegerForm
  deriving DecidableEq, Repr

/-- The wording of each cause. -/
def ConversionCause.message : ConversionCause → String
  | .numeral fault => fault.message
  | .float fault => fault.message
  | .notBoolean => "expected 'true' or 'false'"
  | .notOneCharacter => "expected exactly one character"
  | .notBase64 => "not canonical base64"
  | .notDate => "not a date with time and offset"
  | .notGuid => "not a 128-bit identifier"
  | .unknownType => "unknown type"
  | .noValue => "node has no value"
  | .notWhole => "not a whole number in integer range"
  | .notInteger => "not an integer"
  | .noIntegerForm => "value has no integer form"

/-- A text that could not be converted to a type. -/
structure ConversionError where
  typeName : String
  text : String
  cause : ConversionCause
  deriving DecidableEq, Repr

/-- The whole message. -/
def ConversionError.message (e : ConversionError) : String :=
  "cannot convert '" ++ e.text ++ "' to " ++ e.typeName ++ ": " ++ e.cause.message

namespace Scalar

-- ---------------------------------------------------------------------------
-- Reading
-- ---------------------------------------------------------------------------

/-- The truth value of a text. -/
def readBool (cs : List Char) : Except ConversionCause Bool :=
  if cs = "true".toList then .ok true
  else if cs = "false".toList then .ok false
  else .error .notBoolean

/-- A text as a value of a kind. Bytes are the text's own unless `decode` asks
for base 64. -/
def ofText (decode : Bool) (text : String) : Kind → Except ConversionCause Scalar
  | .string => .ok (.string text)
  | .int => (Numeral.readSigned (Numeral.span 63) (Numeral.span 63 - 1) (Text.trimmed text)).mapError .numeral
      |>.map fun n => .int (Int64.ofInt n)
  | .float => ((Binary64.read (Text.trimmed text)).mapError .float).map .float
  | .bool => (readBool (Text.trimmed text)).map .bool
  | .byte => (Numeral.readUnsigned 255 (Text.trimmed text)).mapError .numeral
      |>.map fun n => .byte (UInt8.ofNat n)
  | .sbyte => (Numeral.readSigned 128 127 (Text.trimmed text)).mapError .numeral
      |>.map fun n => .sbyte (Int8.ofInt n)
  | .char =>
    match text.toList with
    | [c] => .ok (.char c)
    | _ => .error .notOneCharacter
  | .blob =>
    if decode then
      match Base64.decode? (Text.trimmed text) with
      | some bytes => .ok (.blob bytes)
      | none => .error .notBase64
    else .ok (.blob (Utf8.encode text.toList))
  | .date =>
    match Instant.read? (Text.trimmed text) with
    | some t => .ok (.date t)
    | none => .error .notDate
  | .guid =>
    match Guid.read? (Text.trimmed text) with
    | some g => .ok (.guid g)
    | none => .error .notGuid
  | .expr => .ok (.expr text)

/-- A text as a value of the type with this name. -/
def read (typeName text : String) (decode : Bool) : Except ConversionError Scalar :=
  match Kind.ofName? typeName with
  | none => .error ⟨typeName, text, .unknownType⟩
  | some kind => (ofText decode text kind).mapError fun cause => ⟨typeName, text, cause⟩

-- ---------------------------------------------------------------------------
-- Writing
-- ---------------------------------------------------------------------------

/-- The text form of a value. Bytes are written in base 64 if `encode` asks for
it, and otherwise as the characters they stand for. -/
def chars (encode : Bool) : Scalar → List Char
  | .string s => s.toList
  | .int n => Numeral.ofInt n.toInt
  | .float x => x.text
  | .bool b => (if b then "true" else "false").toList
  | .byte b => Numeral.digits b.toNat
  | .sbyte b => Numeral.ofInt b.toInt
  | .char c => [c]
  | .blob bytes => if encode then Base64.encode bytes else Utf8.decodeLossy bytes
  | .date t => t.text
  | .guid g => g.text
  | .expr s => s.toList

/-- The text form of a value, as a string. -/
def text (encode : Bool) (v : Scalar) : String := String.ofList (v.chars encode)

end Scalar

end TreeScript
