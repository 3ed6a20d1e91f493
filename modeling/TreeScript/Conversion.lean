import TreeScript.Failure

/-!
# TreeScript — converting values

Values as text, as whole numbers and as truth values, and the value of a node
as a value of another type. A converter says how a text becomes a value; all
other rules are the same for every converter.

* `Converter` — how a text becomes a value of a type;
* `Store.display` — the text form of any value;
* `Converter.toInteger`, `Value.toBool` — coercions;
* `Converter.ofNode`, `Store.displayNode` — conversions of whole nodes.
-/

namespace TreeScript

/-- How a text becomes a value of the type with a name; the last argument asks
for base 64 to be decoded. -/
structure Converter where
  read : (typeName text : String) → (decode : Bool) → Except ConversionError Scalar

/-- The built-in rules. -/
def Converter.standard : Converter := ⟨Scalar.read⟩

/-- The text form of any value. A node value shows the children of its node,
and nothing if that is gone. -/
def Store.display (s : Store) (v : Value) (encode : Bool) : Except Fault String :=
  match v with
  | .scalar x => .ok (x.text encode)
  | .node h => if s.isAlive h then s.renderBelow h else .ok ""
  | .ref h => if s.isAlive h then s.renderBelow h else .ok ""

/-- A value as a whole number. Strings are read, and a float counts if it is
whole and in range. -/
def Converter.toInteger (c : Converter) (v : Value) : Except ConversionError Int :=
  match v.integer?, v with
  | some n, _ => .ok n
  | none, .scalar (.float x) =>
    match x.toInteger? with
    | some n => .ok n
    | none => .error ⟨"int", String.ofList x.text, .notWhole⟩
  | none, .scalar (.string s) =>
    match c.read "int" s false with
    | .ok (.int n) => .ok n.toInt
    | .ok _ => .error ⟨"int", s, .notInteger⟩
    | .error e => .error e
  | none, v => .error ⟨"int", v.typeName, .noIntegerForm⟩

/-- A value as a truth value: false, zero, the empty string and the string
`false` are false, all else is true. -/
def Value.toBool : Value → Bool
  | .scalar (.bool b) => b
  | .scalar (.string s) => !(s == "" || s == "false")
  | .scalar (.int n) => n != 0
  | _ => true

/-- Whether a node has a child named `decode` that says so. -/
def Store.asksDecode (s : Store) (h : Handle) : Except Fault Bool := do
  match ← s.childNamed? h "decode" with
  | none => .ok false
  | some d =>
    match ← s.value d with
    | some (.scalar (.bool b)) => .ok b
    | some (.scalar (.string text)) => .ok (text == "true")
    | _ => .ok false

/-- The value of a node as a value of the type with a name. -/
def Converter.ofNode (c : Converter) (s : Store) (typeName : String) (h : Handle) :
    Except Halt Value := do
  let decode ← s.asksDecode h
  let convert (text : String) : Except Halt Value :=
    match c.read typeName text decode with
    | .ok v => .ok (.scalar v)
    | .error e => s.fail h (.conversion e)
  match ← s.value h with
  | none => s.fail h (.conversion ⟨typeName, "", .noValue⟩)
  | some (.scalar (.string text)) => convert text
  | some v =>
    match v with
    | .scalar (.date t) =>
      if typeName = "blob" then .ok (.scalar (.blob (bigEndian 8 t.milliseconds)))
      else if typeName = v.typeName then .ok v
      else convert (← s.display v false)
    | .scalar _ =>
      if typeName = v.typeName then .ok v else convert (← s.display v false)
    | _ =>
      if typeName = "blob" then
        let text ← s.display v false
        .ok (.scalar (.blob (Utf8.encode text.toList)))
      else if typeName = v.typeName then .ok v
      else convert (← s.display v false)
where
  /-- The last `count` bytes of a number in two's complement, the highest first. -/
  bigEndian (count : Nat) (n : Int) : List UInt8 :=
    (List.range count).map fun i => UInt8.ofNat ((n / (Nat.pow 256 (count - 1 - i) : Nat)) % 256).toNat

/-- A new node without parent, named after a type, that holds the text form of a value. -/
def Store.displayNode (s : Store) (typeName : String) (v : Value) :
    Except Fault (Handle × Store) := do
  let text ← s.display v false
  .ok (s.create typeName (some (.scalar (.string text))))

end TreeScript
