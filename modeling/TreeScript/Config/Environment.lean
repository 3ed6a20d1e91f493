import TreeScript.Text.Space
import TreeScript.Text.Utf8
import TreeScript.Text.Word

/-!
# TreeScript — environment variables

Variables are looked up by name. A file of assignments can add to them, and
never changes a variable that is set. An assignment takes one line, or several
if quotes are open at the end of a line; its value may use variables that are
set by then. The first statement that is no assignment ends the file; what
stands in front of it counts.

* `Environment` — the variables;
* `Environment.Openness` — how far a statement goes;
* `Environment.readValue?` — the value of an assignment;
* `Environment.statementOf` — what one statement says;
* `Environment.extend` — the variables with those of a file.
-/

namespace TreeScript

/-- Variables with their values. -/
structure Environment where
  bindings : List (String × String) := []
  deriving DecidableEq, Repr

namespace Environment

/-- The value of a variable that is set. -/
def get? (e : Environment) (name : String) : Option String := e.bindings.lookup name

/-- What a variable stands for inside a text: nothing if it is not set. -/
def expansion (e : Environment) (name : List Char) : List Char :=
  ((e.get? (String.ofList name)).getD "").toList

/-- Sets a variable, unless it is set. -/
def setDefault (e : Environment) (name value : String) : Environment :=
  match e.get? name with
  | some _ => e
  | none => { bindings := e.bindings ++ [(name, value)] }

-- ---------------------------------------------------------------------------
-- How far a statement goes
-- ---------------------------------------------------------------------------

/-- The inside of a text: plain, or between quotes of one kind. -/
inductive Quoting where
  | plain
  | single
  | double
  deriving DecidableEq, Repr

/-- How things stand behind a character of a statement: inside or outside of quotes,
behind a backslash, or behind white space that a comment can follow. -/
inductive Openness where
  | inside (quoting : Quoting)
  | escaped (quoting : Quoting)
  | blank
  deriving DecidableEq, Repr

namespace Openness

/-- How things stand one character further on. -/
def next : Openness → Char → Openness
  | .escaped quoting, _ => .inside quoting
  | .inside .single, c =>
    if c = '\\' then .escaped .single else if c = '\'' then .inside .plain else .inside .single
  | .inside .double, c =>
    if c = '\\' then .escaped .double else if c = '"' then .inside .plain else .inside .double
  | s, c =>
    if c = '\\' then .escaped .plain
    else if c = '"' then .inside .double
    else if c = '\'' then .inside .single
    else if s = .inside .plain ∧ Text.isSpace c ∧ ¬ Text.isLineEnd c then .blank
    else .inside .plain

/-- The characters of a line up to a comment, and how things stand behind it; `none` if
a comment ends the line. -/
def line : Openness → List Char → List Char × Option Openness
  | s, [] => ([], some s)
  | s, c :: rest =>
    if s = .blank ∧ c = '#' then ([], none)
    else
      let (body, final) := line (s.next c) rest
      (c :: body, final)

end Openness

-- ---------------------------------------------------------------------------
-- Values
-- ---------------------------------------------------------------------------

/-- The character that a backslash in front of a letter stands for. -/
def unescape? (c : Char) : Option Char :=
  if c = 'n' then some '\n'
  else if c = '\\' ∨ c = '\'' ∨ c = '"' ∨ c = '$' ∨ c = ' ' then some c
  else none

/-- Whether nothing but blanks and a comment follows. -/
def isTail (cs : List Char) : Bool :=
  match cs.dropWhile Text.isBlank with
  | [] => true
  | c :: _ => c == '#'

/-- Where the reader of a value stands: in the text, behind a backslash, or in the
name of a variable behind a dollar sign, with or without braces. The characters of
the name come last first. -/
inductive Reading where
  | text
  | escaped
  | name (front : List Char)
  | braced (front : List Char)
  deriving DecidableEq, Repr

/-- The value at the beginning of a text. It ends at the first blank outside quotes, and
only a comment may follow. The character behind a variable without braces stands for
itself. -/
def readValue? (e : Environment) : Quoting → Reading → List Char → Option (List Char)
  | .plain, .text, [] => some []
  | .plain, .escaped, [] => some []
  | .plain, .name front, [] => some (e.expansion front.reverse)
  | _, _, [] => none
  | q, .escaped, c :: rest =>
    match unescape? c with
    | some d => (readValue? e q .text rest).map (d :: ·)
    | none => none
  | q, .name front, c :: rest =>
    if Text.isLetterOrDigit c then readValue? e q (.name (c :: front)) rest
    else if c = '\x7b' ∧ front = [] then readValue? e q (.braced []) rest
    else if c = '$' then
      (readValue? e q (.name []) rest).map (e.expansion front.reverse ++ ·)
    else (readValue? e q .text rest).map (e.expansion front.reverse ++ c :: ·)
  | q, .braced front, c :: rest =>
    if c = '\x7d' then (readValue? e q .text rest).map (e.expansion front.reverse ++ ·)
    else readValue? e q (.braced (c :: front)) rest
  | .single, .text, c :: rest =>
    if c = '\'' then readValue? e .plain .text rest
    else (readValue? e .single .text rest).map (c :: ·)
  | .double, .text, c :: rest =>
    if c = '$' then readValue? e .double (.name []) rest
    else if c = '\\' then readValue? e .double .escaped rest
    else if c = '"' then readValue? e .plain .text rest
    else (readValue? e .double .text rest).map (c :: ·)
  | .plain, .text, c :: rest =>
    if c = '$' then readValue? e .plain (.name []) rest
    else if c = '\\' then readValue? e .plain .escaped rest
    else if c = '\'' then readValue? e .single .text rest
    else if c = '"' then readValue? e .double .text rest
    else if Text.isBlank c then (if isTail rest then some [] else none)
    else (readValue? e .plain .text rest).map (c :: ·)

-- ---------------------------------------------------------------------------
-- Statements
-- ---------------------------------------------------------------------------

/-- What a statement says. -/
inductive Statement where
  | empty
  | assignment (name value : String)
  | malformed
  deriving DecidableEq, Repr

/-- A character of a variable's name. -/
def isNameChar (c : Char) : Bool := c.isAlphanum || c == '_' || c == '.'

/-- A name at the beginning of a text, and what follows it and white space. -/
def readName? (cs : List Char) : Option (List Char × List Char) :=
  match Text.splitWhile isNameChar cs with
  | ([], _) => none
  | (name, rest) =>
    if name.head?.any fun c => c.isAlpha || c == '_' then some (name, Text.trimStart rest) else none

/-- What follows the word `export` in front of an assignment. -/
def dropExport (cs : List Char) : List Char :=
  match readName? cs with
  | some (word, rest) =>
    if word = "export".toList ∧ rest.head? ≠ some '=' then rest else cs
  | none => cs

/-- What a statement says, with the variables that are set so far. -/
def statementOf (e : Environment) (cs : List Char) : Statement :=
  let cs := Text.trim cs
  if cs = [] ∨ cs.head? = some '#' then .empty
  else
    match readName? (dropExport cs) with
    | some (name, '=' :: rest) =>
      let rest := Text.trimStart rest
      let value := if rest.head? = some '#' then some [] else readValue? e .plain .text rest
      match value with
      | some value => .assignment (String.ofList name) (String.ofList value)
      | none => .malformed
    | _ => .malformed

/-- A line that holds only a comment. -/
def isComment (line : List Char) : Bool := (Text.trimStart line).head? == some '#'

/-- The variables with those that some lines set. A line is `none` if it is no text.
`front` are the lines of a statement that has begun, and `s` how things stand behind
them; at the end of the lines a statement that has only begun does not count. -/
def extendLines (e : Environment) (s : Openness) (front : List Char) :
    List (Option (List Char)) → Environment
  | [] => e
  | none :: _ => e
  | some line :: rest =>
    if front = [] ∧ isComment line then extendLines e (.inside .plain) [] rest
    else
      let (body, final) := s.line line
      if final = none ∨ final = some (.inside .plain) then
        match e.statementOf (front ++ body) with
        | .empty => extendLines e (.inside .plain) [] rest
        | .assignment name value =>
          extendLines (e.setDefault name value) (.inside .plain) [] rest
        | .malformed => e
      else extendLines e (final.getD s) (front ++ body) rest

/-- The lines of a file, each with its line end. -/
def linesOf : List UInt8 → List (List UInt8)
  | [] => []
  | b :: rest =>
    if b = 10 then [b] :: linesOf rest
    else
      match linesOf rest with
      | [] => [[b]]
      | line :: lines => (b :: line) :: lines

/-- The bytes of a file without a byte order mark in front. -/
def dropMark : List UInt8 → List UInt8
  | 0xEF :: 0xBB :: 0xBF :: rest => rest
  | bytes => bytes

/-- The names that stand behind the dollar signs of a text. -/
def mentioned : List Char → List String
  | [] => []
  | '$' :: '\x7b' :: rest => String.ofList (rest.takeWhile (· != '\x7d')) :: mentioned rest
  | '$' :: rest => String.ofList (rest.takeWhile Text.isLetterOrDigit) :: mentioned rest
  | _ :: rest => mentioned rest

/-- The variables with those that a file sets. -/
def extend (e : Environment) (bytes : List UInt8) : Environment :=
  e.extendLines (.inside .plain) [] ((linesOf (dropMark bytes)).map Utf8.decode?)

end Environment

end TreeScript
