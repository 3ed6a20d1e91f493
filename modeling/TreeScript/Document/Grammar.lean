import TreeScript.Document.Line
import TreeScript.Text.Peg

/-!
# TreeScript — the grammar of source texts

The rules by which a source text is cut into lines. A line holds spaces, then a comment or a node,
then spaces and tabs. Of several ways to read a name or a value the first one that matches is
taken, even if what follows it is then something that cannot follow.

* `Line.Grammar.name`, `Line.Grammar.value`, `Line.Grammar.node` — the parts of a line;
* `Line.Grammar.line`, `Line.Grammar.lines`, `Line.Grammar.document` — a line, as many of them as
  there are, and a whole text.
-/

namespace TreeScript.Line.Grammar

open Peg

/-- The end of a line. -/
def newline : Peg Unit := lit "\n" <|> lit "\r\n" <|> lit "\r"

/-- The spaces in front of a line, counted. -/
def indent : Peg Nat := do
  let spaces ← many (lit " ")
  return spaces.length

/-- Spaces and tabs. -/
def blank : Peg Unit := do
  let _ ← many (lit " " <|> lit "\t")

/-- The rest of a line behind two slashes. -/
def comment : Peg Unit := do
  lit "//"
  let _ ← many do
    notAhead newline
    any

/-- A letter behind a backslash, and the character that it stands for. -/
def letter (text : String) (c : Char) : Peg Char := do
  lit text
  return c

/-- An escape of a quoted text. -/
def escape : Peg Char := do
  lit "\\"
  letter "\"" '"' <|> letter "\\" '\\' <|> letter "n" '\n' <|> letter "r" '\r' <|> letter "t" '\t'

/-- A character of a quoted text. -/
def quotedChar : Peg Char :=
  escape <|> do
    notAhead (lit "\"" <|> lit "\\" <|> newline)
    any

/-- Some characters, as many as there are, and a closing quote. -/
def closed (p : Peg Char) : Peg (List Char) := do
  let text ← many p
  lit "\""
  return text

/-- A quoted text. -/
def quoted : Peg (List Char) := do
  lit "\""
  closed quotedChar

/-- A character of a verbatim text. -/
def verbatimChar : Peg Char :=
  letter "\"\"" '"' <|> do
    notAhead (lit "\"")
    any

/-- A verbatim text. -/
def verbatim : Peg (List Char) := do
  lit "@\""
  closed verbatimChar

/-- A name without quotes. White space at its end does not belong to it. -/
def bareName : Peg (List Char) := do
  let text ← many do
    notAhead (lit ":" <|> newline)
    any
  return Text.trimEnd text

/-- A value without quotes. White space at its end does not belong to it. -/
def bareValue : Peg (List Char) := do
  let text ← many do
    notAhead newline
    any
  return Text.trimEnd text

/-- A name. -/
def name : Peg (List Char) := quoted <|> bareName

/-- The text of a value. -/
def value : Peg (List Char) := verbatim <|> quoted <|> bareValue

/-- The word for a type. -/
def typeWord (word : String) : Peg (List Char) := do
  lit word
  return word.toList

/-- A type, in front of a colon. -/
def typeName : Peg (List Char) := do
  let word ← typeWord "int" <|> typeWord "float" <|> typeWord "bool" <|> typeWord "byte"
    <|> typeWord "sbyte" <|> typeWord "char" <|> typeWord "blob" <|> typeWord "date"
    <|> typeWord "guid" <|> typeWord "node" <|> typeWord "string" <|> typeWord "x"
  ahead (lit ":")
  return word

/-- A value with its type. -/
def typed : Peg Value := do
  lit ":"
  let word ← typeName
  lit ":"
  let text ← value
  return .typed word text

/-- A value without type. -/
def untyped : Peg Value := do
  lit ":"
  let text ← value
  return .untyped text

/-- A name and its value, if it has one. -/
def node : Peg Node := do
  let name ← name
  let value ← optional (typed <|> untyped)
  return ⟨name, value.getD .absent⟩

/-- What stands on a line behind its indentation. There is no node in a comment, nor in a text of
white space only. -/
def entry : Peg (Option Node) :=
  (do comment; return none) <|> do
    let (node, text) ← taken node
    return if Text.trim text = [] then none else some node

/-- A line. -/
def line : Peg Line := do
  let tail ← get
  let indent ← indent
  let node ← entry
  blank
  return ⟨tail, indent, node⟩

/-- As many lines as there are. -/
def lines : Peg (List Line) := do
  let first ← line
  let rest ← many do
    newline
    line
  return first :: rest

/-- A whole text. -/
def document : Peg (List Line) := do
  let lines ← lines
  ends
  return lines

end TreeScript.Line.Grammar
