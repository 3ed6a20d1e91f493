import TreeScript.Text.Quote
import TreeScript.Document.Basic

/-!
# TreeScript — writing documents

A node is one line: its name, and behind a colon its value, with the type in
front of any value that is no string. Children stand below, two spaces deeper.
Names and values that a reader would misread are quoted; a value that spans
lines and a nested document are written verbatim.

* `Doc.lines`, `Doc.forestLines` — nodes as lines, each with its line end;
* `Doc.render`, `Doc.renderForest` — the same without the last line end;
* `Snapshot`, `Doc.snapshot` — a node as names, types and texts.
-/

namespace TreeScript.Doc

open TreeScript.Text (quoted verbatim isSpace)

/-- The types that a reader knows in front of a value. -/
def typeWords : List (List Char) := "node".toList :: Kind.all.map fun k => k.name.toList

/-- The type in front of a value, and the value's text: `int:5` is an `int` with text `5`. -/
def splitType? (cs : List Char) : Option (List Char × List Char) :=
  match Text.splitWhile (· != ':') cs with
  | (word, ':' :: rest) => if word ∈ typeWords then some (word, rest) else none
  | _ => none

/-- Whether a name has to be quoted. -/
def nameNeedsQuotes (cs : List Char) : Bool :=
  cs.contains ':' || cs.any Text.isLineEnd || ['"'].isPrefixOf cs || ['/', '/'].isPrefixOf cs
    || [' '].isPrefixOf cs || [' '].isSuffixOf cs

/-- A name as it is written. -/
def nameText (cs : List Char) : List Char :=
  if nameNeedsQuotes cs then quoted cs else cs

/-- Whether a value on one line has to be quoted: a reader would take its
beginning for a type or a quote, or drop white space at its ends. -/
def valueNeedsQuotes (cs : List Char) : Bool :=
  (splitType? cs).isSome || ['"'].isPrefixOf cs || ['@', '"'].isPrefixOf cs
    || cs.head?.any isSpace || cs.getLast?.any isSpace

/-- A value's text as it is written. -/
def valueText (cs : List Char) : List Char :=
  if cs.any Text.isLineEnd then verbatim cs
  else if valueNeedsQuotes cs then quoted cs
  else cs

/-- The line of a node that holds a scalar or nothing. A node without name and
value is written as an empty quoted name, so that it is not a blank line. -/
def plainText (name : String) : Option Scalar → List Char
  | none => if name = "" then ['"', '"'] else nameText name.toList
  | some (.string s) => nameText name.toList ++ ':' :: valueText s.toList
  | some v =>
    nameText name.toList ++ ':' :: (v.kind.name.toList ++ ':' :: valueText (v.chars true))

/-- The line of a node that holds a document with this text. -/
def holderText (name : String) (body : List Char) : List Char :=
  nameText name.toList ++ ":node:".toList ++ verbatim body

/-- The spaces in front of a line. -/
def indentation (depth : Nat) : List Char := List.replicate (2 * depth) ' '

/-- A text without the line end at its end. -/
def dropLineEnd (cs : List Char) : List Char :=
  if cs.getLast? = some '\n' then cs.dropLast else cs

mutual

/-- The lines of a node and of what is below it. -/
def lines (depth : Nat) : Doc → List Char
  | .plain name value children =>
    indentation depth ++ plainText name value ++ '\n' :: forestLines (depth + 1) children
  | .holder name nested children =>
    indentation depth ++ holderText name (dropLineEnd (forestLines 0 nested)) ++
      '\n' :: forestLines (depth + 1) children

/-- The lines of a forest. -/
def forestLines (depth : Nat) : List Doc → List Char
  | [] => []
  | d :: rest => lines depth d ++ forestLines depth rest

end

/-- A node with what is below it as text. -/
def render (d : Doc) : String := String.ofList (dropLineEnd (lines 0 d))

/-- A forest as text. -/
def renderForest (docs : List Doc) : String := String.ofList (dropLineEnd (forestLines 0 docs))

end TreeScript.Doc

namespace TreeScript

-- ---------------------------------------------------------------------------
-- Snapshots
-- ---------------------------------------------------------------------------

/-- A node as names, types and texts. The type is left out for strings and for
nodes without value. -/
inductive Snapshot where
  | node (name : String) (typeName value : Option String) (children : List Snapshot)

mutual

/-- Whether two snapshots are equal. -/
def Snapshot.same : Snapshot → Snapshot → Bool
  | .node n t v cs, .node n' t' v' cs' =>
    n == n' && t == t' && v == v' && Snapshot.sameAll cs cs'

/-- Whether two lists of snapshots are equal. -/
def Snapshot.sameAll : List Snapshot → List Snapshot → Bool
  | [], [] => true
  | a :: as, b :: bs => Snapshot.same a b && Snapshot.sameAll as bs
  | _, _ => false

end

mutual

/-- The snapshot of a node; a nested document is shown as its text. -/
def Doc.snapshot : Doc → Snapshot
  | .plain name none children => .node name none none (snapshotAll children)
  | .plain name (some (.string s)) children => .node name none (some s) (snapshotAll children)
  | .plain name (some v) children =>
    .node name (some v.kind.name) (some (v.text true)) (snapshotAll children)
  | .holder name nested children =>
    .node name (some "node") (some (renderForest nested)) (snapshotAll children)

/-- The snapshots of a forest. -/
def Doc.snapshotAll : List Doc → List Snapshot
  | [] => []
  | d :: rest => d.snapshot :: snapshotAll rest

end

/-- The snapshots below a snapshot. -/
def Snapshot.children : Snapshot → List Snapshot
  | .node _ _ _ children => children

end TreeScript
