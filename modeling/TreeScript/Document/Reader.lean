import TreeScript.Document.Line

/-!
# TreeScript — reading documents

The lines of a source text become a forest. A line may be at most one level
deeper than the line before it, every level is two spaces, and a typed value
has to convert; a `node` value is a document of its own. The first line that
breaks one of these rules ends the reading, and of several broken rules on one
line the indentation is reported first.

* `ReadError` — why a text is no document, with wording and place;
* `Document.entries` — the nodes up to the first faulty line;
* `Document.readUpTo` — the forest up to the first faulty line, and its fault;
* `Document.read` — the forest of a faultless text.
-/

namespace TreeScript

/-- Why a text is no document, and where. -/
inductive ReadError where
  | grammar (place : Position)
  | oddIndent (place : Position)
  | skippedLevel (place : Position)
  | conversion (error : ConversionError) (place : Position)
  | nested (inner : ReadError) (place : Position)
  deriving DecidableEq, Repr

namespace ReadError

/-- Where the fault is. -/
def place : ReadError → Position
  | .grammar p => p
  | .oddIndent p => p
  | .skippedLevel p => p
  | .conversion _ p => p
  | .nested _ p => p

/-- Whether the text is refused before any line is looked at. -/
def isGrammar : ReadError → Bool
  | .grammar _ => true
  | _ => false

/-- The number of the line, counted from one, in front of what is wrong with it;
nothing if the text is refused as a whole. -/
def lead : ReadError → String
  | .grammar _ => ""
  | e => "line " ++ toString (e.place.line + 1) ++ ": "

/-- What is wrong, without the place; a refused text has its place as its only wording. -/
def detail : ReadError → String
  | .grammar p => " --> " ++ toString (p.line + 1) ++ ":" ++ toString (p.column + 1)
  | .oddIndent _ => "indentation must be a multiple of two spaces"
  | .skippedLevel _ => "indentation is more than one level deeper than the previous node"
  | .conversion e _ => e.message
  | .nested inner _ => "invalid nested lambda: " ++ (lead inner ++ detail inner)

/-- The whole message. -/
def message (e : ReadError) : String := lead e ++ detail e

end ReadError

namespace Document

/-- The content of a node on a line; `readNested` reads nested documents, and `fault`
puts the place of the line to what is wrong with it. -/
def content (readNested : List Char → Except ReadError (List Doc))
    (fault : (Position → ReadError) → ReadError) : Line.Value → Except ReadError Doc.Content
  | .absent => .ok (.scalar none)
  | .untyped text => .ok (.scalar (some (.string (String.ofList text))))
  | .typed word text =>
    if word = "node".toList then
      match readNested text with
      | .ok docs => .ok (.nested docs)
      | .error e => .error (fault (.nested e))
    else
      match Scalar.read (String.ofList word) (String.ofList text) true with
      | .ok v => .ok (.scalar (some v))
      | .error e => .error (fault (.conversion e))

/-- The node of a line that may stand at most at depth `limit`. -/
def entry (readNested : List Char → Except ReadError (List Doc)) (limit : Nat)
    (fault : (Position → ReadError) → ReadError) (indent : Nat) (node : Line.Node) :
    Except ReadError Doc.Entry :=
  if indent % 2 ≠ 0 then .error (fault .oddIndent)
  else if limit < indent / 2 then .error (fault .skippedLevel)
  else
    match content readNested fault node.value with
    | .ok c => .ok ⟨indent / 2, String.ofList node.name, c⟩
    | .error e => .error e

/-- The nodes of some lines of a text up to the first faulty one, and its fault. -/
def entries (readNested : List Char → Except ReadError (List Doc)) (text : List Char) :
    (limit : Nat) → List Line → List Doc.Entry × Option ReadError
  | _, [] => ([], none)
  | limit, line :: rest =>
    match line.node with
    | none => entries readNested text limit rest
    | some node =>
      let fault := fun f : Position → ReadError => f (Position.ofTail text line.tail)
      match entry readNested limit fault line.indent node with
      | .error e => ([], some e)
      | .ok x =>
        let (xs, fault) := entries readNested text (x.depth + 1) rest
        (x :: xs, fault)

/-- The forest of a text up to its first faulty line, and the fault, with
documents nested less than `fuel` deep. -/
def readWithin : (fuel : Nat) → List Char → List Doc × Option ReadError
  | 0, _ => ([], none)
  | fuel + 1, text =>
    match Line.scanAll text with
    | .error tail => ([], some (.grammar (Position.ofTail text tail)))
    | .ok lines =>
      let readNested := fun inner =>
        match readWithin fuel inner with
        | (docs, none) => .ok docs
        | (_, some e) => .error e
      let (xs, fault) := entries readNested text 0 lines
      (Doc.ofEntries xs, fault)

/-- The forest of a text up to its first faulty line, and the fault. A nested
document is shorter than the text around it, so no text nests deeper than it
is long. -/
def readUpTo (text : String) : List Doc × Option ReadError :=
  readWithin (text.toList.length + 1) text.toList

/-- The forest of a text. -/
def read (text : String) : Except ReadError (List Doc) :=
  match readUpTo text with
  | (docs, none) => .ok docs
  | (_, some e) => .error e

end Document

end TreeScript
