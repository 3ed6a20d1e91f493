import TreeScript.Document.Reader
import TreeScript.Store.Shape

/-!
# TreeScript — reading a text into the store

A text is read line by line, and the node of a line is put in its place before the next line
is looked at. A nested document is read into a tree of its own before the node that owns it is
made. If a line is faulty, the tree that has been made so far is freed, and so is the tree of
every document around it.

* `Store.loadValue` — the value of a node on a line;
* `Store.loadLines` — lines, as nodes below the nodes above them;
* `Store.load` — a text as a new nameless node, or its first fault.
-/

namespace TreeScript.Store

/-- The value of a node on a line. A nested document, which `nested` reads, is owned by it. -/
def loadValue (nested : Store → List Char → Except ReadError Handle × Store)
    (fault : (Position → ReadError) → ReadError) (s : Store) :
    Line.Value → Except ReadError (Option Value) × Store
  | .absent => (.ok none, s)
  | .untyped text => (.ok (some (.scalar (.string (String.ofList text)))), s)
  | .typed word text =>
    if word = "node".toList then
      match nested s text with
      | (.ok root, s) => (.ok (some (.node root)), s)
      | (.error e, s) => (.error (fault (.nested e)), s)
    else
      match Scalar.read (String.ofList word) (String.ofList text) true with
      | .ok v => (.ok (some (.scalar v)), s)
      | .error e => (.error (fault (.conversion e)), s)

/-- Reads some lines of a text. The node of a line at depth `d` becomes the last child of
`parents[d]`, and stands above the lines after it that are one level deeper. -/
def loadLines (nested : Store → List Char → Except ReadError Handle × Store) (text : List Char) :
    Store → (parents : List Handle) → List Line → Except ReadError Unit × Store
  | s, _, [] => (.ok (), s)
  | s, parents, line :: rest =>
    match line.node with
    | none => loadLines nested text s parents rest
    | some node =>
      let fault := fun f : Position → ReadError => f (Position.ofTail text line.tail)
      if line.indent % 2 ≠ 0 then (.error (fault .oddIndent), s)
      else
        match parents[line.indent / 2]? with
        | none => (.error (fault .skippedLevel), s)
        | some parent =>
          match loadValue nested fault s node.value with
          | (.error e, s) => (.error e, s)
          | (.ok v, s) =>
            let (h, s) := s.create (String.ofList node.name) v
            loadLines nested text (s.linkLast parent h)
              (parents.take (line.indent / 2 + 1) ++ [h]) rest

/-- Reads a text with documents nested less than `fuel` deep. -/
def loadWithin : (fuel : Nat) → Store → List Char → Except ReadError Handle × Store
  | 0, s, _ =>
    let (root, s) := s.create "" none
    (.ok root, s)
  | fuel + 1, s, text =>
    let (root, s) := s.create "" none
    match Line.scanAll text with
    | .error tail => (.error (.grammar (Position.ofTail text tail)), s.remove root)
    | .ok lines =>
      match loadLines (loadWithin fuel) text s [root] lines with
      | (.ok _, s) => (.ok root, s)
      | (.error e, s) => (.error e, s.remove root)

/-- Reads a text as a new nameless node without parent. If a line is faulty, all that has been
made is freed, and the fault is given. -/
def load (s : Store) (text : String) : Except ReadError Handle × Store :=
  s.loadWithin (text.toList.length + 1) text.toList

end TreeScript.Store
