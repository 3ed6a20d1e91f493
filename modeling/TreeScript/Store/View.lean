import TreeScript.Document.Reader
import TreeScript.Store.Shape

/-!
# TreeScript — nodes as documents

What a node of the store says as a document, and documents read into the
store. In a document there are no references: a node value of either kind
shows the children of the node it points at, and nothing if that is gone.

* `Store.view`, `Store.viewBelow` — a node, or its children, as a document;
* `Store.render`, `Store.renderBelow`, `Store.snapshot` — the same as text;
* `Store.parse` — a source text as a new nameless node;
* `Store.parseBelow` — a source text as further children of a node.
-/

namespace TreeScript.Store

/-- A node as a document, following values at most `fuel` deep. -/
def viewWithin (s : Store) : (fuel : Nat) → Handle → Except Fault Doc
  | 0, _ => .error .endless
  | fuel + 1, h => do
    let n ← s.node h
    match n.value.bind Value.target? with
    | some target =>
      let nested ← (s.childList target).mapM (viewWithin s fuel)
      return .holder n.name nested (← n.children.mapM (viewWithin s fuel))
    | none =>
      let scalar := n.value.bind fun
        | .scalar v => some v
        | _ => none
      return .plain n.name scalar (← n.children.mapM (viewWithin s fuel))

/-- A live node as a document. Following a value leads to another node each
time, so only a circle of references goes deeper than there are slots. -/
def view (s : Store) (h : Handle) : Except Fault Doc := s.viewWithin (s.slots.size + 1) h

/-- The children of a live node as a document. -/
def viewBelow (s : Store) (h : Handle) : Except Fault (List Doc) := do
  let below ← s.children h
  below.mapM s.view

/-- A live node as source text. -/
def render (s : Store) (h : Handle) : Except Fault String := (s.view h).map Doc.render

/-- The children of a live node as source text. -/
def renderBelow (s : Store) (h : Handle) : Except Fault String :=
  (s.viewBelow h).map Doc.renderForest

/-- A live node as names, types and texts. -/
def snapshot (s : Store) (h : Handle) : Except Fault Snapshot := (s.view h).map Doc.snapshot

-- ---------------------------------------------------------------------------
-- Reading into the store
-- ---------------------------------------------------------------------------

/-- The document of a source text as a new nameless node without parent: what a reading line by
line comes to if no line is faulty. -/
def parse (s : Store) (text : String) : Except ReadError (Handle × Store) :=
  match Document.read text with
  | .ok docs => .ok (s.plant (.plain "" none (Shape.ofForest docs)))
  | .error e => .error e

/-- The document of a source text as the last children of a node; if a line is
faulty, the nodes in front of it are there and the fault is given. -/
def parseBelow (s : Store) (h : Handle) (text : String) : Store × Option ReadError :=
  let (docs, fault) := Document.readUpTo text
  (s.plantBelow h (Shape.ofForest docs), fault)

end TreeScript.Store
