import TreeScript.Document.Basic
import TreeScript.Store.Edit

/-!
# TreeScript — contents and copies

The content of a node is its name and value, all that is below it and all that
these nodes own, without any handles except those that a reference points at.
Planting a content makes new nodes that have it; planting a document puts it into
the store. A copy of a node is made while the node is read.

* `Shape` — the content of a node;
* `Shape.ofDoc` — a document's content;
* `Store.plant` — a new node with a given content;
* `Store.copyBelow`, `Store.copyWithin`, `Store.deepClone` — a copy of a node.
-/

namespace TreeScript

/-- The content of a node: `plain` holds a scalar or nothing, `holder` owns
another node, `pointer` refers to one. -/
inductive Shape where
  | plain (name : String) (value : Option Scalar) (children : List Shape)
  | holder (name : String) (nested : Shape) (children : List Shape)
  | pointer (name : String) (target : Handle) (children : List Shape)

mutual

/-- The content that a node of a document has. A nested document becomes the
children of a nameless node. -/
def Shape.ofDoc : Doc → Shape
  | .plain name value children => .plain name value (ofForest children)
  | .holder name nested children =>
    .holder name (.plain "" none (ofForest nested)) (ofForest children)

/-- The contents of a forest. -/
def Shape.ofForest : List Doc → List Shape
  | [] => []
  | d :: rest => ofDoc d :: ofForest rest

end

namespace Store

mutual

/-- A new node without parent that has the given content. -/
def plant (s : Store) : Shape → Handle × Store
  | .plain name value children =>
    let (h, s) := s.create name (value.map Value.scalar)
    (h, plantBelow s h children)
  | .holder name nested children =>
    let (inner, s) := plant s nested
    let (h, s) := s.create name (some (.node inner))
    (h, plantBelow s h children)
  | .pointer name target children =>
    let (h, s) := s.create name (some (.ref target))
    (h, plantBelow s h children)

/-- New nodes with the given contents as the last children of a node. -/
def plantBelow (s : Store) (parent : Handle) : List Shape → Store
  | [] => s
  | x :: rest =>
    let (h, s) := plant s x
    plantBelow (s.linkLast parent h) parent rest

end

/-- Copies of some nodes as the last children of a node, one after the other. -/
def copyBelow (copy : Store → Handle → Except Fault (Handle × Store)) (s : Store)
    (parent : Handle) : List Handle → Except Fault Store
  | [] => .ok s
  | h :: rest => do
    let (c, s) ← copy s h
    copyBelow copy (s.linkLast parent c) parent rest

/-- A copy of a node whose nodes are nested at most `fuel` deep. The node is read first, then what
it owns is copied, then the new node is made, and then its children are copied: new nodes come
while the rest of the original is still to be read. -/
def copyWithin : (fuel : Nat) → Store → Handle → Except Fault (Handle × Store)
  | 0, _, _ => .error .endless
  | fuel + 1, s, h => do
    let n ← s.node h
    let (value, s) ← match n.value with
      | some (.node nested) => do
        let (inner, s) ← copyWithin fuel s nested
        pure (some (.node inner), s)
      | value => pure (value, s)
    let (copy, s) := s.create n.name value
    let s ← s.copyBelow (copyWithin fuel) copy n.children
    return (copy, s)

/-- A copy of a live node without parent. Owned nodes are copied too, references keep pointing at
the same node. Nodes cannot be nested deeper than there are slots, unless they hold each other in a
circle. -/
def deepClone (s : Store) (h : Handle) : Except Fault (Handle × Store) :=
  s.copyWithin (s.slots.size + 1) h

end Store

end TreeScript
