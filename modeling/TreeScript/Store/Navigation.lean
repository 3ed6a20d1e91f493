import TreeScript.Store.Basic

/-!
# TreeScript — finding one's way in the store

Moving from node to node. What asks for a neighbour answers `none` when the
handle is stale; what reads a node's own data needs a live handle.

* `name`, `value`, `children` — a node's data;
* `parent?`, `firstChild?`, `child?`, `childNamed?` — down and up;
* `indexOf?`, `nextSibling?`, `previousSibling?` — sideways;
* `ancestors`, `root?`, `isAncestor` — all the way up;
* `descendants` — all the way down, each node before its children.
-/

namespace TreeScript.Store

-- ---------------------------------------------------------------------------
-- Data
-- ---------------------------------------------------------------------------

/-- The name of a live node. -/
def name (s : Store) (h : Handle) : Except Fault String := (s.node h).map Node.name

/-- The value of a live node. -/
def value (s : Store) (h : Handle) : Except Fault (Option Value) := (s.node h).map Node.value

/-- The children of a live node. -/
def children (s : Store) (h : Handle) : Except Fault (List Handle) :=
  (s.node h).map Node.children

/-- The number of children of a live node. -/
def childCount (s : Store) (h : Handle) : Except Fault Nat :=
  (s.node h).map fun n => n.children.length

-- ---------------------------------------------------------------------------
-- Neighbours
-- ---------------------------------------------------------------------------

/-- The children of a node, none for a stale handle. -/
def childList (s : Store) (h : Handle) : List Handle := ((s.node? h).map Node.children).getD []

/-- The parent of a node. -/
def parent? (s : Store) (h : Handle) : Option Handle := (s.node? h).bind Node.parent

/-- The first child of a node. -/
def firstChild? (s : Store) (h : Handle) : Option Handle := (s.childList h).head?

/-- The child of a node at a position. -/
def child? (s : Store) (h : Handle) (index : Nat) : Option Handle := (s.childList h)[index]?

/-- The first of some nodes with this name; all nodes in front of it have to be alive. -/
def findNamed (s : Store) (name : String) : List Handle → Except Fault (Option Handle)
  | [] => .ok none
  | h :: rest =>
    match s.node? h with
    | none => .error .stale
    | some n => if n.name = name then .ok (some h) else findNamed s name rest

/-- The first child of a node with this name. -/
def childNamed? (s : Store) (h : Handle) (name : String) : Except Fault (Option Handle) :=
  s.findNamed name (s.childList h)

/-- The position of a node among the children of its parent. -/
def indexOf? (s : Store) (h : Handle) : Option Nat :=
  (s.parent? h).bind fun p => (s.childList p).idxOf? h

/-- The node after a node among the children of its parent. -/
def nextSibling? (s : Store) (h : Handle) : Option Handle :=
  (s.parent? h).bind fun p => (s.indexOf? h).bind fun i => s.child? p (i + 1)

/-- The node before a node among the children of its parent. -/
def previousSibling? (s : Store) (h : Handle) : Option Handle :=
  (s.parent? h).bind fun p =>
    match s.indexOf? h with
    | some (i + 1) => s.child? p i
    | _ => none

-- ---------------------------------------------------------------------------
-- Upwards
-- ---------------------------------------------------------------------------

/-- The first `fuel` nodes on the way up from a node, without the node itself. -/
def ancestorsWithin (s : Store) : (fuel : Nat) → Handle → List Handle
  | 0, _ => []
  | fuel + 1, h =>
    match s.parent? h with
    | none => []
    | some p => p :: ancestorsWithin s fuel p

/-- The nodes on the way up from a node. No way up is longer than there are slots. -/
def ancestors (s : Store) (h : Handle) : List Handle := s.ancestorsWithin s.slots.size h

/-- The topmost node above a node, which may be the node itself. -/
def root? (s : Store) (h : Handle) : Option Handle :=
  if s.isAlive h then some ((s.ancestors h).getLast?.getD h) else none

/-- Whether the first node stands above the second one. -/
def isAncestor (s : Store) (above h : Handle) : Bool := (s.ancestors h).contains above

-- ---------------------------------------------------------------------------
-- Downwards
-- ---------------------------------------------------------------------------

/-- The next `fuel` nodes of a walk down, with `stack` still to be visited. -/
def walk (s : Store) : (fuel : Nat) → (stack : List Handle) → Except Fault (List Handle)
  | _, [] => .ok []
  | 0, _ :: _ => .error .endless
  | fuel + 1, h :: stack => do
    let below ← s.children h
    let rest ← walk s fuel (below ++ stack)
    .ok (h :: rest)

/-- All nodes below a node, each before its own children. -/
def descendants (s : Store) (h : Handle) : Except Fault (List Handle) := do
  let below ← s.children h
  s.walk s.slots.size below

end TreeScript.Store
