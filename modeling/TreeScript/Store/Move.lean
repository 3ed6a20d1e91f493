import TreeScript.Store.View

/-!
# TreeScript — moving nodes

A node is moved below another unless it would stand above itself. A move that is
refused shows both nodes as they are, so it is told with a picture of each, and
where a picture cannot be taken the refusal itself goes wrong.

* `NodeContext`, `Store.describe` — a node as a failure shows it;
* `InsertError` — why a node could not be moved;
* `Store.insert`, `Store.append` — moving a node.
-/

namespace TreeScript

/-- A node as a failure shows it. -/
structure NodeContext where
  name : String
  text : String
  deriving DecidableEq, Repr

/-- The name in brackets. -/
def NodeContext.label (c : NodeContext) : String := "[" ++ c.name ++ "]"

namespace Store

/-- A node as a failure shows it; a node that is gone has no text. -/
def describe (s : Store) (h : Handle) : Except Fault NodeContext :=
  match s.node? h with
  | none => .ok ⟨"<removed>", ""⟩
  | some n => (s.render h).map fun text => ⟨n.name, text⟩

/-- Why a node could not be moved: it would stand above itself, with the two nodes as they are, or
a stale handle or a circle of references was met. -/
inductive InsertError where
  | cyclic (child parent : NodeContext)
  | fault (fault : Fault)
  deriving DecidableEq, Repr

/-- The refusal of a move: both nodes are shown, first the one that was to be moved. -/
def refusal (s : Store) (parent child : Handle) : InsertError :=
  match s.describe child with
  | .error fault => .fault fault
  | .ok c =>
    match s.describe parent with
    | .error fault => .fault fault
    | .ok p => .cyclic c p

/-- Moves a node below another, in front of the child at `index`; past the end
means last. -/
def insert (s : Store) (parent : Handle) (index : Nat) (child : Handle) :
    Except InsertError Store :=
  if s.wouldCycle parent child then .error (s.refusal parent child)
  else (s.moveBelow parent index child).mapError .fault

/-- Moves a node below another, behind its children. -/
def append (s : Store) (parent child : Handle) : Except InsertError Store :=
  match s.childCount parent with
  | .ok count => s.insert parent count child
  | .error fault => .error (.fault fault)

end Store

end TreeScript
