import TreeScript.Scalar.Basic

/-!
# TreeScript — the node store

All nodes live in one store and are addressed by handles. A handle names a
slot and the generation of its occupant, which counts in 32 bits how often the
slot has been freed: a handle to a freed node is *stale* from then on, whoever
moves into the slot. Everything that is known about a node is read through
`Store.node?`; the operations below are the only ones that touch slots.

* `Handle`, `Value`, `Node`, `Store` — the types;
* `Store.node?` — the one view of the store;
* `Store.modify`, `Store.allocate`, `Store.release` — change, add, free one node;
* `Store.releaseAll` — free all that some handles reach, each node once;
* `Fault` — a stale handle where a node was needed, or a walk without end.
-/

namespace TreeScript

/-- The address of a node: a slot and the generation of its occupant. -/
structure Handle where
  index : Nat
  generation : UInt32
  deriving DecidableEq, Repr, Inhabited

/-- The value of a node. `node` owns the node it points at: it is copied and
freed with its holder. `ref` points at a node that is owned elsewhere. -/
inductive Value where
  | scalar (v : Scalar)
  | node (h : Handle)
  | ref (h : Handle)
  deriving DecidableEq

namespace Value

/-- The name of the type of a value; both kinds of node values share one. -/
def typeName : Value → String
  | .scalar v => v.kind.name
  | _ => "node"

/-- The string that a value is. -/
def string? : Value → Option String
  | .scalar (.string s) => some s
  | _ => none

/-- The whole number that a value is, without reading any text. -/
def integer? : Value → Option Int
  | .scalar (.int n) => some n.toInt
  | .scalar (.byte b) => some b.toNat
  | .scalar (.sbyte b) => some b.toInt
  | _ => none

/-- The node that a value points at. -/
def target? : Value → Option Handle
  | .node h => some h
  | .ref h => some h
  | _ => none

/-- The node that a value owns. -/
def owned? : Value → Option Handle
  | .node h => some h
  | _ => none

/-- Whether a value is a path expression. -/
def isExpression : Value → Bool
  | .scalar (.expr _) => true
  | _ => false

/-- The text form of a scalar value; node values have none. -/
def scalarText? (encode : Bool) : Value → Option String
  | .scalar v => some (v.text encode)
  | _ => none

end Value

/-- What the store knows about a node. -/
structure Node where
  name : String
  value : Option Value := none
  parent : Option Handle := none
  children : List Handle := []
  deriving DecidableEq

/-- The node that a node owns as its value. -/
def Node.owned? (n : Node) : Option Handle := n.value.bind Value.owned?

/-- A slot: how often it has been freed, and its occupant. -/
structure Slot where
  freed : Nat
  node : Option Node

/-- The generation of the next or present occupant of a slot: the number of
times it has been freed, in 32 bits. -/
def Slot.generation (slot : Slot) : UInt32 := UInt32.ofNat slot.freed

/-- The store: slots, the indexes of the empty ones with the last freed in
front, and the number of occupied ones. -/
structure Store where
  slots : Array Slot := #[]
  free : List Nat := []
  live : Nat := 0
  deriving Inhabited

/-- What stops an operation: a stale handle where a live node was needed, or a
walk that would not end. -/
inductive Fault where
  | stale
  | endless
  deriving DecidableEq, Repr

namespace Store

/-- The store without nodes. -/
def empty : Store := {}

/-- The node at a handle; `none` if the handle is stale. -/
def node? (s : Store) (h : Handle) : Option Node :=
  match s.slots[h.index]? with
  | some slot => if slot.generation = h.generation then slot.node else none
  | none => none

/-- How often a slot has been freed. -/
def freedAt (s : Store) (i : Nat) : Nat := ((s.slots[i]?).map Slot.freed).getD 0

/-- Whether a handle still names a node. -/
def isAlive (s : Store) (h : Handle) : Bool := (s.node? h).isSome

/-- The node at a handle that has to be alive. -/
def node (s : Store) (h : Handle) : Except Fault Node :=
  match s.node? h with
  | some n => .ok n
  | none => .error .stale

/-- Changes the node at a handle, if there is one. -/
def modify (s : Store) (h : Handle) (f : Node → Node) : Store :=
  match s.node? h with
  | some n => { s with slots := s.slots.setIfInBounds h.index ⟨s.freedAt h.index, some (f n)⟩ }
  | none => s

/-- Gives a node a slot: the last one freed, or a new one. -/
def allocate (s : Store) (n : Node) : Handle × Store :=
  match s.free with
  | i :: rest =>
    let slot : Slot := ⟨s.freedAt i, some n⟩
    (⟨i, slot.generation⟩,
      { slots := s.slots.setIfInBounds i slot, free := rest, live := s.live + 1 })
  | [] =>
    (⟨s.slots.size, 0⟩, { s with slots := s.slots.push ⟨0, some n⟩, live := s.live + 1 })

/-- Takes a node out of its slot and makes every handle to it stale. -/
@[inline] def release (s : Store) (h : Handle) : Option (Node × Store) :=
  match s.node? h with
  | some n =>
    some (n,
      { slots := s.slots.setIfInBounds h.index ⟨s.freedAt h.index + 1, none⟩
        free := h.index :: s.free
        live := s.live - 1 })
  | none => none

-- ---------------------------------------------------------------------------
-- Freeing all that is reached
-- ---------------------------------------------------------------------------

/-- The number of occupied slots. -/
def occupied (s : Store) : Nat := s.slots.countP fun slot => slot.node.isSome

/-- A node found through a handle sits in the slot of that handle. -/
theorem slot_of_node? {s : Store} {h : Handle} {n : Node} (hn : s.node? h = some n) :
    ∃ hi : h.index < s.slots.size,
      s.slots[h.index].generation = h.generation ∧ s.slots[h.index].node = some n := by
  unfold node? at hn
  split at hn
  next slot hs =>
    obtain ⟨hi, rfl⟩ := Array.getElem?_eq_some_iff.1 hs
    split at hn
    next hg => exact ⟨hi, hg, hn⟩
    next => exact absurd hn (by simp)
  next => exact absurd hn (by simp)

/-- Freeing a node empties one slot. -/
theorem occupied_release {s s' : Store} {h : Handle} {n : Node}
    (hr : s.release h = some (n, s')) : s'.occupied < s.occupied := by
  unfold release at hr
  split at hr
  next m hm =>
    obtain ⟨hi, -, hslot⟩ := slot_of_node? hm
    obtain ⟨-, rfl⟩ := Prod.mk.inj (Option.some.inj hr)
    simp only [occupied, Array.setIfInBounds, hi, dif_pos]
    rw [Array.countP_set]
    have hpos : 0 < s.slots.countP fun slot => slot.node.isSome :=
      Array.countP_pos_iff.2 ⟨_, Array.getElem_mem hi, by simp [hslot]⟩
    simp only [hslot, Option.isSome_some, Option.isSome_none, if_true, Bool.false_eq_true, if_false]
    exact Nat.sub_lt hpos Nat.one_pos
  next => exact absurd hr (by simp)

/-- Frees all nodes that the handles in `stack` reach through children and
owned values. A handle met again is stale by then, so each node is freed once
and the walk ends also where owned values run in a circle. -/
def releaseAll (s : Store) : (stack : List Handle) → Store
  | [] => s
  | h :: stack =>
    match _hr : s.release h with
    | none => releaseAll s stack
    | some (n, s') => releaseAll s' (n.owned?.toList ++ (n.children.reverse ++ stack))
termination_by stack => (s.occupied, stack.length)
decreasing_by
  · exact Prod.Lex.right _ (by simp)
  · exact Prod.Lex.left _ _ (occupied_release _hr)

end Store

end TreeScript
