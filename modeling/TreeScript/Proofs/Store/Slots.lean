import Mathlib.Logic.Relation
import Mathlib.Tactic
import TreeScript.Store.Basic

/-!
# TreeScript — slots over time

Three operations touch slots: `modify` changes an occupant, `allocate` moves one
in and `release` throws one out. Whatever is built from them keeps the books of
the store in order and never lets a stale handle come back to life, as long as
no slot has been freed so often that its generation starts again from zero.

* `node?_modify`, `node?_allocate`, `node?_release` — what each of the three
  does to the view of the store;
* `Balanced` — the free list holds the empty slots, each once, and `live` counts
  the occupied ones;
* `Evolves` — one store comes from another by some of the three operations;
* `Evolves.balanced` — the books stay in order all the way;
* `Evolves.isAlive_between`, `Evolves.not_isAlive` — a handle that is alive at
  two moments is alive in between, and one that was handed out and is stale stays so.
-/

namespace TreeScript.Store

-- ---------------------------------------------------------------------------
-- Reading slots
-- ---------------------------------------------------------------------------

/-- A node is found through a handle exactly when it sits in the slot of the
handle and the generations agree. -/
theorem node?_eq_some_iff {s : Store} {h : Handle} {n : Node} :
    s.node? h = some n ↔
      ∃ slot, s.slots[h.index]? = some slot ∧ slot.generation = h.generation ∧
        slot.node = some n := by
  unfold node?
  cases hs : s.slots[h.index]? with
  | none => simp
  | some slot =>
    by_cases hg : slot.generation = h.generation
    · simp [hg]
    · simp [hg]

/-- What holds of all occupants of slots holds of all nodes. -/
theorem forall_of_slots {s : Store} {P : Node → Prop}
    (h : ∀ slot ∈ s.slots.toList, ∀ n ∈ slot.node, P n) {x : Handle} {n : Node}
    (hn : s.node? x = some n) : P n := by
  obtain ⟨slot, hslot, -, hnode⟩ := node?_eq_some_iff.1 hn
  exact h slot (Array.mem_toList_iff.2 (Array.mem_of_getElem? hslot)) n hnode

theorem isAlive_iff {s : Store} {h : Handle} : s.isAlive h = true ↔ ∃ n, s.node? h = some n :=
  Option.isSome_iff_exists

/-- A handle is stale if it names no node. -/
theorem not_isAlive_iff {s : Store} {h : Handle} : s.isAlive h = false ↔ s.node? h = none := by
  simp [isAlive]

/-- The generation of a live handle is the number of times its slot has been freed. -/
theorem generation_of_node? {s : Store} {h : Handle} {n : Node} (hn : s.node? h = some n) :
    UInt32.ofNat (s.freedAt h.index) = h.generation := by
  obtain ⟨slot, hs, hg, -⟩ := node?_eq_some_iff.1 hn
  simpa [freedAt, hs, Slot.generation] using hg

/-- The view of a store after one slot has been filled anew. -/
theorem node?_setIfInBounds {s : Store} {i : Nat} (slot : Slot) (free : List Nat) (live : Nat)
    (hi : i < s.slots.size) (x : Handle) :
    ({ slots := s.slots.setIfInBounds i slot, free, live } : Store).node? x =
      if x.index = i then (if slot.generation = x.generation then slot.node else none)
      else s.node? x := by
  unfold node?
  rw [Array.getElem?_setIfInBounds]
  by_cases hx : x.index = i
  · subst hx
    simp [hi]
  · simp [hx, Ne.symm hx]

/-- Two handles to one slot of which one is alive: the other is the same handle or stale. -/
theorem node?_eq_none_of_index_eq {s : Store} {h x : Handle} {n : Node}
    (hn : s.node? h = some n) (hi : x.index = h.index) (hne : x ≠ h) : s.node? x = none := by
  obtain ⟨slot, hs, hg, -⟩ := node?_eq_some_iff.1 hn
  have hgen : slot.generation ≠ x.generation := by
    intro heq
    apply hne
    cases x; cases h
    simp_all
  simp [node?, hi, hs, hgen]

/-- Handles to different slots. -/
theorem index_injective {s : Store} {h x : Handle} {n m : Node} (hn : s.node? h = some n)
    (hm : s.node? x = some m) (hi : x.index = h.index) : x = h := by
  by_contra hne
  rw [node?_eq_none_of_index_eq hn hi hne] at hm
  simp at hm

/-- A handle that names a node has a slot. -/
theorem index_lt_size {s : Store} {h : Handle} {n : Node} (hn : s.node? h = some n) :
    h.index < s.slots.size := (slot_of_node? hn).1

-- ---------------------------------------------------------------------------
-- The three operations through the view
-- ---------------------------------------------------------------------------

/-- Changing a node changes what is found at its handle and nothing else. -/
theorem node?_modify (s : Store) (h : Handle) (f : Node → Node) (x : Handle) :
    (s.modify h f).node? x = if x = h then (s.node? h).map f else s.node? x := by
  unfold modify
  cases hn : s.node? h with
  | none =>
    by_cases hx : x = h
    · simp [hx, hn]
    · simp [hx]
  | some n =>
    have hlt := index_lt_size hn
    rw [node?_setIfInBounds _ _ _ hlt]
    by_cases hx : x = h
    · subst hx
      simp [Slot.generation, generation_of_node? hn]
    -- another handle to the same slot has another generation
    · by_cases hi : x.index = h.index
      · have hgen : h.generation ≠ x.generation := by
          intro heq
          apply hx
          cases x; cases h
          simp_all
        simp [hx, hi, Slot.generation, generation_of_node? hn, hgen,
          node?_eq_none_of_index_eq hn hi hx]
      · simp [hx, hi]

@[simp] theorem node?_modify_self (s : Store) (h : Handle) (f : Node → Node) :
    (s.modify h f).node? h = (s.node? h).map f := by simp [node?_modify]

theorem node?_modify_of_ne {s : Store} {h x : Handle} (f : Node → Node) (hx : x ≠ h) :
    (s.modify h f).node? x = s.node? x := by simp [node?_modify, hx]

@[simp] theorem isAlive_modify (s : Store) (h : Handle) (f : Node → Node) (x : Handle) :
    (s.modify h f).isAlive x = s.isAlive x := by
  by_cases hx : x = h
  · simp [isAlive, hx]
  · simp [isAlive, node?_modify_of_ne f hx]

/-- The shape of a store from which one node has been freed. -/
theorem release_eq_some {s s' : Store} {h : Handle} {n : Node} (hr : s.release h = some (n, s')) :
    s.node? h = some n ∧ s' =
      { slots := s.slots.setIfInBounds h.index ⟨s.freedAt h.index + 1, none⟩
        free := h.index :: s.free
        live := s.live - 1 } := by
  unfold release at hr
  split at hr
  next m hm =>
    obtain ⟨rfl, rfl⟩ := Prod.mk.inj (Option.some.inj hr)
    exact ⟨hm, rfl⟩
  next => simp at hr

theorem node?_of_release {s s' : Store} {h : Handle} {n : Node}
    (hr : s.release h = some (n, s')) : s.node? h = some n := (release_eq_some hr).1

/-- Freeing a node takes what is found at its handle away and nothing else. -/
theorem node?_release {s s' : Store} {h : Handle} {n : Node} (hr : s.release h = some (n, s'))
    (x : Handle) : s'.node? x = if x = h then none else s.node? x := by
  obtain ⟨hn, rfl⟩ := release_eq_some hr
  rw [node?_setIfInBounds _ _ _ (index_lt_size hn)]
  by_cases hx : x = h
  · subst hx
    simp
  · by_cases hi : x.index = h.index
    · simp [hx, hi, node?_eq_none_of_index_eq hn hi hx]
    · simp [hx, hi]

theorem release_eq_none_iff {s : Store} {h : Handle} : s.release h = none ↔ s.node? h = none := by
  unfold release
  cases s.node? h <;> simp

-- ---------------------------------------------------------------------------
-- The books of the store
-- ---------------------------------------------------------------------------

/-- The books of a store are in order: the free list holds the empty slots and
each of them once, and the counter of live nodes counts the occupied slots. -/
structure Balanced (s : Store) : Prop where
  free_nodup : s.free.Nodup
  mem_free : ∀ i, i ∈ s.free ↔ ∃ slot, s.slots[i]? = some slot ∧ slot.node = none
  live_eq : s.live = s.occupied

/-- A store without slots has its books in order. -/
theorem balanced_empty : Balanced empty where
  free_nodup := List.nodup_nil
  mem_free := by simp [empty]
  live_eq := rfl

/-- Filling a slot anew moves the number of occupied slots by what goes in and
what goes out. -/
theorem occupied_setIfInBounds {s : Store} {i : Nat} (slot : Slot) (free : List Nat) (live : Nat)
    (hi : i < s.slots.size) :
    ({ slots := s.slots.setIfInBounds i slot, free, live } : Store).occupied +
        (if s.slots[i].node.isSome then 1 else 0) =
      s.occupied + (if slot.node.isSome then 1 else 0) := by
  simp only [occupied, Array.setIfInBounds, hi, dif_pos]
  rw [Array.countP_set]
  have hpos : s.slots[i].node.isSome = true →
      0 < s.slots.countP fun slot => slot.node.isSome := fun hsome =>
    Array.countP_pos_iff.2 ⟨_, Array.getElem_mem hi, hsome⟩
  by_cases hold : s.slots[i].node.isSome = true
  · have := hpos hold
    simp only [hold, if_true]
    omega
  · simp [hold]

/-- Changing a node leaves the books in order. -/
theorem Balanced.modify {s : Store} (hs : Balanced s) (h : Handle) (f : Node → Node) :
    Balanced (s.modify h f) := by
  unfold Store.modify
  cases hn : s.node? h with
  | none => exact hs
  | some n =>
    obtain ⟨hi, -, hslot⟩ := slot_of_node? hn
    refine ⟨hs.free_nodup, fun i => ?_, ?_⟩
    · rw [hs.mem_free, Array.getElem?_setIfInBounds]
      by_cases hx : h.index = i
      · subst hx
        simp [hi, hslot]
      · simp [hx]
    · have hocc := occupied_setIfInBounds ⟨s.freedAt h.index, some (f n)⟩ s.free s.live hi
      simp only [hslot, Option.isSome_some, if_true] at hocc
      have := hs.live_eq
      simp only
      omega

/-- Freeing a node leaves the books in order, and there is one to count down. -/
theorem Balanced.release {s s' : Store} (hs : Balanced s) {h : Handle} {n : Node}
    (hr : s.release h = some (n, s')) : Balanced s' ∧ s'.live + 1 = s.live := by
  obtain ⟨hn, rfl⟩ := release_eq_some hr
  obtain ⟨hi, -, hslot⟩ := slot_of_node? hn
  have hocc := occupied_setIfInBounds ⟨s.freedAt h.index + 1, none⟩ (h.index :: s.free)
    (s.live - 1) hi
  simp only [hslot, Option.isSome_some, if_true, Option.isSome_none, Bool.false_eq_true,
    if_false] at hocc
  have hlive := hs.live_eq
  refine ⟨⟨?_, fun i => ?_, ?_⟩, ?_⟩
  -- the slot was in use, so it was not on the free list
  · refine List.nodup_cons.2 ⟨fun hmem => ?_, hs.free_nodup⟩
    obtain ⟨slot, hslot', hnone⟩ := (hs.mem_free _).1 hmem
    rw [Array.getElem?_eq_getElem hi] at hslot'
    rw [Option.some.inj hslot', hnone] at hslot
    simp at hslot
  -- now it is empty, and the only one that has changed
  · rw [List.mem_cons, hs.mem_free, Array.getElem?_setIfInBounds]
    by_cases hx : h.index = i
    · subst hx
      simp [hi]
    · simp [hx, Ne.symm hx]
  · simp only
    omega
  · simp only
    omega

/-- A slot that the free list offers is there and empty. -/
theorem Balanced.slot_of_free {s : Store} (hs : Balanced s) {i : Nat} {rest : List Nat}
    (hf : s.free = i :: rest) : ∃ hi : i < s.slots.size, s.slots[i].node = none := by
  obtain ⟨slot, hslot, hnone⟩ := (hs.mem_free i).1 (by simp [hf])
  obtain ⟨hi, rfl⟩ := Array.getElem?_eq_some_iff.1 hslot
  exact ⟨hi, hnone⟩

/-- The handle that a new node gets is stale before. -/
theorem Balanced.node?_allocate_fst {s : Store} (hs : Balanced s) (n : Node) :
    s.node? (s.allocate n).1 = none := by
  unfold allocate
  cases hf : s.free with
  | nil => simp [node?]
  | cons i rest =>
    obtain ⟨hi, hnone⟩ := hs.slot_of_free hf
    simp [node?, hi, hnone]

/-- A new node is found at its handle, and nothing else changes. -/
theorem Balanced.node?_allocate {s : Store} (hs : Balanced s) (n : Node) (x : Handle) :
    (s.allocate n).2.node? x = if x = (s.allocate n).1 then some n else s.node? x := by
  unfold allocate
  cases hf : s.free with
  | nil =>
    simp only [node?, Array.getElem?_push]
    obtain ⟨i, g⟩ := x
    by_cases hx : i = s.slots.size
    · subst hx
      have hzero : UInt32.ofNat 0 = 0 := rfl
      simp [Slot.generation, hzero, eq_comm]
    · simp [hx]
  | cons i rest =>
    obtain ⟨hi, hnone⟩ := hs.slot_of_free hf
    simp only
    rw [node?_setIfInBounds _ _ _ hi]
    obtain ⟨j, g⟩ := x
    by_cases hx : j = i
    · subst hx
      simp [node?, hi, hnone, Slot.generation, eq_comm]
    · simp [hx]

/-- A new node leaves the books in order. -/
theorem Balanced.allocate {s : Store} (hs : Balanced s) (n : Node) :
    Balanced (s.allocate n).2 := by
  have hlive := hs.live_eq
  unfold Store.allocate
  cases hf : s.free with
  -- a new slot at the end, in use at once
  | nil =>
    refine ⟨List.nodup_nil, fun i => ?_, ?_⟩
    · have hmem := hs.mem_free i
      rw [hf] at hmem
      simp only [hmem, Array.getElem?_push]
      by_cases hx : i = s.slots.size
      · simp [hx]
      · simp [hx]
    · simp [occupied, hlive]
  -- the first free slot, which was empty
  | cons i rest =>
    obtain ⟨hi, hnone⟩ := hs.slot_of_free hf
    have hnodup := hs.free_nodup
    rw [hf, List.nodup_cons] at hnodup
    refine ⟨hnodup.2, fun j => ?_, ?_⟩
    · have hmem := hs.mem_free j
      rw [hf, List.mem_cons] at hmem
      rw [Array.getElem?_setIfInBounds]
      by_cases hx : i = j
      · subst hx
        simp [hi, hnodup.1]
      · simpa [hx, Ne.symm hx] using hmem
    · have hocc := occupied_setIfInBounds ⟨s.freedAt i, some n⟩ rest (s.live + 1) hi
      simp only [hnone, Option.isSome_some, if_true, Option.isSome_none, Bool.false_eq_true,
        if_false] at hocc
      simp only
      omega

-- ---------------------------------------------------------------------------
-- Stores over time
-- ---------------------------------------------------------------------------

/-- One of the three operations on slots. -/
inductive Touches : Store → Store → Prop where
  | modify (s : Store) (h : Handle) (f : Node → Node) : Touches s (s.modify h f)
  | allocate (s : Store) (n : Node) : Touches s (s.allocate n).2
  | release {s s' : Store} {h : Handle} {n : Node} (hr : s.release h = some (n, s')) : Touches s s'

/-- One store comes from another by operations on slots. -/
def Evolves : Store → Store → Prop := Relation.ReflTransGen Touches

/-- No slot has been freed so often that its generation started again from zero. -/
def Unwrapped (s : Store) : Prop := ∀ i, s.freedAt i < 2 ^ 32

/-- Only the slots that there are have been freed. -/
theorem unwrapped_of_slots {s : Store}
    (h : ∀ slot ∈ s.slots.toList, slot.freed < 2 ^ 32) : Unwrapped s := by
  intro i
  unfold freedAt
  cases hslot : s.slots[i]? with
  | none => decide
  | some slot => exact h slot (Array.mem_toList_iff.2 (Array.mem_of_getElem? hslot))

/-- A handle that the store has given out: alive, or of an earlier occupant. -/
def Issued (s : Store) (h : Handle) : Prop :=
  h.generation.toNat < s.freedAt h.index ∨ s.isAlive h = true

/-- Whether a slot has an occupant. -/
def isOccupied (s : Store) (i : Nat) : Bool := (s.slots[i]?).any fun slot => slot.node.isSome

namespace Evolves

@[refl] theorem refl (s : Store) : Evolves s s := Relation.ReflTransGen.refl

theorem trans {s t u : Store} (h₁ : Evolves s t) (h₂ : Evolves t u) : Evolves s u :=
  Relation.ReflTransGen.trans h₁ h₂

/-- Changing a node is one operation on slots. -/
theorem modify (s : Store) (h : Handle) (f : Node → Node) : Evolves s (s.modify h f) :=
  Relation.ReflTransGen.single (.modify s h f)

/-- Bringing a node in is one operation on slots. -/
theorem allocate (s : Store) (n : Node) : Evolves s (s.allocate n).2 :=
  Relation.ReflTransGen.single (.allocate s n)

/-- Freeing a node is one operation on slots. -/
theorem release {s s' : Store} {h : Handle} {n : Node} (hr : s.release h = some (n, s')) :
    Evolves s s' := Relation.ReflTransGen.single (.release hr)

/-- Freeing all that is reached is freeing one node after the other. -/
theorem releaseAll (s : Store) (stack : List Handle) : Evolves s (s.releaseAll stack) := by
  fun_induction Store.releaseAll s stack with
  | case1 => exact .refl _
  | case2 _ _ _ _ ih => exact ih
  | case3 _ _ _ _ _ hr ih => exact (Evolves.release hr).trans ih

/-- The books stay in order, whatever is done to slots. -/
theorem balanced {s s' : Store} (he : Evolves s s') (hs : Balanced s) : Balanced s' := by
  induction he with
  | refl => exact hs
  | tail _ step ih =>
    cases step with
    | modify h f => exact ih.modify h f
    | allocate n => exact ih.allocate n
    | release hr => exact (ih.release hr).1

end Evolves

-- ---------------------------------------------------------------------------
-- How often slots have been freed
-- ---------------------------------------------------------------------------

/-- How often a slot has been freed is told by the slot itself. -/
theorem freedAt_setIfInBounds (s : Store) (i : Nat) (slot : Slot) (free : List Nat) (live : Nat)
    (j : Nat) :
    ({ slots := s.slots.setIfInBounds i slot, free, live } : Store).freedAt j =
      if i = j ∧ i < s.slots.size then slot.freed else s.freedAt j := by
  simp only [freedAt, Array.getElem?_setIfInBounds]
  by_cases hj : i = j
  · subst hj
    by_cases hi : i < s.slots.size
    · simp [hi]
    · simp [hi]
  · simp [hj]

/-- Changing a node frees nothing. -/
theorem freedAt_modify (s : Store) (x : Handle) (f : Node → Node) (i : Nat) :
    (s.modify x f).freedAt i = s.freedAt i := by
  unfold modify
  cases s.node? x with
  | none => rfl
  | some n =>
    simp only
    rw [freedAt_setIfInBounds]
    split
    next heq => rw [heq.1]
    next => rfl

/-- Nor does making a node: a new slot has not been freed yet, and a free one keeps its count. -/
theorem freedAt_allocate (s : Store) (n : Node) (i : Nat) :
    (s.allocate n).2.freedAt i = s.freedAt i := by
  unfold Store.allocate
  cases hfree : s.free with
  | nil =>
    simp only [Store.freedAt, Array.getElem?_push]
    by_cases hi : i = s.slots.size
    · simp [hi]
    · simp [hi]
  | cons j rest =>
    simp only
    rw [freedAt_setIfInBounds]
    split
    next heq => rw [heq.1]
    next => rfl

/-- Whether a slot is in use is told by the slot itself. -/
theorem isOccupied_setIfInBounds (s : Store) (i : Nat) (slot : Slot) (free : List Nat)
    (live : Nat) (j : Nat) :
    ({ slots := s.slots.setIfInBounds i slot, free, live } : Store).isOccupied j =
      if i = j ∧ i < s.slots.size then slot.node.isSome else s.isOccupied j := by
  simp only [isOccupied, Array.getElem?_setIfInBounds]
  by_cases hj : i = j
  · subst hj
    by_cases hi : i < s.slots.size
    · simp [hi]
    · simp [hi]
  · simp [hj]

/-- A handle is alive exactly when its slot is occupied in its generation. -/
theorem isAlive_iff_isOccupied {s : Store} {h : Handle} :
    s.isAlive h = true ↔
      s.isOccupied h.index = true ∧ UInt32.ofNat (s.freedAt h.index) = h.generation := by
  simp only [isAlive, node?, isOccupied, freedAt]
  cases s.slots[h.index]? with
  | none => simp
  | some slot =>
    show ((if slot.generation = h.generation then slot.node else none).isSome = true) ↔
      slot.node.isSome = true ∧ slot.generation = h.generation
    by_cases hg : slot.generation = h.generation
    · simp [hg]
    · simp [hg]

/-- One operation frees a slot at most once, and empties no slot without
counting that. -/
theorem Touches.freedAt {s s' : Store} (step : Touches s s') (i : Nat) :
    s'.freedAt i = s.freedAt i ∧ (s.isOccupied i = true → s'.isOccupied i = true) ∨
      s'.freedAt i = s.freedAt i + 1 := by
  cases step with
  -- only freeing counts up, an edit and an allocation leave the number
  | modify h f =>
    left
    unfold Store.modify
    split
    · rw [freedAt_setIfInBounds, isOccupied_setIfInBounds]
      by_cases hi : h.index = i
      · subst hi
        simpa using Or.inr
      · simp [hi]
    · simp
  | allocate n =>
    left
    unfold Store.allocate
    split
    next j rest _ =>
      simp only
      rw [freedAt_setIfInBounds, isOccupied_setIfInBounds]
      by_cases hi : j = i
      · subst hi
        simpa using Or.inr
      · simp [hi]
    next =>
      simp only [Store.freedAt, isOccupied, Array.getElem?_push]
      by_cases hi : i = s.slots.size
      · simp [hi]
      · simp [hi]
  | @release _ h _ hr =>
    obtain ⟨hn, rfl⟩ := release_eq_some hr
    rw [freedAt_setIfInBounds, isOccupied_setIfInBounds]
    by_cases hi : h.index = i
    · subst hi
      right
      simp [index_lt_size hn]
    · left
      simp [hi]

namespace Evolves

/-- No slot has been freed less often later. -/
theorem freedAt_le {s s' : Store} (he : Evolves s s') (i : Nat) : s.freedAt i ≤ s'.freedAt i := by
  induction he with
  | refl => exact Nat.le_refl _
  | tail _ step ih =>
    rcases step.freedAt i with ⟨heq, -⟩ | heq <;> omega

/-- A slot that has not been freed keeps its occupant. -/
theorem isOccupied_of_freedAt_eq {s s' : Store} (he : Evolves s s') {i : Nat}
    (ho : s.isOccupied i = true) (heq : s'.freedAt i = s.freedAt i) : s'.isOccupied i = true := by
  induction he with
  | refl => exact ho
  | tail before step ih =>
    have hle := freedAt_le before i
    rcases step.freedAt i with ⟨hsame, hkeep⟩ | hmore
    · exact hkeep (ih (by omega))
    · omega

/-- If no slot has been worn out by the end, none had been before. -/
theorem unwrapped {s s' : Store} (he : Evolves s s') (hu : Unwrapped s') : Unwrapped s :=
  fun i => Nat.lt_of_le_of_lt (he.freedAt_le i) (hu i)

end Evolves

/-- A live handle has as its generation the number of times that its slot has been freed. -/
theorem Unwrapped.generation_toNat {s : Store} (hu : Unwrapped s) {h : Handle}
    (ha : s.isAlive h = true) : h.generation.toNat = s.freedAt h.index := by
  rw [← (isAlive_iff_isOccupied.1 ha).2, UInt32.toNat_ofNat']
  exact Nat.mod_eq_of_lt (hu _)

namespace Evolves

/-- A handle that is alive at two moments is alive in between. -/
theorem isAlive_between {s t u : Store} (h₁ : Evolves s t) (h₂ : Evolves t u) (hu : Unwrapped u)
    {h : Handle} (hs : s.isAlive h = true) (ha : u.isAlive h = true) : t.isAlive h = true := by
  have hgen := (h₁.trans h₂).unwrapped hu |>.generation_toNat hs
  have hgen' := hu.generation_toNat ha
  have hle₁ := h₁.freedAt_le h.index
  have hle₂ := h₂.freedAt_le h.index
  obtain ⟨ho, hg⟩ := isAlive_iff_isOccupied.1 hs
  have heq : t.freedAt h.index = s.freedAt h.index := by omega
  exact isAlive_iff_isOccupied.2 ⟨h₁.isOccupied_of_freedAt_eq ho heq, by rw [heq, hg]⟩

/-- A handle that has been given out and is stale stays stale. -/
theorem not_isAlive {s s' : Store} (he : Evolves s s') (hu : Unwrapped s') {h : Handle}
    (hi : s.Issued h) (hd : s.isAlive h = false) : s'.isAlive h = false := by
  by_contra ha
  rw [Bool.not_eq_false] at ha
  have hgen := hu.generation_toNat ha
  have hle := he.freedAt_le h.index
  rcases hi with hlt | halive
  · omega
  · simp [hd] at halive

/-- A handle that has been given out stays one. -/
theorem issued {s s' : Store} (he : Evolves s s') (hu : Unwrapped s') {h : Handle}
    (hi : s.Issued h) : s'.Issued h := by
  have hle := he.freedAt_le h.index
  rcases hi with hlt | ha
  · exact Or.inl (by omega)
  · have hgen := (he.unwrapped hu).generation_toNat ha
    obtain ⟨ho, hg⟩ := isAlive_iff_isOccupied.1 ha
    rcases Nat.lt_or_ge (s.freedAt h.index) (s'.freedAt h.index) with hlt | hge
    · exact Or.inl (by omega)
    · have heq : s'.freedAt h.index = s.freedAt h.index := by omega
      exact Or.inr (isAlive_iff_isOccupied.2
        ⟨he.isOccupied_of_freedAt_eq ho heq, by rw [heq, hg]⟩)

end Evolves

end TreeScript.Store
