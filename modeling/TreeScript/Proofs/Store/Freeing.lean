import Mathlib.Algebra.BigOperators.Group.List.Basic
import TreeScript.Proofs.Store.Reach

/-!
# TreeScript — freeing comes to an end

Freeing works off a stack of handles. A turn takes the one on top; if it is alive, its node goes,
and what that node held comes onto the stack instead. So the stack may grow with every turn, and
where nodes hold each other in a circle, or share what they hold, a handle comes onto it many
times. But what comes onto the stack was held by a node that is gone: the handles on the stack and
those that nodes still hold are one less after every turn. And a handle that has been freed is
stale when it comes up again, so that no node is counted twice.

* `freeStep` — one turn;
* `heldCount`, `heldCount_release` — the handles that nodes still hold;
* `exists_iterate_freeStep` — all turns, how many they are and what they leave;
* `Drained`, `Drained.release`, `Balanced.drained_iterate` — what has gone after some turns;
* `freeing_ends_and_counts_once` — all of it.
-/

namespace TreeScript

/-- The number of handles that a node holds. -/
def Node.heldCount (n : Node) : Nat := n.owned?.toList.length + n.children.length

/-- The number of handles that the occupant of a slot holds. -/
def Slot.heldCount (slot : Slot) : Nat := (slot.node.map Node.heldCount).getD 0

namespace Store

variable {s t s' t' : Store} {h x : Handle} {n : Node} {stack gone : List Handle}

-- ---------------------------------------------------------------------------
-- One turn
-- ---------------------------------------------------------------------------

/-- One turn of freeing: the handle on top is taken off the stack, and if it is alive, its node is
freed and what that held is put on top. -/
def freeStep : Store × List Handle → Store × List Handle
  | (s, []) => (s, [])
  | (s, h :: stack) =>
    match s.release h with
    | none => (s, stack)
    | some (n, s') => (s', n.owned?.toList ++ (n.children.reverse ++ stack))

theorem freeStep_of_stale (hr : s.release h = none) (stack : List Handle) :
    freeStep (s, h :: stack) = (s, stack) := by simp [freeStep, hr]

theorem freeStep_of_release (hr : s.release h = some (n, s')) (stack : List Handle) :
    freeStep (s, h :: stack) = (s', n.owned?.toList ++ (n.children.reverse ++ stack)) := by
  simp [freeStep, hr]

-- ---------------------------------------------------------------------------
-- The number of turns
-- ---------------------------------------------------------------------------

/-- The number of handles that the nodes of a store hold. -/
def heldCount (s : Store) : Nat := (s.slots.toList.map Slot.heldCount).sum

/-- Replacing a number in a list. -/
theorem sum_set_add (xs : List Nat) {i : Nat} (hi : i < xs.length) (a : Nat) :
    (xs.set i a).sum + xs[i] = xs.sum + a := by
  have hnew := List.sum_set xs i a
  have hold := List.sum_set xs i xs[i]
  rw [List.set_getElem_self hi] at hold
  rw [if_pos hi] at hnew hold
  omega

/-- A node that is freed takes with it what it holds. -/
theorem heldCount_release (hr : s.release h = some (n, s')) :
    s'.heldCount + n.heldCount = s.heldCount := by
  obtain ⟨hn, rfl⟩ := release_eq_some hr
  obtain ⟨hi, -, hslot⟩ := slot_of_node? hn
  have hsum := sum_set_add (s.slots.toList.map Slot.heldCount) (i := h.index) (by simpa using hi) 0
  simp only [List.getElem_map, Array.getElem_toList, Slot.heldCount, hslot, Option.map_some,
    Option.getD_some] at hsum
  simp only [heldCount, Array.toList_setIfInBounds, List.map_set]
  exact hsum

/-- Turns are taken from a state with something on the stack, if they are from the next one. -/
theorem busy_succ {p : Store × List Handle} {turns : Nat} (hp : p.2 ≠ [])
    (hbusy : ∀ i < turns, (freeStep^[i] (freeStep p)).2 ≠ []) :
    ∀ i < turns + 1, (freeStep^[i] p).2 ≠ []
  | 0, _ => hp
  | i + 1, hi => by
    rw [Function.iterate_succ_apply]
    exact hbusy i (Nat.lt_of_succ_lt_succ hi)

/-- Freeing all that is on a stack is taking turns until the stack is empty. Each turn takes one
handle off those that are on the stack or held by a node. -/
theorem exists_iterate_freeStep (s : Store) (stack : List Handle) :
    ∃ turns, freeStep^[turns] (s, stack) = (s.releaseAll stack, []) ∧
      (∀ i < turns, (freeStep^[i] (s, stack)).2 ≠ []) ∧
      turns + (s.releaseAll stack).heldCount = stack.length + s.heldCount := by
  fun_induction releaseAll s stack with
  | case1 s => exact ⟨0, rfl, by simp, by simp⟩
  | case2 s h stack hr ih =>
    obtain ⟨turns, hend, hbusy, hcount⟩ := ih
    rw [← freeStep_of_stale hr] at hend hbusy
    refine ⟨turns + 1, hend, busy_succ (by simp) hbusy, ?_⟩
    rw [List.length_cons]
    omega
  | case3 s h stack n s' hr ih =>
    obtain ⟨turns, hend, hbusy, hcount⟩ := ih
    rw [← freeStep_of_release hr] at hend hbusy
    refine ⟨turns + 1, hend, busy_succ (by simp) hbusy, ?_⟩
    have hheld := heldCount_release hr
    simp only [List.length_append, List.length_reverse, Node.heldCount, List.length_cons]
      at hcount hheld ⊢
    omega

-- ---------------------------------------------------------------------------
-- What has gone
-- ---------------------------------------------------------------------------

/-- Some nodes have been freed, the last one first, and no slot but theirs has been touched: each
slot is empty, its generation has moved on by one, its index has been put on the free list, and the
counter has gone down by one for it. -/
structure Drained (s : Store) (gone : List Handle) (t : Store) : Prop where
  alive {x : Handle} : x ∈ gone → s.isAlive x = true
  nodup : (gone.map Handle.index).Nodup
  emptied {x : Handle} : x ∈ gone → ∃ slot, t.slots[x.index]? = some slot ∧ slot.node = none ∧
    slot.generation = x.generation + 1
  kept {i : Nat} : i ∉ gone.map Handle.index → t.slots[i]? = s.slots[i]?
  free : t.free = gone.map Handle.index ++ s.free
  live : t.live + gone.length = s.live

theorem drained_nil (s : Store) : Drained s [] s where
  alive hx := absurd hx List.not_mem_nil
  nodup := List.nodup_nil
  emptied hx := absurd hx List.not_mem_nil
  kept _ := rfl
  free := rfl
  live := rfl

namespace Drained

theorem isAlive_eq (hd : Drained s gone t) (hx : x.index ∉ gone.map Handle.index) :
    t.isAlive x = s.isAlive x := by
  rw [isAlive, isAlive, node?, node?, hd.kept hx]

/-- A slot that has been emptied has no live node in any generation. -/
theorem not_mem_index (hd : Drained s gone t) (hx : t.isAlive x = true) :
    x.index ∉ gone.map Handle.index := by
  intro hmem
  obtain ⟨y, hy, hindex⟩ := List.mem_map.1 hmem
  obtain ⟨slot, hslot, hempty, -⟩ := hd.emptied hy
  rw [hindex] at hslot
  simp [isAlive, node?, hslot, hempty] at hx

theorem not_isAlive (hd : Drained s gone t) (hx : x ∈ gone) : t.isAlive x = false :=
  Bool.eq_false_iff.2 fun halive => hd.not_mem_index halive (List.mem_map_of_mem hx)

/-- The nodes that have gone are those that were alive and are not. -/
theorem mem_iff (hd : Drained s gone t) :
    x ∈ gone ↔ s.isAlive x = true ∧ t.isAlive x = false := by
  constructor
  · exact fun hx => ⟨hd.alive hx, hd.not_isAlive hx⟩
  · rintro ⟨hs, ht⟩
    by_cases hmem : x.index ∈ gone.map Handle.index
    · obtain ⟨y, hy, hindex⟩ := List.mem_map.1 hmem
      obtain ⟨n, hn⟩ := isAlive_iff.1 hs
      obtain ⟨m, hm⟩ := isAlive_iff.1 (hd.alive hy)
      exact index_injective hn hm hindex ▸ hy
    · rw [hd.isAlive_eq hmem, hs] at ht
      cases ht

/-- One more node is freed. It was there from the beginning, and there is one to count down. -/
theorem release (hd : Drained s gone t) (ht : Balanced t) (hr : t.release h = some (n, t')) :
    Drained s (h :: gone) t' := by
  have hcount := (ht.release hr).2
  obtain ⟨hn, rfl⟩ := release_eq_some hr
  have hlive : t.isAlive h = true := isAlive_iff.2 ⟨n, hn⟩
  have hnew := hd.not_mem_index hlive
  have hlt := index_lt_size hn
  constructor
  case alive =>
    intro x hx
    rcases List.mem_cons.1 hx with rfl | hx
    · rwa [← hd.isAlive_eq hnew]
    · exact hd.alive hx
  case nodup => exact List.nodup_cons.2 ⟨hnew, hd.nodup⟩
  case emptied =>
    intro x hx
    rcases List.mem_cons.1 hx with rfl | hx
    -- the slot of the freed node counts one more use
    · refine ⟨⟨t.freedAt x.index + 1, none⟩, by simp [hlt], rfl, ?_⟩
      rw [Slot.generation, UInt32.ofNat_add, generation_of_node? hn]
      rfl
    · have hne : h.index ≠ x.index := fun heq => hnew (heq ▸ List.mem_map_of_mem hx)
      simpa [Array.getElem?_setIfInBounds, hne] using hd.emptied hx
  case kept =>
    intro i hi
    obtain ⟨hne, hi⟩ := not_or.1 (List.mem_cons.not.1 hi)
    rw [Array.getElem?_setIfInBounds_ne (Ne.symm hne)]
    exact hd.kept hi
  case free => rw [hd.free, List.map_cons, List.cons_append]
  case live =>
    have hsum := hd.live
    simp only [List.length_cons] at hcount ⊢
    omega

/-- A turn frees one more node, or none. -/
theorem freeStep {p : Store × List Handle} (hd : Drained s gone p.1) (hp : Balanced p.1) :
    ∃ gone', Drained s gone' (freeStep p).1 ∧ Balanced (freeStep p).1 := by
  obtain ⟨t, stack⟩ := p
  cases stack with
  | nil => exact ⟨gone, hd, hp⟩
  | cons h stack =>
    cases hr : t.release h with
    | none =>
      rw [freeStep_of_stale hr]
      exact ⟨gone, hd, hp⟩
    | some made =>
      obtain ⟨n, t'⟩ := made
      rw [freeStep_of_release hr]
      exact ⟨h :: gone, hd.release hp hr, (hp.release hr).1⟩

end Drained

/-- After any number of turns some nodes have been freed, each once, and the books are in order. -/
theorem Balanced.drained_iterate (hs : Balanced s) (stack : List Handle) (turns : Nat) :
    ∃ gone, Drained s gone (freeStep^[turns] (s, stack)).1 ∧
      Balanced (freeStep^[turns] (s, stack)).1 := by
  induction turns with
  | zero => exact ⟨[], drained_nil s, hs⟩
  | succ turns ih =>
    obtain ⟨gone, hd, hbalanced⟩ := ih
    rw [Function.iterate_succ_apply']
    exact hd.freeStep hbalanced

-- ---------------------------------------------------------------------------
-- All of it
-- ---------------------------------------------------------------------------

/-- Freeing all that a handle reaches comes to an end, however nodes hold each other and whatever
stale handles they hold. After every turn some nodes have been freed, each of them once, and the
books are in order; in the end these are the live nodes that the handle reaches and no others. -/
theorem freeing_ends_and_counts_once (hs : Balanced s) (h : Handle) :
    ∃ turns gone,
      freeStep^[turns] (s, [h]) = (s.releaseAll [h], []) ∧
      (∀ i < turns, (freeStep^[i] (s, [h])).2 ≠ []) ∧
      turns + (s.releaseAll [h]).heldCount = 1 + s.heldCount ∧
      (∀ i, ∃ before, Drained s before (freeStep^[i] (s, [h])).1 ∧
        Balanced (freeStep^[i] (s, [h])).1) ∧
      Drained s gone (s.releaseAll [h]) ∧
      (∀ x, x ∈ gone ↔ s.isAlive x = true ∧ s.Reaches h x) ∧
      Balanced (s.releaseAll [h]) := by
  obtain ⟨turns, hend, hbusy, hcount⟩ := exists_iterate_freeStep s [h]
  obtain ⟨gone, hgone, hbalanced⟩ := hs.drained_iterate [h] turns
  rw [hend] at hgone hbalanced
  refine ⟨turns, gone, hend, hbusy, hcount, hs.drained_iterate [h], hgone, fun x => ?_, hbalanced⟩
  rw [hgone.mem_iff]
  refine and_congr_right fun hx => ?_
  rw [← Bool.not_eq_true, isAlive_releaseAll]
  simp [hx]

/-- Two nodes own each other, one of them lists itself, and both list a third one, whose slot has
been freed as often as 32 bits can count; among the children are also a handle to an empty slot and
one to no slot at all. -/
def knot : Store where
  slots := #[⟨0, some { name := "a", value := some (.node ⟨1, 0⟩), children :=
        [⟨2, 4294967295⟩, ⟨3, 8⟩, ⟨2, 4294967295⟩] }⟩,
    ⟨0, some { name := "b", value := some (.node ⟨0, 0⟩), children :=
        [⟨1, 0⟩, ⟨2, 4294967295⟩, ⟨9, 0⟩] }⟩,
    ⟨4294967295, some { name := "c" }⟩, ⟨8, none⟩,
    ⟨0, some { name := "d", children := [⟨2, 4294967295⟩] }⟩]
  free := [3]
  live := 4

/-- The knot is freed, and the generation of the shared node's slot starts again from zero. The
node that lists the shared one from outside stays. -/
theorem freeing_ends_and_counts_once_knot :
    Balanced knot ∧ ∃ (turns : Nat) (gone : List Handle),
      freeStep^[turns] (knot, [⟨0, 0⟩]) = (knot.releaseAll [⟨0, 0⟩], []) ∧
      ⟨1, 0⟩ ∈ gone ∧ ⟨2, 4294967295⟩ ∈ gone ∧ ⟨4, 0⟩ ∉ gone ∧
      (knot.releaseAll [⟨0, 0⟩]).free = gone.map Handle.index ++ [3] ∧
      (∃ slot, (knot.releaseAll [⟨0, 0⟩]).slots[2]? = some slot ∧ slot.generation = 0) ∧
      Balanced (knot.releaseAll [⟨0, 0⟩]) := by
  have hs : Balanced knot := by
    refine ⟨by decide, fun i => ?_, by decide⟩
    rcases i with _ | _ | _ | _ | _ | i
    all_goals simp [knot]
  obtain ⟨turns, gone, hend, -, -, -, hgone, hmem, hbalanced⟩ :=
    freeing_ends_and_counts_once hs ⟨0, 0⟩
  have hb : knot.Reaches ⟨0, 0⟩ ⟨1, 0⟩ := .single ⟨_, rfl, Or.inr rfl⟩
  have hc : knot.Reaches ⟨0, 0⟩ ⟨2, 4294967295⟩ := .single ⟨_, rfl, Or.inl (by decide)⟩
  -- nobody holds the last node
  have hnobody : ∀ a, ¬ knot.Holds a ⟨4, 0⟩ := by
    rintro a ⟨n, hn, hheld⟩
    have hnot : (⟨4, 0⟩ : Handle) ∉ n.owned?.toList ++ n.children :=
      forall_of_slots (P := fun n => (⟨4, 0⟩ : Handle) ∉ n.owned?.toList ++ n.children)
        (by decide) hn
    simp only [List.mem_append, Option.mem_toList] at hnot
    exact hnot hheld.symm
  have hout : ¬ knot.Reaches ⟨0, 0⟩ ⟨4, 0⟩ := by
    intro hreach
    rcases hreach.cases_last with heq | ⟨a, -, ha⟩
    · simp at heq
    · exact hnobody a ha
  have hc' := (hmem ⟨2, 4294967295⟩).2 ⟨by decide, hc⟩
  obtain ⟨slot, hslot, -, hgeneration⟩ := hgone.emptied hc'
  exact ⟨hs, turns, gone, hend, (hmem _).2 ⟨by decide, hb⟩, hc', fun hx => hout ((hmem _).1 hx).2,
    hgone.free, ⟨slot, hslot, hgeneration⟩, hbalanced⟩

end Store

end TreeScript
