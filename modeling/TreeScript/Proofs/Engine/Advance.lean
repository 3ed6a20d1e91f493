import Mathlib.Data.List.TakeWhile
import TreeScript.Engine.Loop
import TreeScript.Proofs.Store.LiveChildren
import TreeScript.Proofs.Store.Siblings

/-!
# TreeScript — going on after a node that took itself away

When the present node is gone, the loop looks for nodes that were put in its place. It walks
back from the node that followed until it meets the one that stood in front. If that one has
been moved behind, the walk does not meet it and ends at the first child.

* `firstAfter_of_cut`, `firstAfter_of_cut_behind` — where the walk back ends;
* `Surroundings.advance_of_gone` — the loop goes on there if both neighbours stayed;
* `advance_between_neighbours` — the node it goes on with, by its place.
-/

namespace TreeScript

open Store

namespace Surroundings

variable {s : Store} {p f q h : Handle} {front between rest : List Handle}

-- ---------------------------------------------------------------------------
-- The walk back
-- ---------------------------------------------------------------------------

/-- What is in front of the first that fails the test. -/
theorem takeWhile_of_cut {α : Type} {keep : α → Bool} {front rest : List α} {a : α}
    (hfront : ∀ x ∈ front, keep x = true) (ha : keep a = false) :
    (front ++ a :: rest).takeWhile keep = front := by
  rw [List.takeWhile_append_of_pos hfront, List.takeWhile_cons_of_neg (by simp [ha]),
    List.append_nil]

/-- Where nobody in front of `f` is the previous node, the walk back ends at the first child. -/
theorem firstAfter_of_cut {previous : Option Handle}
    (hcut : s.childList p = front ++ f :: rest) (hf : f ∉ front)
    (hprevious : ∀ x ∈ front, some x ≠ previous) :
    firstAfter s p previous f = front.head?.getD f := by
  have hstop : (s.childList p).takeWhile (· != f) = front :=
    hcut ▸ takeWhile_of_cut (fun x hx => bne_iff_ne.2 fun heq => hf (heq ▸ hx)) (by simp)
  have hall : front.reverse.takeWhile (fun x => some x != previous) = front.reverse :=
    List.takeWhile_eq_self_iff.2 fun x hx =>
      bne_iff_ne.2 (hprevious x (List.mem_reverse.1 hx))
  simp only [firstAfter, hstop, hall, List.getLast?_reverse]

/-- Where the previous node is in front of `f`, the walk back ends right behind it. -/
theorem firstAfter_of_cut_behind (hcut : s.childList p = front ++ q :: (between ++ f :: rest))
    (hnodup : (s.childList p).Nodup) :
    firstAfter s p (some q) f = between.head?.getD f := by
  rw [hcut] at hnodup
  have hbehind : (q :: (between ++ f :: rest)).Nodup := hnodup.of_append_right
  have hq : q ∉ between := fun hmem =>
    (List.nodup_cons.1 hbehind).1 (List.mem_append_left _ hmem)
  have hf : f ∉ front ++ q :: between := by
    have hassoc : ((front ++ q :: between) ++ f :: rest).Nodup := by simpa using hnodup
    exact fun hmem => List.disjoint_of_nodup_append hassoc hmem List.mem_cons_self
  have hstop : (s.childList p).takeWhile (· != f) = front ++ q :: between := by
    rw [hcut, show front ++ q :: (between ++ f :: rest) = (front ++ q :: between) ++ f :: rest by
      simp]
    exact takeWhile_of_cut (fun x hx => bne_iff_ne.2 fun heq => hf (heq ▸ hx)) (by simp)
  have hback : (front ++ q :: between).reverse.takeWhile (fun x => some x != some q) =
      between.reverse := by
    rw [List.reverse_append, List.reverse_cons, List.append_assoc, List.singleton_append]
    exact takeWhile_of_cut
      (fun x hx => by simpa using fun heq : x = q => hq (heq ▸ List.mem_reverse.1 hx)) (by simp)
  simp only [firstAfter, hstop, hback, List.getLast?_reverse]

/-- With both neighbours among the children of the old parent the loop walks back. -/
theorem advance_of_gone {x : Surroundings} (hgone : s.parent? h = none)
    (hparent : x.parent = some p) (hfollowing : x.following = some f)
    (hf : s.parent? f = some p) (hprevious : ∀ q, x.previous = some q → s.parent? q = some p) :
    x.advance s h = some (firstAfter s p x.previous f) := by
  have hplace : x.previous.all (fun q => s.parent? q == some p) = true := by
    rw [Option.all_eq_true]
    intro q hq
    rw [hprevious q hq]
    exact beq_self_eq_true _
  have hthere : x.following.filter (fun f => (s.parent? f).isSome) = some f := by
    rw [hfollowing, Option.filter_some, if_pos (by rw [hf]; rfl)]
  simp only [advance, hgone, hthere, hf, hparent, hplace, Option.isSome_none,
    Bool.false_eq_true, if_false, and_self, if_true]

end Surroundings

-- ---------------------------------------------------------------------------
-- Between the old neighbours
-- ---------------------------------------------------------------------------

open Surroundings in
/-- The node to go on with after one that has no parent any more, when the node that followed
it and the one that stood in front, if there was one, are both still children of its old
parent: it is a child of that parent and stands at or in front of the node that followed. It
is the first child if nobody stood in front. It is the one right behind the previous node if
that still stands in front of the node that followed, and if not, it is the first child. So
what stands up to the previous node is passed over exactly where the two have kept their
order. -/
theorem advance_between_neighbours {s₀ s : Store} (hl : Linked s) (hlive : LiveChildren s)
    {h p f : Handle} (hgone : s.parent? h = none)
    (hparent : (ofNode s₀ h).parent = some p) (hfollowing : (ofNode s₀ h).following = some f)
    (hf : s.parent? f = some p)
    (hprevious : ∀ q, (ofNode s₀ h).previous = some q → s.parent? q = some p) :
    ∃ n i k, (ofNode s₀ h).advance s h = some n ∧ s.parent? n = some p ∧
      s.indexOf? n = some i ∧ s.indexOf? f = some k ∧ i ≤ k ∧
      ((ofNode s₀ h).previous = none → i = 0) ∧
      ∀ q j, (ofNode s₀ h).previous = some q → s.indexOf? q = some j →
        (j < i ↔ j < k) ∧ (j < k → i = j + 1) ∧ (k < j → i = 0) := by
  -- a member of the list is a child, and its index is its place
  have hplace : ∀ {n i}, (s.childList p)[i]? = some n →
      s.parent? n = some p ∧ s.indexOf? n = some i := by
    intro n i hi
    have hmem := List.mem_of_getElem? hi
    have hn := (hl.parent?_eq_some_iff (hlive.of_mem_childList hmem)).2 hmem
    exact ⟨hn, (hl.indexOf?_eq_some_iff hn).2 hi⟩
  have hnodup := hl.nodup_childList p
  -- the list is cut at the following node, since the search runs up to it
  obtain ⟨front, rest, hcut⟩ := List.mem_iff_append.1 (hl.mem_childList_of_parent? hf)
  have hffront : f ∉ front := fun hmem =>
    List.disjoint_of_nodup_append (hcut ▸ hnodup) hmem List.mem_cons_self
  have hk : s.indexOf? f = some front.length := (hplace (by rw [hcut]; simp)).2
  have hnext := advance_of_gone hgone hparent hfollowing hf hprevious
  generalize ofNode s₀ h = x at hnext hprevious ⊢
  by_cases hback : ∃ q, x.previous = some q ∧ q ∈ front
  · -- the walk back meets the previous node
    obtain ⟨q, hq, hmem⟩ := hback
    obtain ⟨before, between, rfl⟩ := List.mem_iff_append.1 hmem
    have hcut' : s.childList p = before ++ q :: (between ++ f :: rest) := by simpa using hcut
    rw [hq, firstAfter_of_cut_behind hcut' hnodup] at hnext
    have hi : (s.childList p)[before.length + 1]? = some (between.head?.getD f) := by
      rw [hcut']
      cases between <;> simp
    have hj : s.indexOf? q = some before.length := (hplace (by rw [hcut']; simp)).2
    obtain ⟨hparentn, hindexn⟩ := hplace hi
    refine ⟨_, _, _, hnext, hparentn, hindexn, hk, by simp, by simp [hq], ?_⟩
    intro q' j hq' hj'
    obtain rfl : q = q' := Option.some.inj (hq.symm.trans hq')
    obtain rfl : before.length = j := Option.some.inj (hj.symm.trans hj')
    simp
  · -- the walk back goes on to the first child
    have hfar : ∀ y ∈ front, some y ≠ x.previous := fun y hy heq => hback ⟨y, heq.symm, hy⟩
    rw [firstAfter_of_cut hcut hffront hfar] at hnext
    have hi : (s.childList p)[0]? = some (front.head?.getD f) := by
      rw [hcut]
      cases front <;> simp
    obtain ⟨hparentn, hindexn⟩ := hplace hi
    refine ⟨_, _, _, hnext, hparentn, hindexn, hk, Nat.zero_le _, fun _ => rfl, ?_⟩
    intro q j hq hj
    have hle : front.length ≤ j := by
      by_contra hlt
      have hmem := (hl.indexOf?_eq_some_iff (hprevious q hq)).1 hj
      rw [hcut, List.getElem?_append_left (not_le.1 hlt)] at hmem
      exact hback ⟨q, hq, List.mem_of_getElem? hmem⟩
    omega

/-- A node with four children. -/
def fourChildren : List Call :=
  [.create "r" none, .add ⟨0, 0⟩ "a" none, .add ⟨0, 0⟩ "p" none, .add ⟨0, 0⟩ "h" none,
    .add ⟨0, 0⟩ "f" none]

/-- What the third one does: it moves the second one behind all and takes itself away. -/
def swapNeighbours : List Call := [.append ⟨0, 0⟩ ⟨2, 0⟩, .detach ⟨3, 0⟩]

def fourChildrenStore : Store where
  slots := #[⟨0, some { name := "r", children := [⟨1, 0⟩, ⟨2, 0⟩, ⟨3, 0⟩, ⟨4, 0⟩] }⟩,
    ⟨0, some { name := "a", parent := some ⟨0, 0⟩ }⟩,
    ⟨0, some { name := "p", parent := some ⟨0, 0⟩ }⟩,
    ⟨0, some { name := "h", parent := some ⟨0, 0⟩ }⟩,
    ⟨0, some { name := "f", parent := some ⟨0, 0⟩ }⟩]
  live := 5

def swappedStore : Store where
  slots := #[⟨0, some { name := "r", children := [⟨1, 0⟩, ⟨4, 0⟩, ⟨2, 0⟩] }⟩,
    ⟨0, some { name := "a", parent := some ⟨0, 0⟩ }⟩,
    ⟨0, some { name := "p", parent := some ⟨0, 0⟩ }⟩,
    ⟨0, some { name := "h" }⟩,
    ⟨0, some { name := "f", parent := some ⟨0, 0⟩ }⟩]
  live := 5

/-- The loop goes back to the first child, which had been executed and was not moved. -/
theorem advance_between_neighbours_swapped :
    empty.performAll fourChildren = some fourChildrenStore ∧
      empty.performAll (fourChildren ++ swapNeighbours) = some swappedStore ∧
      ∃ n, (Surroundings.ofNode fourChildrenStore ⟨3, 0⟩).advance swappedStore ⟨3, 0⟩ = some n ∧
        swappedStore.indexOf? n = some 0 ∧ swappedStore.indexOf? ⟨4, 0⟩ = some 1 ∧
        swappedStore.indexOf? ⟨2, 0⟩ = some 2 := by
  have hrun : empty.performAll (fourChildren ++ swapNeighbours) = some swappedStore := by cbv
  have hl : Linked swappedStore :=
    performAll_linked hrun balanced_empty linked_empty (unwrapped_of_slots (by decide))
  have hlive : LiveChildren swappedStore := fun p n c hn hc =>
    forall_of_slots (P := fun n => ∀ c ∈ n.children, swappedStore.isAlive c = true) (by decide)
      hn c hc
  obtain ⟨n, i, k, hnext, -, hi, hk, -, -, hplaces⟩ :=
    @advance_between_neighbours fourChildrenStore swappedStore hl hlive ⟨3, 0⟩ ⟨0, 0⟩ ⟨4, 0⟩
      rfl rfl rfl rfl (by rintro q ⟨⟩; rfl)
  obtain rfl : 1 = k := Option.some.inj hk
  obtain rfl : i = 0 := (hplaces ⟨2, 0⟩ 2 rfl rfl).2.2 (by decide)
  exact ⟨by cbv, hrun, n, hnext, hi, rfl, rfl⟩

end TreeScript
