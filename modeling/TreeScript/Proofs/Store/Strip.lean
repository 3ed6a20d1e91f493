import TreeScript.Proofs.Store.Commute
import TreeScript.Proofs.Store.Removal
import TreeScript.Proofs.Store.Siblings

/-!
# TreeScript — a node loses its children and its value

The children of a node are removed one after the other, and then its value is taken away, with what
it owned. In any store a removal frees exactly what the removed node leads to. But a child that an
earlier one led to is stale when its turn comes, and so stays listed; and an owned node that has a
parent all the same is taken away from that parent.

* `node?_remove_of_reaches`, `node?_remove_of_not_reaches` — one removal, in any store;
* `removeAll`, `isAlive_removeAll`, `forall_not_mem_removeAll_iff` — several removals;
* `hollow`, `strip`, `strip_cases` — the children go, and then what is owned;
* `Contained`, `Emptied`, `emptied_iff` — when nothing is left of the children and the value, and
  no other node has changed;
* `Settled`, `not_isAlive_of_strip` — the children that have gone do not come back;
* `Disciplined.contained` — in a store that is in order, what goes is all the node's own.
-/

namespace TreeScript.Store

variable {s t u : Store} {h c d g x : Handle} {cs : List Handle}

-- ---------------------------------------------------------------------------
-- One removal
-- ---------------------------------------------------------------------------

/-- What a node leads to does not depend on who holds it. -/
theorem reaches_congr_of_ne (hsame : ∀ y z, z ≠ c → (t.Holds y z ↔ s.Holds y z)) :
    t.Reaches c x ↔ s.Reaches c x := by
  have hone : ∀ {a b : Store}, (∀ y z, z ≠ c → a.Holds y z → b.Holds y z) →
      a.Reaches c x → b.Reaches c x := by
    intro a b hab hway
    induction hway with
    | refl => exact .refl _ _
    | @tail y z _ hstep ih =>
      by_cases hz : z = c
      · exact hz ▸ .refl _ _
      · exact ih.tail (hab y z hz hstep)
  exact ⟨hone fun y z hz => (hsame y z hz).1, hone fun y z hz => (hsame y z hz).2⟩

/-- A node without one of its children owns what it owned. -/
theorem withoutChild_owned? (s : Store) (c x : Handle) (n : Node) :
    (s.withoutChild c x n).owned? = n.owned? := by
  unfold withoutChild
  split <;> rfl

/-- A node loses no other child. -/
theorem mem_children_withoutChild {n : Node} {z : Handle} (hz : z ≠ c) :
    z ∈ (s.withoutChild c x n).children ↔ z ∈ n.children := by
  unfold withoutChild
  split <;> simp [hz]

/-- Whoever held another node than the detached one still does. -/
theorem holds_detach {y z : Handle} (hz : z ≠ c) : (s.detach c).Holds y z ↔ s.Holds y z := by
  unfold Holds
  rw [node?_detach]
  cases s.node? y with
  | none => simp
  | some n =>
    by_cases hp : s.parent? c = some y
    · simp [hp, hz, Node.owned?]
    · simp [hp, Node.owned?]

/-- What a node leads to does not depend on where it hangs. -/
theorem reaches_detach : (s.detach c).Reaches c x ↔ s.Reaches c x :=
  reaches_congr_of_ne fun _ _ => holds_detach

/-- What is removed goes with all that it leads to. -/
theorem node?_remove_of_reaches (hx : s.Reaches c x) : (s.remove c).node? x = none := by
  unfold remove
  split
  next hc =>
    refine Option.eq_none_iff_forall_ne_some.2 fun m hm => ?_
    exact ((node?_releaseAll_eq_some _ _ _ _).1 hm).2 c (by simp) (reaches_detach.2 hx)
  next hc =>
    rw [Bool.not_eq_true] at hc
    rw [hx.eq_of_not_isAlive hc]
    exact not_isAlive_iff.1 hc

/-- All other nodes stay as they are, but the parent lists it no more. -/
theorem node?_remove_of_not_reaches (hx : ¬ s.Reaches c x) :
    (s.remove c).node? x = (s.node? x).map (s.withoutChild c x) := by
  have hne : x ≠ c := fun heq => hx (heq ▸ .refl _ _)
  unfold remove
  split
  next hc =>
    -- only the list of the parent changes, what is freed lies elsewhere
    have hdetach : (s.detach c).node? x = (s.node? x).map (s.withoutChild c x) := by
      rw [node?_detach]
      cases s.node? x with
      | none => rfl
      | some n =>
        simp only [Option.map_some, if_neg hne]
        unfold withoutChild
        split <;> rfl
    rw [← hdetach]
    refine Option.ext fun m => ?_
    rw [node?_releaseAll_eq_some]
    refine and_iff_left_of_imp fun _ g hg hreach => hx ?_
    obtain rfl := List.mem_singleton.1 hg
    exact reaches_detach.1 hreach
  next hc =>
    -- a handle that is stale has no parent, so nothing changes
    have hroot : s.parent? c = none := by
      simp [parent?, not_isAlive_iff.1 (Bool.not_eq_true _ ▸ hc)]
    cases s.node? x with
    | none => rfl
    | some n => simp [withoutChild, hroot]

/-- In any store, a removal frees exactly what the removed node leads to. -/
theorem isAlive_remove_iff :
    (s.remove c).isAlive x = true ↔ s.isAlive x = true ∧ ¬ s.Reaches c x := by
  by_cases hx : s.Reaches c x
  · simp [isAlive, node?_remove_of_reaches hx, hx]
  · simp [isAlive, node?_remove_of_not_reaches hx, hx]

/-- A node that stays is reached along the same ways. -/
theorem reaches_remove (hx : ¬ s.Reaches c x) : (s.remove c).Reaches d x ↔ s.Reaches d x := by
  -- an edge to a node that stays is kept, because its start stays too
  have hedge : ∀ {y z}, ¬ s.Reaches c z → ((s.remove c).Holds y z ↔ s.Holds y z) := by
    intro y z hz
    have hzc : z ≠ c := fun heq => hz (heq ▸ .refl _ _)
    by_cases hy : s.Reaches c y
    · refine iff_of_false (fun hyz => ?_) fun hyz => hz (hy.tail hyz)
      have halive := hyz.isAlive
      simp [isAlive, node?_remove_of_reaches hy] at halive
    · unfold Holds
      rw [node?_remove_of_not_reaches hy]
      cases s.node? y with
      | none => simp
      | some n => simp [mem_children_withoutChild hzc, withoutChild_owned?]
  constructor
  · intro hway
    induction hway using Relation.ReflTransGen.head_induction_on with
    | refl => exact .refl _ _
    | head hstep _ ih => exact .head ((hedge fun hreach => hx (hreach.trans ih)).1 hstep) ih
  · intro hway
    induction hway using Relation.ReflTransGen.head_induction_on with
    | refl => exact .refl _ _
    | head hstep hrest ih =>
      exact .head ((hedge fun hreach => hx (hreach.trans hrest)).2 hstep) ih

-- ---------------------------------------------------------------------------
-- Several removals
-- ---------------------------------------------------------------------------

/-- Some nodes are removed one after the other; one that is stale by then is passed over. -/
def removeAll (s : Store) (cs : List Handle) : Store := cs.foldl remove s

theorem removeAll_cons (s : Store) (c : Handle) (cs : List Handle) :
    s.removeAll (c :: cs) = (s.remove c).removeAll cs := rfl

/-- Several removals free exactly what the removed nodes lead to. -/
theorem isAlive_removeAll : (s.removeAll cs).isAlive x = true ↔
    s.isAlive x = true ∧ ∀ c ∈ cs, ¬ s.Reaches c x := by
  induction cs generalizing s with
  | nil => simp [removeAll]
  | cons c cs ih =>
    rw [removeAll_cons, ih, isAlive_remove_iff, List.forall_mem_cons, and_assoc]
    refine and_congr_right fun _ => and_congr_right fun hx => ?_
    simp only [reaches_remove hx]

/-- What leads to a node that is left does so still. -/
theorem reaches_removeAll (hx : ∀ c ∈ cs, ¬ s.Reaches c x) :
    (s.removeAll cs).Reaches d x ↔ s.Reaches d x := by
  induction cs generalizing s with
  | nil => rfl
  | cons c cs ih =>
    obtain ⟨hc, hcs⟩ := List.forall_mem_cons.1 hx
    rw [removeAll_cons, ih fun e he => mt (reaches_remove hc).1 (hcs e he), reaches_remove hc]

/-- The nodes of a list that are alive stand below one node. -/
def Siblings (s : Store) (h : Handle) (cs : List Handle) : Prop :=
  ∀ c ∈ cs, s.isAlive c = true → s.parent? c = some h

/-- A node that is left has its parent still. -/
theorem parent?_remove (hx : (s.remove c).isAlive x = true) :
    (s.remove c).parent? x = s.parent? x := by
  have hnot := (isAlive_remove_iff.1 hx).2
  unfold parent?
  rw [node?_remove_of_not_reaches hnot]
  cases s.node? x with
  | none => rfl
  | some n =>
    simp only [Option.map_some, Option.bind_some]
    unfold withoutChild
    split <;> rfl

/-- The other children are left where they stand. -/
theorem Siblings.remove (hcs : Siblings s h (c :: cs)) : Siblings (s.remove c) h cs := by
  intro d hd hdead
  rw [parent?_remove hdead]
  exact hcs d (List.mem_cons_of_mem _ hd) (isAlive_remove_iff.1 hdead).1

/-- A node that does not list the removed ones stays as it is. -/
theorem node?_removeAll_of_ne (hcs : Siblings s h cs) (hx : ∀ c ∈ cs, ¬ s.Reaches c x)
    (hne : x ≠ h) : (s.removeAll cs).node? x = s.node? x := by
  induction cs generalizing s with
  | nil => rfl
  | cons c cs ih =>
    obtain ⟨hc, hrest⟩ := List.forall_mem_cons.1 hx
    rw [removeAll_cons, ih hcs.remove fun e he => mt (reaches_remove hc).1 (hrest e he),
      node?_remove_of_not_reaches hc]
    have hparent : s.parent? c ≠ some x := by
      intro hp
      have halive : s.isAlive c = true := by
        obtain ⟨n, hn, -⟩ := Option.bind_eq_some_iff.1 hp
        exact isAlive_iff.2 ⟨n, hn⟩
      exact hne (Option.some.inj (hp.symm.trans (hcs c (by simp) halive)))
    cases s.node? x <;> simp [withoutChild, hparent]

/-- The node itself keeps all but some children. -/
theorem node?_removeAll_self (hh : (s.removeAll cs).isAlive h = true) :
    ∃ n kept, s.node? h = some n ∧ (s.removeAll cs).node? h = some { n with children := kept } ∧
      ∀ d, d ∉ cs → (d ∈ kept ↔ d ∈ n.children) := by
  induction cs generalizing s with
  | nil =>
    obtain ⟨n, hn⟩ := isAlive_iff.1 hh
    exact ⟨n, n.children, hn, hn, fun _ _ => Iff.rfl⟩
  | cons c cs ih =>
    rw [removeAll_cons] at hh ⊢
    obtain ⟨m, kept, hm, hkept, hmem⟩ := ih hh
    have hc : ¬ s.Reaches c h := (isAlive_remove_iff.1 (isAlive_removeAll.1 hh).1).2
    rw [node?_remove_of_not_reaches hc, Option.map_eq_some_iff] at hm
    obtain ⟨n, hn, rfl⟩ := hm
    refine ⟨n, kept, hn, ?_, fun d hd => ?_⟩
    · rw [hkept]
      unfold withoutChild
      split <;> rfl
    · rw [List.mem_cons, not_or] at hd
      rw [hmem d hd.2, mem_children_withoutChild hd.1]

/-- A node that is left after several removals has its parent still. -/
theorem parent?_removeAll (hx : (s.removeAll cs).isAlive x = true) :
    (s.removeAll cs).parent? x = s.parent? x := by
  induction cs generalizing s with
  | nil => rfl
  | cons c cs ih =>
    rw [removeAll_cons] at hx ⊢
    rw [ih hx, parent?_remove (isAlive_removeAll.1 hx).1]

/-- A node that is left owns what it owned. -/
theorem owns_removeAll (hh : (s.removeAll cs).isAlive h = true) :
    (s.removeAll cs).Owns h g ↔ s.Owns h g := by
  obtain ⟨n, kept, hn, hkept, -⟩ := node?_removeAll_self hh
  simp [Owns, hn, hkept, Node.owned?]

/-- The children of a node stand below it. -/
theorem Linked.siblings (hl : Linked s) (h : Handle) : Siblings s h (s.childList h) :=
  fun _ hc halive => (hl.parent?_eq_some_iff halive).2 hc

/-- All children have gone from the list of their parent just if each of them was alive and none
was reached from one in front of it. -/
theorem forall_not_mem_removeAll_iff (hnodup : cs.Nodup) (hcs : Siblings s h cs)
    (hlisted : ∀ c ∈ cs, c ∈ s.childList h) (hh : (s.removeAll cs).isAlive h = true) :
    (∀ c ∈ cs, c ∉ (s.removeAll cs).childList h) ↔
      (∀ c ∈ cs, s.isAlive c = true) ∧ cs.Pairwise fun c d => ¬ s.Reaches c d := by
  induction cs generalizing s with
  | nil => simp
  | cons c cs ih =>
    obtain ⟨hnew, hnodup⟩ := List.nodup_cons.1 hnodup
    rw [removeAll_cons] at hh ⊢
    have hh' : (s.remove c).isAlive h = true := (isAlive_removeAll.1 hh).1
    have hback : ¬ s.Reaches c h := (isAlive_remove_iff.1 hh').2
    -- the list of the parent after the first removal
    obtain ⟨n, hn⟩ := isAlive_iff.1 (isAlive_remove_iff.1 hh').1
    have hchildren : (s.remove c).childList h = (s.withoutChild c h n).children := by
      simp [childList, node?_remove_of_not_reaches hback, hn]
    have hlisted' : ∀ d ∈ cs, d ∈ (s.remove c).childList h := by
      intro d hd
      have hne : d ≠ c := fun heq => hnew (heq ▸ hd)
      rw [hchildren, mem_children_withoutChild hne, ← childList_eq hn]
      exact hlisted d (List.mem_cons_of_mem _ hd)
    -- and after all others
    have hfirst : c ∉ ((s.remove c).removeAll cs).childList h ↔ s.isAlive c = true := by
      obtain ⟨m, kept, hm, hkept, hmem⟩ := node?_removeAll_self hh
      rw [childList_eq hkept]
      show c ∉ kept ↔ _
      rw [hmem c hnew, ← childList_eq hm, hchildren]
      cases halive : s.isAlive c with
      | true => simp [withoutChild, hcs c (by simp) halive]
      | false =>
        have hroot : s.parent? c = none := by simp [parent?, not_isAlive_iff.1 halive]
        have hin : c ∈ n.children := childList_eq hn ▸ hlisted c (by simp)
        simp [withoutChild, hroot, hin]
    rw [List.forall_mem_cons, hfirst, ih hnodup hcs.remove hlisted' hh, List.forall_mem_cons,
      List.pairwise_cons, and_assoc]
    refine and_congr_right fun _ => ?_
    have halive : (∀ d ∈ cs, (s.remove c).isAlive d = true) ↔
        (∀ d ∈ cs, s.isAlive d = true) ∧ ∀ d ∈ cs, ¬ s.Reaches c d := by
      simp only [isAlive_remove_iff]
      exact ⟨fun hall => ⟨fun d hd => (hall d hd).1, fun d hd => (hall d hd).2⟩,
        fun hall d hd => ⟨hall.1 d hd, hall.2 d hd⟩⟩
    rw [halive, and_assoc]
    refine and_congr_right fun _ => and_congr_right fun hapart => ?_
    exact List.Pairwise.iff_of_mem fun _ he => not_congr (reaches_remove (hapart _ he))

-- ---------------------------------------------------------------------------
-- The value
-- ---------------------------------------------------------------------------

/-- Without the value, a node leads to the same nodes through all other ways. -/
theorem reaches_write_none (hg : s.Owns h g) : (s.write h none).Reaches g x ↔ s.Reaches g x := by
  obtain ⟨n, hn, hown⟩ := owns_iff.1 hg
  refine reaches_congr_of_ne fun y z hz => ?_
  unfold Holds write
  rw [node?_modify]
  by_cases hy : y = h
  · subst hy
    have hne : n.owned? ≠ some z := fun heq => hz (Option.some.inj (heq.symm.trans hown))
    simpa [hn, Node.owned?] using fun heq => absurd heq hne
  · simp [hy]

/-- A node without its children and its value, while what it owned is still there. -/
def hollow (s : Store) (h : Handle) : Store := (s.removeAll (s.childList h)).write h none

/-- The children of a node are removed, and its value with what it owns. -/
def strip (s : Store) (h : Handle) : Store := (s.removeAll (s.childList h)).assign h none

theorem Evolves.strip (s : Store) (h : Handle) : Evolves s (s.strip h) := by
  have hall : ∀ (cs : List Handle) (s : Store), Evolves s (s.removeAll cs) := by
    intro cs
    induction cs with
    | nil => exact .refl
    | cons c cs ih => exact fun s => (Evolves.remove s c).trans (ih _)
  exact (hall _ s).trans (.assign _ h none)

/-- What is lost with the children and the value of a node is all its own: its children are there and
none is reached from one in front of it; and what it owns, unless that goes with a child, does not
lead back to it and has no parent outside. -/
structure Contained (s : Store) (h : Handle) : Prop where
  live : ∀ c ∈ s.childList h, s.isAlive c = true
  apart : (s.childList h).Pairwise fun c d => ¬ s.Reaches c d
  owned : ∀ g, s.Owns h g → s.isAlive g = true → (∀ c ∈ s.childList h, ¬ s.Reaches c g) →
    ¬ s.Reaches g h ∧ ∀ p, s.parent? g = some p → s.Reaches h p

/-- A node has no value and no children any more, those it had are gone, and no node outside has
changed. -/
structure Emptied (s : Store) (h : Handle) (t : Store) : Prop where
  self : ∃ n, s.node? h = some n ∧ t.node? h = some { n with value := none, children := [] }
  gone : ∀ c ∈ s.childList h, t.isAlive c = false
  rest : ∀ x, s.isAlive x = true → ¬ s.Reaches h x → t.node? x = s.node? x

/-- A node is hollowed by freeing what its children lead to, and nobody else. -/
theorem isAlive_hollow : (s.hollow h).isAlive x = true ↔
    s.isAlive x = true ∧ ∀ c ∈ s.childList h, ¬ s.Reaches c x := by
  rw [← isAlive_removeAll, hollow, write]
  exact (isAlive_modify _ _ _ _).symm ▸ Iff.rfl

/-- A node that has been removed is not listed by the one that it was a child of. -/
theorem not_mem_childList_remove (hp : s.parent? c = some x) :
    c ∉ (s.remove c).childList x := by
  unfold childList
  by_cases hx : s.Reaches c x
  · simp [node?_remove_of_reaches hx]
  · rw [node?_remove_of_not_reaches hx]
    cases s.node? x <;> simp [withoutChild, hp]

/-- A node that is left has its parent still. -/
theorem parent?_hollow (hx : (s.hollow h).isAlive x = true) :
    (s.hollow h).parent? x = s.parent? x := by
  rw [← parent?_removeAll (isAlive_removeAll.2 (isAlive_hollow.1 hx))]
  unfold parent? hollow write
  rw [node?_modify]
  by_cases heq : x = h
  · subst heq
    cases hn : (s.removeAll (s.childList x)).node? x <;> simp [hn]
  · simp [heq]

/-- What is owned leads where it did, except to what has gone with the children. -/
theorem reaches_hollow (hh : (s.hollow h).isAlive h = true) (hg : s.Owns h g)
    (hx : ∀ c ∈ s.childList h, ¬ s.Reaches c x) : (s.hollow h).Reaches g x ↔ s.Reaches g x := by
  have hown := (owns_removeAll (isAlive_removeAll.2 (isAlive_hollow.1 hh))).2 hg
  rw [hollow, reaches_write_none hown, reaches_removeAll hx]

/-- Nodes that the node does not lead to are as before. -/
theorem Linked.node?_hollow (hl : Linked s) (hx : ¬ s.Reaches h x) :
    (s.hollow h).node? x = s.node? x := by
  have hne : x ≠ h := fun heq => hx (heq ▸ .refl _ _)
  rw [hollow, Store.write, node?_modify_of_ne _ hne]
  refine node?_removeAll_of_ne (hl.siblings h) (fun c hc hreach => hx ?_) hne
  exact .head (holds_iff_childList.2 (Or.inl hc)) hreach

/-- The node itself has kept the children that it should have lost. -/
theorem Linked.node?_hollow_self (hl : Linked s) (hh : (s.hollow h).isAlive h = true) :
    ∃ n kept, s.node? h = some n ∧
      (s.hollow h).node? h = some { n with value := none, children := kept } ∧
      (kept = [] ↔ (∀ c ∈ s.childList h, s.isAlive c = true) ∧
        (s.childList h).Pairwise fun c d => ¬ s.Reaches c d) := by
  have halive := isAlive_removeAll.2 (isAlive_hollow.1 hh)
  obtain ⟨n, kept, hn, hkept, hmem⟩ := node?_removeAll_self halive
  refine ⟨n, kept, hn, by simp [hollow, Store.write, hkept], ?_⟩
  rw [← forall_not_mem_removeAll_iff (hl.nodup_childList h) (hl.siblings h) (fun _ hc => hc) halive,
    childList_eq hkept, List.eq_nil_iff_forall_not_mem]
  refine ⟨fun hnil c _ => hnil c, fun hall c hc => ?_⟩
  by_cases hold : c ∈ s.childList h
  · exact hall c hold hc
  · exact hold (by rwa [childList_eq hn, ← hmem c hold])

/-- What is owned goes last, if it is still there. -/
theorem strip_cases (hh : (s.hollow h).isAlive h = true) :
    s.strip h = s.hollow h ∧ (∀ g, s.Owns h g → (s.hollow h).isAlive g = false) ∨
      ∃ g, s.Owns h g ∧ (s.hollow h).isAlive g = true ∧ s.strip h = (s.hollow h).remove g := by
  have hown : ∀ g, ((s.removeAll (s.childList h)).node? h).bind Node.owned? = some g ↔ s.Owns h g :=
    fun g => owns_removeAll (isAlive_removeAll.2 (isAlive_hollow.1 hh))
  rcases (s.removeAll (s.childList h)).assign_cases h none with ⟨heq, hsame⟩ | ⟨g, hg, -, heq⟩
  · exact Or.inl ⟨heq, fun g hg => absurd (hsame g ((hown g).2 hg)) nofun⟩
  · cases halive : (s.hollow h).isAlive g with
    | true => exact Or.inr ⟨g, (hown g).1 hg, halive, heq⟩
    | false =>
      refine Or.inl ⟨heq.trans ?_, fun g' hg' => ?_⟩
      · exact if_neg (by simpa [hollow] using halive)
      · obtain rfl : g = g' := Option.some.inj (((hown g).1 hg).symm.trans hg')
        exact halive

theorem mem_childList_of_remove (hd : d ∈ (s.remove c).childList x) : d ∈ s.childList x := by
  unfold childList at hd ⊢
  by_cases hx : s.Reaches c x
  · simp [node?_remove_of_reaches hx] at hd
  · rw [node?_remove_of_not_reaches hx] at hd
    cases hn : s.node? x with
    | none => simp [hn] at hd
    | some n =>
      simp only [hn, Option.map_some, Option.getD_some, withoutChild] at hd ⊢
      split at hd
      · exact (List.mem_filter.1 hd).1
      · exact hd

/-- What is still listed has been listed before. -/
theorem mem_childList_of_strip (hd : d ∈ (s.strip h).childList h) : d ∈ s.childList h := by
  have hall : ∀ (cs : List Handle) (s : Store), d ∈ (s.removeAll cs).childList h →
      d ∈ s.childList h := by
    intro cs
    induction cs with
    | nil => exact fun _ hd => hd
    | cons c cs ih => exact fun s hd => mem_childList_of_remove (ih _ hd)
  have hwrite : ∀ s : Store, d ∈ (s.write h none).childList h → d ∈ s.childList h := by
    intro s hd
    rwa [write, childList_modify fun _ _ _ => rfl] at hd
  rw [strip] at hd
  rcases (s.removeAll (s.childList h)).assign_cases h none with ⟨heq, -⟩ | ⟨g, -, -, heq⟩
  · exact hall _ s (hwrite _ (heq ▸ hd))
  · exact hall _ s (hwrite _ (mem_childList_of_remove (heq ▸ hd)))

/-- A child that has been removed is gone. -/
theorem not_isAlive_strip (hc : c ∈ s.childList h) : (s.strip h).isAlive c = false := by
  have hgone : (s.hollow h).isAlive c = false := by
    rw [Bool.eq_false_iff, Ne, isAlive_hollow]
    exact fun halive => halive.2 c hc (.refl _ _)
  rcases (s.removeAll (s.childList h)).assign_cases h none with ⟨heq, -⟩ | ⟨g, -, -, heq⟩
  · exact (congrArg (isAlive · c) heq).trans hgone
  · refine (congrArg (isAlive · c) heq).trans ?_
    rw [Bool.eq_false_iff, Ne, isAlive_remove_iff]
    exact fun halive => by simp [hollow] at hgone; simp [hgone] at halive

/-- Nothing goes that the node does not lead to. -/
theorem isAlive_strip (hh : (s.hollow h).isAlive h = true) (halive : s.isAlive x = true)
    (hx : ¬ s.Reaches h x) : (s.strip h).isAlive x = true := by
  have hfar : ∀ c ∈ s.childList h, ¬ s.Reaches c x := fun c hc hreach =>
    hx (.head (holds_iff_childList.2 (Or.inl hc)) hreach)
  have hleft := isAlive_hollow.2 ⟨halive, hfar⟩
  rcases strip_cases hh with ⟨heq, -⟩ | ⟨g, hg, -, heq⟩
  · rw [heq, hleft]
  · rw [heq, isAlive_remove_iff]
    exact ⟨hleft, fun hreach => hx (.head hg.holds ((reaches_hollow hh hg hfar).1 hreach))⟩

/-- Where nothing is owned that is still there, the children alone count. -/
theorem emptied_iff_of_hollow (hl : Linked s) (hh : (s.hollow h).isAlive h = true)
    (heq : s.strip h = s.hollow h) (hnone : ∀ g, s.Owns h g → (s.hollow h).isAlive g = false) :
    Emptied s h (s.strip h) ↔ Contained s h := by
  obtain ⟨n, kept, hn, hkept, hnil⟩ := hl.node?_hollow_self hh
  constructor
  · rintro ⟨⟨m, hm, hempty⟩, -, -⟩
    obtain rfl : n = m := Option.some.inj (hn.symm.trans hm)
    rw [heq, hkept, Option.some.injEq, Node.mk.injEq] at hempty
    obtain ⟨hlive, hapart⟩ := hnil.1 hempty.2.2.2
    refine ⟨hlive, hapart, fun g hg halive hfar => ?_⟩
    exact absurd (hnone g hg) (by simp [isAlive_hollow.2 ⟨halive, hfar⟩])
  · intro hcontained
    obtain rfl := hnil.2 ⟨hcontained.live, hcontained.apart⟩
    exact ⟨⟨n, hn, heq ▸ hkept⟩, fun c => not_isAlive_strip,
      fun x _ hx => heq ▸ hl.node?_hollow hx⟩

/-- What is owned and still there must neither lead back nor have a parent outside. -/
theorem emptied_iff_of_remove (hl : Linked s) (hh : (s.hollow h).isAlive h = true)
    (hg : s.Owns h g) (halive : (s.hollow h).isAlive g = true)
    (heq : s.strip h = (s.hollow h).remove g) : Emptied s h (s.strip h) ↔ Contained s h := by
  obtain ⟨n, kept, hn, hkept, hnil⟩ := hl.node?_hollow_self hh
  obtain ⟨hgalive, hgfar⟩ := isAlive_hollow.1 halive
  have hback : (s.hollow h).Reaches g h ↔ s.Reaches g h :=
    reaches_hollow hh hg (isAlive_hollow.1 hh).2
  have hparent : (s.hollow h).parent? g = s.parent? g := parent?_hollow halive
  constructor
  · rintro ⟨⟨m, hm, hempty⟩, -, hrest⟩
    obtain rfl : n = m := Option.some.inj (hn.symm.trans hm)
    rw [heq] at hempty hrest
    have hnot : ¬ s.Reaches g h := by
      intro hbad
      rw [node?_remove_of_reaches (hback.2 hbad)] at hempty
      cases hempty
    rw [node?_remove_of_not_reaches (mt hback.1 hnot), hkept, Option.map_some] at hempty
    -- the owned node is no child: it would have gone with them
    have hnp : (s.hollow h).parent? g ≠ some h := fun hp =>
      hgfar g ((hl.parent?_eq_some_iff hgalive).1 (hparent ▸ hp)) (.refl _ _)
    rw [withoutChild, if_neg hnp, Option.some.injEq, Node.mk.injEq] at hempty
    obtain ⟨hlive, hapart⟩ := hnil.1 hempty.2.2.2
    refine ⟨hlive, hapart, fun g' hg' _ _ => ?_⟩
    obtain rfl : g = g' := Option.some.inj (hg.symm.trans hg')
    refine ⟨hnot, fun p hp => ?_⟩
    by_contra hout
    refine not_mem_childList_remove (hparent.trans hp) ?_
    rw [childList, hrest p (hl.isAlive_parent hp) hout]
    exact (hl.parent?_eq_some_iff hgalive).1 hp
  · intro hcontained
    obtain rfl := hnil.2 ⟨hcontained.live, hcontained.apart⟩
    obtain ⟨hnot, hup⟩ := hcontained.owned g hg hgalive hgfar
    refine ⟨⟨n, hn, ?_⟩, fun c => not_isAlive_strip, fun x hx hout => ?_⟩
    · rw [heq, node?_remove_of_not_reaches (mt hback.1 hnot), hkept, Option.map_some]
      unfold withoutChild
      split <;> rfl
    · have hfar : ∀ c ∈ s.childList h, ¬ s.Reaches c x := fun c hc hreach =>
        hout (.head (holds_iff_childList.2 (Or.inl hc)) hreach)
      have hgx : ¬ (s.hollow h).Reaches g x := fun hreach =>
        hout (.head hg.holds ((reaches_hollow hh hg hfar).1 hreach))
      rw [heq, node?_remove_of_not_reaches hgx, hl.node?_hollow hout]
      have hnp : (s.hollow h).parent? g ≠ some x := fun hp => hout (hup x (hparent ▸ hp))
      cases s.node? x <;> simp [withoutChild, hnp]

/-- A node is empty afterwards, and no other has changed, just if what is lost is all its own. -/
theorem emptied_iff (hl : Linked s) (hh : (s.hollow h).isAlive h = true) :
    Emptied s h (s.strip h) ↔ Contained s h := by
  rcases strip_cases hh with ⟨heq, hnone⟩ | ⟨g, hg, halive, heq⟩
  · exact emptied_iff_of_hollow hl hh heq hnone
  · exact emptied_iff_of_remove hl hh hg halive heq

-- ---------------------------------------------------------------------------
-- Gone for good
-- ---------------------------------------------------------------------------

/-- A handle is alive, or its slot is empty and its next occupant is of another generation. -/
def Settled (s : Store) (c : Handle) : Prop :=
  s.isAlive c = true ∨
    s.isOccupied c.index = false ∧ UInt32.ofNat (s.freedAt c.index) ≠ c.generation

theorem isOccupied_modify (s : Store) (x : Handle) (f : Node → Node) (i : Nat) :
    (s.modify x f).isOccupied i = s.isOccupied i := by
  cases hn : s.node? x with
  | none => rw [modify_of_node?_eq_none hn]
  | some n =>
    rw [modify_of_node? hn, isOccupied_setIfInBounds]
    split
    next heq =>
      have hoccupied := (isAlive_iff_isOccupied.1 (isAlive_iff.2 ⟨n, hn⟩)).1
      rw [← heq.1, hoccupied]
      rfl
    next => rfl

namespace Settled

theorem modify (hc : Settled s c) (x : Handle) (f : Node → Node) : Settled (s.modify x f) c := by
  unfold Settled
  rw [isAlive_modify, isOccupied_modify, freedAt_modify]
  exact hc

theorem release {n : Node} (hr : s.release x = some (n, t)) (hc : Settled s c) : Settled t c := by
  have hview := node?_release hr
  obtain ⟨hn, rfl⟩ := release_eq_some hr
  have hx : s.isAlive x = true := isAlive_iff.2 ⟨n, hn⟩
  have hlt := index_lt_size hn
  by_cases heq : c = x
  -- the freed node itself: its slot has the next generation now
  · subst heq
    refine Or.inr ⟨by rw [isOccupied_setIfInBounds]; simp [hlt], ?_⟩
    rw [freedAt_setIfInBounds, if_pos ⟨rfl, hlt⟩, ← (isAlive_iff_isOccupied.1 hx).2]
    intro hsame
    have hnat := congrArg UInt32.toNat hsame
    simp only [UInt32.toNat_ofNat'] at hnat
    omega
  · rcases hc with halive | ⟨hempty, hgen⟩
    · refine Or.inl ?_
      rwa [isAlive, hview, if_neg heq]
    -- a slot that was empty before is not the one that is emptied
    · have hindex : x.index ≠ c.index := by
        intro hsame
        rw [← hsame, (isAlive_iff_isOccupied.1 hx).1] at hempty
        cases hempty
      refine Or.inr ?_
      rw [isOccupied_setIfInBounds, freedAt_setIfInBounds, if_neg fun h => hindex h.1,
        if_neg fun h => hindex h.1]
      exact ⟨hempty, hgen⟩

theorem releaseAll {stack : List Handle} (hc : Settled s c) : Settled (s.releaseAll stack) c := by
  fun_induction Store.releaseAll s stack with
  | case1 => exact hc
  | case2 _ _ _ _ ih => exact ih hc
  | case3 _ _ _ _ _ hr ih => exact ih (hc.release hr)

theorem remove (hc : Settled s c) (x : Handle) : Settled (s.remove x) c := by
  unfold Store.remove Store.detach
  split
  · split
    · exact hc.releaseAll
    · exact ((hc.modify _ _).modify _ _).releaseAll
  · exact hc

theorem strip (hc : Settled s c) (h : Handle) : Settled (s.strip h) c := by
  have hall : ∀ cs : List Handle, ∀ s : Store, Settled s c → Settled (s.removeAll cs) c := by
    intro cs
    induction cs with
    | nil => exact fun _ hc => hc
    | cons d cs ih => exact fun s hc => ih _ (hc.remove d)
  have hhollow : Settled (s.hollow h) c := (hall _ _ hc).modify _ _
  rcases (s.removeAll (s.childList h)).assign_cases h none with ⟨heq, -⟩ | ⟨g, -, -, heq⟩
  · rw [Store.strip, heq]
    exact hhollow
  · rw [Store.strip, heq]
    exact hhollow.remove g

end Settled

/-- A child that has been removed stays gone as long as no slot is freed. -/
theorem not_isAlive_of_strip (hc : c ∈ s.childList h) (halive : s.isAlive c = true)
    (hfreed : ∀ i, t.freedAt i = (s.strip h).freedAt i) : t.isAlive c = false := by
  rcases Settled.strip (Or.inl halive) h with hleft | ⟨-, hgen⟩
  · rw [not_isAlive_strip hc] at hleft
    cases hleft
  · rw [Bool.eq_false_iff, Ne, isAlive_iff_isOccupied, hfreed]
    exact fun hback => hgen hback.2

-- ---------------------------------------------------------------------------
-- Stores in order
-- ---------------------------------------------------------------------------

/-- In a store that is in order, all that is lost is the node's own. -/
theorem Disciplined.contained (hd : Disciplined s) (h : Handle) : Contained s h where
  live _ hc := hd.live.of_mem_childList hc
  apart := by
    refine (hd.linked.nodup_childList h).imp_of_mem fun {c d} hc hd' hne hreach => ?_
    rcases hd.reaches_holder (hd.live.of_mem_childList hd')
      (holds_iff_childList.2 (Or.inl hd')) hreach with heq | hback
    · exact hne heq
    · exact hd.not_reaches_holder (holds_iff_childList.2 (Or.inl hc)) hback
  owned g hg halive _ := by
    refine ⟨hd.not_reaches_holder hg.holds, fun p hp => ?_⟩
    rw [hd.apart hg halive] at hp
    cases hp

end TreeScript.Store
