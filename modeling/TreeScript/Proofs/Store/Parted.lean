import TreeScript.Failure
import TreeScript.Proofs.Outcome
import TreeScript.Proofs.Store.Discipline
import TreeScript.Proofs.Store.Siblings
import TreeScript.Proofs.Store.View

/-!
# TreeScript — children that are taken out and put back

The children of a node may be taken out one after the other and put back in the same order.
In between the nodes are what they were, but for the parents of the children that are out and
the list of the children that are left; at the end all nodes are as they were.

* `Parted` — some children are out, all else is as it was;
* `Parted.detach`, `Parted.clear`, `Parted.linkLast` — one step out, and one back;
* `Parted.node?_eq` — all children are back;
* `Parted.holds`, `Parted.seen_eq` — who holds what in between, and what is seen;
* `Parted.describe` — what could be shown can still be shown.
-/

namespace TreeScript.Store

variable {s t : Store} {h c : Handle} {kept : List Handle}

theorem size_modify (s : Store) (h : Handle) (f : Node → Node) :
    (s.modify h f).slots.size = s.slots.size := by
  unfold modify
  split
  next => simp
  next => rfl

/-- A store where the children of a node that are not in a list have been taken out. -/
structure Parted (s : Store) (h : Handle) (kept : List Handle) (t : Store) : Prop where
  node? (x : Handle) : t.node? x = (s.node? x).map fun n =>
    { n with
      parent := if n.parent = some h ∧ x ∉ kept then none else n.parent
      children := if x = h then kept else n.children }
  size : t.slots.size = s.slots.size

namespace Parted

theorem isAlive (ht : Parted s h kept t) (x : Handle) : t.isAlive x = s.isAlive x := by
  simp [Store.isAlive, ht.node?]

/-- Only the children that have been taken out have lost their parent. -/
theorem parent?_eq (ht : Parted s h kept t) (x : Handle) :
    t.parent? x = if s.parent? x = some h ∧ x ∉ kept then none else s.parent? x := by
  unfold Store.parent?
  rw [ht.node?]
  cases s.node? x <;> rfl

/-- The node has the children that are kept. -/
theorem childList_self (ht : Parted s h kept t) (hh : s.isAlive h = true) :
    t.childList h = kept := by
  obtain ⟨n, hn⟩ := isAlive_iff.1 hh
  simp [childList, ht.node?, hn]

/-- Nothing has been taken out yet. -/
theorem start (hs : Coherent s) : Parted s h (s.childList h) s where
  node? x := by
    cases hn : s.node? x with
    | none => rfl
    | some n =>
      have hparent : ¬ (n.parent = some h ∧ x ∉ s.childList h) := fun hout =>
        hout.2 (hs.lists (by simp [Store.parent?, hn, hout.1]))
      simp only [Option.map_some, if_neg hparent]
      split
      next heq => simp [← heq, childList, hn]
      next => rfl
  size := rfl

/-- The next child is taken out. -/
theorem detach (ht : Parted s h (c :: kept) t) (hc : s.parent? c = some h) (hself : c ≠ h)
    (hnodup : (c :: kept).Nodup) : Parted s h kept (t.detach c) := by
  have hout : c ∉ kept := (List.nodup_cons.1 hnodup).1
  have hkept : (c :: kept).filter (· != c) = kept := by
    simpa using fun x hx => (ne_of_mem_of_not_mem hx hout)
  have hparent : t.parent? c = some h := by simp [ht.parent?_eq, hc]
  rw [Store.detach, hparent]
  refine ⟨fun x => ?_, by rw [size_modify, size_modify, ht.size]⟩
  simp only [node?_modify, ht.node?]
  by_cases hxc : x = c
  · subst hxc
    cases hn : s.node? x with
    | none => simp [Store.parent?, hn] at hc
    | some n =>
      have hp : n.parent = some h := by simpa [Store.parent?, hn] using hc
      simp [hself, hp, hout]
  · by_cases hxh : x = h
    · subst hxh
      cases s.node? x <;> simp [hxc, hkept]
    · cases s.node? x <;> simp [hxc, hxh]

/-- Clearing a node whose children are all out changes nothing. -/
theorem clear (ht : Parted s h [] t) (hh : s.isAlive h = true) :
    ∃ t', t.clear h = .ok t' ∧ Parted s h [] t' := by
  obtain ⟨n, hn⟩ := isAlive_iff.1 hh
  refine ⟨t.modify h fun n => { n with children := [] }, ?_, fun x => ?_, ?_⟩
  · simp [Store.clear, Store.children, Store.node, ht.node?, hn, Except.map, removeEach, bind,
      Except.bind]
  · rw [node?_modify, ht.node?, ht.node?]
    split
    next heq =>
      subst heq
      cases s.node? x <;> simp
    next => rfl
  · rw [size_modify, ht.size]

/-- The next child is put back. -/
theorem linkLast (ht : Parted s h kept t) (hc : s.parent? c = some h) (hself : c ≠ h)
    (hh : s.isAlive h = true) : Parted s h (kept ++ [c]) (t.linkLast h c) := by
  refine ⟨fun x => ?_, by rw [Store.linkLast, Store.link, size_modify, size_modify, ht.size]⟩
  rw [Store.linkLast, ht.childList_self hh, node?_link hself.symm, ht.node?]
  cases hn : s.node? x with
  | none => rfl
  | some n =>
    by_cases hxc : x = c
    · have hp : n.parent = some h := by simpa [Store.parent?, ← hxc, hn] using hc
      simp [hxc, hself, hp]
    · by_cases hxh : x = h
      · simp [hxh, hself.symm]
      · simp [hxc, hxh]

/-- All children have been put back. -/
theorem node?_eq (ht : Parted s h (s.childList h) t) (hs : Coherent s) (x : Handle) :
    t.node? x = s.node? x := by
  rw [ht.node?, ← (start hs).node?]

/-- A child that is out may be put back: the node is not below it. -/
theorem not_wouldCycle (ht : Parted s h kept t) (hl : Linked s) (hc : s.parent? c = some h) :
    t.wouldCycle h c = false := by
  have hup : ∀ a b, t.ChildOf a b → s.ChildOf a b := by
    intro a b hab
    unfold ChildOf at hab ⊢
    rw [ht.parent?_eq] at hab
    split at hab
    next => simp at hab
    next => exact hab
  rw [wouldCycle, Bool.or_eq_false_iff]
  refine ⟨beq_false_of_ne (hl.parent_ne hc).symm, ?_⟩
  rw [isAncestor, ← Bool.not_eq_true, List.contains_iff_mem]
  intro hmem
  exact hl.acyclic c (.head hc (Relation.TransGen.mono hup _ _
    (transGen_of_mem_ancestorsWithin hmem)))

/-- A child that has been taken out goes back behind those that are kept. -/
theorem moveBelow (ht : Parted s h kept t) (hc : s.parent? c = some h) (hout : c ∉ kept)
    (hh : s.isAlive h = true) : t.moveBelow h kept.length c = .ok (t.linkLast h c) := by
  have hparent : t.parent? c = none := by simp [ht.parent?_eq, hc, hout]
  have hdetach : t.detach c = t := by rw [Store.detach, hparent]
  have hindex : t.targetIndex h kept.length c = kept.length := by simp [targetIndex, hparent]
  have halive : t.isAlive h = true ∧ t.isAlive c = true := by
    rw [ht.isAlive, ht.isAlive]
    exact ⟨hh, isAlive_of_parent? hc⟩
  rw [Store.moveBelow, hdetach, hindex, if_pos halive, Store.linkLast, ht.childList_self hh,
    Nat.min_self]

-- ---------------------------------------------------------------------------
-- What is held
-- ---------------------------------------------------------------------------

/-- Nobody lists a node that was not listed there before. -/
theorem mem_childList (ht : Parted s h kept t) (hkept : ∀ c ∈ kept, c ∈ s.childList h) {p : Handle}
    (hc : c ∈ t.childList p) : c ∈ s.childList p := by
  unfold childList at hc ⊢
  rw [ht.node?] at hc
  cases hp : s.node? p with
  | none => simp [hp] at hc
  | some m =>
    simp only [hp, Option.map_some, Option.getD_some] at hc ⊢
    split at hc
    next heq =>
      have hc := hkept c hc
      rwa [childList, ← heq, hp] at hc
    next => exact hc

/-- Nobody holds a node that it did not hold before. -/
theorem holds (ht : Parted s h kept t) (hkept : ∀ c ∈ kept, c ∈ s.childList h) {a b : Handle}
    (hab : t.Holds a b) : s.Holds a b := by
  refine holds_iff_childList.2 ((holds_iff_childList.1 hab).imp (ht.mem_childList hkept) ?_)
  intro hown
  obtain ⟨m, hm, hown⟩ := owns_iff.1 hown
  rw [ht.node?] at hm
  obtain ⟨n, hn, rfl⟩ := Option.map_eq_some_iff.1 hm
  exact owns_iff.2 ⟨n, hn, hown⟩

/-- What is seen of the other nodes is what it was. -/
theorem seen_eq (ht : Parted s h kept t) {x : Handle} (hx : x ≠ h) : t.seen x = s.seen x := by
  rw [seen, seen, ht.node?]
  cases s.node? x with
  | none => rfl
  | some n => simp [hx]

-- ---------------------------------------------------------------------------
-- Showing a node
-- ---------------------------------------------------------------------------

/-- A node that has lost children shows what it can still show. -/
theorem viewWithin (ht : Parted s h kept t) (hkept : ∀ c ∈ kept, c ∈ s.childList h) {fuel : Nat}
    {x : Handle} (hx : ∃ d, s.viewWithin fuel x = .ok d) : ∃ d, t.viewWithin fuel x = .ok d := by
  induction fuel generalizing x with
  | zero =>
    obtain ⟨d, hd⟩ := hx
    simp [Store.viewWithin] at hd
  | succ fuel ih =>
    obtain ⟨d, hd⟩ := hx
    -- a child in the parted store was one before, so it can be read
    have hall : ∀ {p}, (∃ ds, (s.childList p).mapM (s.viewWithin fuel) = .ok ds) →
        ∃ ds, (t.childList p).mapM (t.viewWithin fuel) = .ok ds := fun hok =>
      exists_mapM_eq_ok_iff.2 fun b hb =>
        ih (exists_mapM_eq_ok_iff.1 hok b (ht.mem_childList hkept hb))
    rw [Store.viewWithin] at hd ⊢
    obtain ⟨n, hn, hd⟩ := bind_eq_ok_iff.1 hd
    have hn : s.node? x = some n := by
      unfold Store.node at hn
      split at hn
      next m hm => rw [hm, Except.ok.inj hn]
      next => simp at hn
    have hnode : t.node? x = some { n with
        parent := if n.parent = some h ∧ x ∉ kept then none else n.parent
        children := if x = h then kept else n.children } := by simp [ht.node?, hn]
    -- at the node itself there are only fewer children
    have hbelow : (∃ ds, n.children.mapM (s.viewWithin fuel) = .ok ds) →
        ∃ ds, (if x = h then kept else n.children).mapM (t.viewWithin fuel) = .ok ds := by
      simpa only [childList_eq hn, childList_eq hnode] using @hall x
    split at hd
    next target htarget =>
      obtain ⟨nested, hnested, hd⟩ := bind_eq_ok_iff.1 hd
      obtain ⟨below, hchildren, -⟩ := bind_eq_ok_iff.1 hd
      obtain ⟨nested', hnested'⟩ := hall ⟨nested, hnested⟩
      obtain ⟨below', hbelow'⟩ := hbelow ⟨below, hchildren⟩
      simp [Store.node, hnode, htarget, hnested', hbelow', bind, Except.bind, pure, Except.pure]
    next htarget =>
      obtain ⟨below, hchildren, -⟩ := bind_eq_ok_iff.1 hd
      obtain ⟨below', hbelow'⟩ := hbelow ⟨below, hchildren⟩
      simp [Store.node, hnode, htarget, hbelow', bind, Except.bind, pure, Except.pure]

/-- A node that could be described can be still. -/
theorem describe (ht : Parted s h kept t) (hkept : ∀ c ∈ kept, c ∈ s.childList h) {x : Handle}
    (hx : ∃ context, s.describe x = .ok context) : ∃ context, t.describe x = .ok context := by
  obtain ⟨context, hx⟩ := hx
  unfold Store.describe at hx ⊢
  rw [ht.node?]
  cases hn : s.node? x with
  | none => exact ⟨_, rfl⟩
  | some n =>
    rw [hn] at hx
    have hview : ∃ d, s.view x = .ok d := by
      simp only [Store.render] at hx
      cases hd : s.view x with
      | ok d => exact ⟨d, rfl⟩
      | error e => simp [hd, Except.map] at hx
    obtain ⟨d, hd⟩ := ht.viewWithin hkept hview
    have hd : t.view x = .ok d := by rw [Store.view, ht.size, hd]
    simp [Store.render, hd, Except.map]

end Parted

end TreeScript.Store
