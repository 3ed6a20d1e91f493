import TreeScript.Proofs.Store.Adopt

/-!
# TreeScript — a raised signal

The root of a tree is the one node above all others that has no parent. A node that is
left under the node it stood below has the same root as before, unless something above it
has been taken out of its place. A signal is raised at a root if its sentinel stands in
front of the root's children. Freeing what is neither the sentinel nor above the root
leaves it there.

* `Linked.root?_eq_some_iff`, `Since.root?_eq` — roots;
* `Raised` — a signal is there;
* `Raised.remove`, `Raised.clear`, `Raised.moveBelow`, `Raised.stripReturn` — it stays;
* `Raised.clearSignal`, `Raised.stripReturn_root` — its sentinel is freed;
* `FreedOnly`, `Disciplined.freedOnly_remove` — nothing else is freed.
-/

namespace TreeScript

/-- A signal is known by the name of its sentinel. -/
theorem Control.ofName_sentinel {c : Control} {name : String} (hc : c.sentinel? = some name) :
    Control.ofName name = c := by
  cases c with
  | none => simp [Control.sentinel?] at hc
  | «return» =>
    obtain rfl := Option.some.inj hc
    rfl
  | «break» =>
    obtain rfl := Option.some.inj hc
    rfl
  | «continue» =>
    obtain rfl := Option.some.inj hc
    rfl

theorem Control.isActive_of_sentinel {c : Control} {name : String}
    (hc : c.sentinel? = some name) : c.isActive = true := by
  cases c with
  | none => simp [Control.sentinel?] at hc
  | _ => rfl

namespace Store

variable {s t t' : Store} {T : Set Handle}

-- ---------------------------------------------------------------------------
-- Roots
-- ---------------------------------------------------------------------------

/-- A way up that ends before its bound ends at a node without parent. -/
theorem parent?_last_ancestorsWithin {fuel : Nat} {h : Handle}
    (hlt : (t.ancestorsWithin fuel h).length < fuel) :
    t.parent? ((t.ancestorsWithin fuel h).getLast?.getD h) = none := by
  induction fuel generalizing h with
  | zero => simp at hlt
  | succ fuel ih =>
    unfold ancestorsWithin at hlt ⊢
    split at hlt
    next hnone => exact hnone
    next p hp =>
      have hlast := ih (h := p) (by simpa using hlt)
      simpa [hp, List.getLast?_cons] using hlast

/-- The way up from a live node is shorter than its bound. -/
theorem Linked.length_ancestors_lt (hl : Linked t) {h : Handle} (hh : t.isAlive h = true) :
    (t.ancestors h).length < t.slots.size := by
  have halive : ∀ x ∈ h :: t.ancestors h, t.isAlive x = true := by
    intro x hx
    rcases List.mem_cons.1 hx with rfl | hx
    · exact hh
    · obtain ⟨q, -, hq⟩ := Relation.TransGen.tail'_iff.1 (transGen_of_mem_ancestorsWithin hx)
      exact hl.isAlive_parent hq
  have hle := length_le_size_of_nodup (hl.nodup_ancestorsWithin t.slots.size h) halive
  exact hle

/-- The root of a live node stands above it and has no parent. -/
theorem Linked.root?_eq_some_iff (hl : Linked t) {h r : Handle} :
    t.root? h = some r ↔
      t.isAlive h = true ∧ Relation.ReflTransGen t.ChildOf h r ∧ t.parent? r = none := by
  have hparent : ∀ {r}, t.root? h = some r → t.parent? r = none := by
    intro r hr
    have halive := (root?_eq_some hr).1
    rw [root?, if_pos halive] at hr
    obtain rfl := Option.some.inj hr
    exact parent?_last_ancestorsWithin (hl.length_ancestors_lt halive)
  constructor
  · intro hr
    exact ⟨(root?_eq_some hr).1, (root?_eq_some hr).2, hparent hr⟩
  · rintro ⟨halive, hup, hnone⟩
    obtain ⟨r', hr'⟩ : ∃ r', t.root? h = some r' := by simp [root?, halive]
    -- both ends of the way up have no parent
    have hend : ∀ {x y}, Relation.ReflTransGen t.ChildOf x y → t.parent? x = none → x = y := by
      intro x y hxy hx
      rcases Relation.ReflTransGen.cases_head hxy with heq | ⟨p, hp, -⟩
      · exact heq
      · simp [ChildOf, hx] at hp
    have hone : Relator.RightUnique t.ChildOf := fun x p q hp hq =>
      Option.some.inj (hp.symm.trans hq)
    rcases hup.total_of_right_unique hone (root?_eq_some hr').2 with hway | hway
    · rw [hr', hend hway hnone]
    · rw [hr', hend hway (hparent hr')]

/-- A child has the root of its parent. -/
theorem Linked.root?_of_childOf (hl : Linked t) {x p r : Handle} (hx : t.ChildOf x p)
    (hp : t.root? p = some r) : t.root? x = some r := by
  obtain ⟨-, hup, hnone⟩ := hl.root?_eq_some_iff.1 hp
  obtain ⟨n, hn, -⟩ := childOf_iff.1 hx
  exact hl.root?_eq_some_iff.2 ⟨isAlive_iff.2 ⟨n, hn⟩, .head hx hup, hnone⟩

/-- Whatever nobody holds is its own root. -/
theorem Top.root? (hl : Linked t) {x : Handle} (hx : t.Top x) : t.root? x = some x :=
  hl.root?_eq_some_iff.2 ⟨hx.1, .refl, hx.parent? hl⟩

/-- Of the tops of a store, none has been taken out of a place above a node. -/
def InPlaceSince (s : Store) (T : Set Handle) (x : Handle) : Prop :=
  ∀ y ∈ T, s.isAlive y = true → s.Reaches y x → s.Top y

/-- What stays in place has its parent in place. -/
theorem InPlaceSince.childOf {x p : Handle} (h : InPlaceSince s T x) (hl : Linked s)
    (hx : s.ChildOf x p) : InPlaceSince s T p := by
  intro y hy hs hreach
  exact h y hy hs (hreach.tail (holds_of_childOf hl hx))

/-- A child that is left is still a child of the same node. -/
theorem Since.childOf (h : Since s T t) (hl : Linked s) {x p : Handle} (hx : s.ChildOf x p)
    (hplace : InPlaceSince s T x) (halive : t.isAlive x = true) : t.ChildOf x p := by
  obtain ⟨n, hn, -⟩ := childOf_iff.1 hx
  have hs : s.isAlive x = true := isAlive_iff.2 ⟨n, hn⟩
  obtain ⟨a, ha⟩ : ∃ a, t.Holds a x := by
    by_contra hnone
    have htop : t.Top x := ⟨halive, fun a ha => hnone ⟨a, ha⟩⟩
    exact (hplace x ((h.tops x).1 htop) hs (.refl _ _)).2 p (holds_of_childOf hl hx)
  exact (h.placed hs halive ha).trans hx

/-- A node that is left has the same root. -/
theorem Since.root?_eq (h : Since s T t) (hl : Linked s) {x r : Handle} (hr : s.root? x = some r)
    (hplace : InPlaceSince s T x) (halive : t.isAlive x = true) : t.root? x = some r := by
  have hl' := h.disciplined.linked
  obtain ⟨hs, hup, hnone⟩ := hl.root?_eq_some_iff.1 hr
  rw [hl'.root?_eq_some_iff]
  refine ⟨halive, ?_⟩
  clear hr
  induction hup using Relation.ReflTransGen.head_induction_on with
  | refl =>
    refine ⟨.refl, ?_⟩
    cases hp : t.parent? r with
    | none => rfl
    | some p => rw [← hp, h.placed hs halive (holds_of_childOf hl' hp), hnone]
  | head hx _ ih =>
    have hx' := h.childOf hl hx hplace halive
    obtain ⟨hup, hnone⟩ := ih (hplace.childOf hl hx) (hl'.isAlive_parent hx') (hl.isAlive_parent hx)
    exact ⟨.head hx' hup, hnone⟩

-- ---------------------------------------------------------------------------
-- Raised signals
-- ---------------------------------------------------------------------------

/-- The sentinel of a signal stands in front of the children of a node. -/
structure Raised (t : Store) (r z : Handle) (c : Control) : Prop where
  first : t.firstChild? r = some z
  sentinel : ∃ n, t.node? z = some n ∧ c.sentinel? = some n.name ∧ n.parent = some r

instance (t : Store) (r z : Handle) (c : Control) : Decidable (Raised t r z c) :=
  decidable_of_iff (t.firstChild? r = some z ∧
    ∃ n ∈ t.node? z, c.sentinel? = some n.name ∧ n.parent = some r)
    ⟨fun ⟨hfirst, hsentinel⟩ => ⟨hfirst, hsentinel⟩, fun h => ⟨h.first, h.sentinel⟩⟩

namespace Raised

variable {r z : Handle} {c : Control}

theorem childOf (h : Raised t r z c) : t.ChildOf z r := by
  obtain ⟨n, hz, -, hparent⟩ := h.sentinel
  exact childOf_iff.2 ⟨n, hz, hparent⟩

theorem isActive (h : Raised t r z c) : c.isActive = true := by
  obtain ⟨n, -, hc, -⟩ := h.sentinel
  exact Control.isActive_of_sentinel hc

theorem isAlive (h : Raised t r z c) : t.isAlive z = true := by
  obtain ⟨n, hz, -⟩ := h.sentinel
  exact isAlive_iff.2 ⟨n, hz⟩

theorem name_eq (h : Raised t r z c) : ∃ name, t.name z = .ok name ∧ Control.ofName name = c := by
  obtain ⟨n, hz, hc, -⟩ := h.sentinel
  exact ⟨n.name, by simp [Store.name, Store.node, hz, Except.map], Control.ofName_sentinel hc⟩

/-- Everywhere in its tree the raised signal is the pending one. -/
theorem pending (h : Raised t r z c) {x : Handle} (hx : t.root? x = some r) :
    t.pending x = .ok c := by
  obtain ⟨name, hname, hc⟩ := h.name_eq
  simp [Store.pending, frontOf?, hx, h.first, hname, Except.map, hc]

/-- The sentinel is a child of the root alone. -/
theorem ne_of_mem_childList (h : Raised t r z c) (hd : Disciplined t) {x y : Handle} (hx : x ≠ r)
    (hy : y ∈ t.childList x) : y ≠ z := by
  rintro rfl
  exact hx (Option.some.inj ((hd.childOf_of_mem hy).symm.trans h.childOf))

/-- What does not reach the root does not reach the sentinel either. -/
theorem not_reaches (h : Raised t r z c) (hd : Disciplined t) {y : Handle} (hne : y ≠ z)
    (hnot : ¬ t.Reaches y r) : ¬ t.Reaches y z := by
  intro hreach
  have hholds := holds_of_childOf hd.linked h.childOf
  rcases hd.reaches_holder h.isAlive hholds hreach with heq | hback
  · exact hne heq
  · exact hnot hback

end Raised

/-- A freed handle has no signal. -/
theorem pending_of_not_isAlive {x : Handle} (hx : t.isAlive x = false) :
    t.pending x = .ok .none := by
  simp [Store.pending, frontOf?, root?, hx]

/-- What is below a node of a tree does not lead to the root. -/
theorem Disciplined.not_reaches_root (hd : Disciplined t) {x y r : Handle}
    (hx : t.root? x = some r) (hy : y ∈ t.childList x) : ¬ t.Reaches y r := by
  intro hreach
  have hup := reaches_of_up hd.linked (root?_eq_some hx).2
  exact hd.not_reaches_holder (holds_iff_childList.2 (Or.inl hy)) (hreach.trans hup)

/-- A node that is left when another is freed is as it is when that is only taken out of
its place. -/
theorem node?_remove {h x : Handle} (hx : (t.remove h).isAlive x = true) :
    (t.remove h).node? x = (t.detach h).node? x := by
  unfold remove at hx ⊢
  split at hx
  next =>
    obtain ⟨m, hm⟩ := isAlive_iff.1 hx
    rw [if_pos ‹_›, hm, ((node?_releaseAll_eq_some _ _ _ _).1 hm).1]
  next hdead =>
    rw [if_neg hdead, detach_eq_self]
    rw [Bool.not_eq_true] at hdead
    simp [parent?, not_isAlive_iff.1 hdead]

/-- A node is freed with all that it holds. All other nodes are as they were, but list it
no more. -/
structure FreedOnly (t : Store) (h : Handle) (t' : Store) : Prop where
  gone (x : Handle) : t.Reaches h x → t'.isAlive x = false
  left (x : Handle) : ¬ t.Reaches h x →
    t'.node? x = (t.node? x).map fun n => { n with children := n.children.filter (· != h) }

/-- In a disciplined store a removal frees only what the removed node leads to, and changes only its
parent. -/
theorem Disciplined.freedOnly_remove (hd : Disciplined t) {h : Handle} (hh : t.isAlive h = true) :
    FreedOnly t h (t.remove h) := by
  refine ⟨fun x hx => Bool.eq_false_iff.2 fun halive => ?_, fun x hx => ?_⟩
  · exact ((hd.isAlive_remove h x).1 halive).2 hx
  · have hne : x ≠ h := by
      rintro rfl
      exact hx (.refl _ _)
    cases halive : (t.remove h).isAlive x with
    | true =>
      rw [Store.node?_remove halive, hd.linked.node?_detach]
      simp [hne, hh]
    | false =>
      have hdead : ¬ t.isAlive x = true := fun hx' => by
        simp [(hd.isAlive_remove h x).2 ⟨hx', hx⟩] at halive
      rw [not_isAlive_iff.1 halive, not_isAlive_iff.1 (Bool.eq_false_iff.2 hdead)]
      rfl

/-- A child that is freed changes no node but its parent and those that it led to. -/
theorem Disciplined.node?_remove_child (hd : Disciplined t) {p f x : Handle}
    (hf : f ∈ t.childList p) (hx : x ≠ p) (hfar : ¬ t.Reaches f x) :
    (t.remove f).node? x = t.node? x := by
  have hlive := hd.live.of_mem_childList hf
  rw [(hd.freedOnly_remove hlive).left x hfar]
  cases hn : t.node? x with
  | none => rfl
  | some n =>
    rw [Option.map_some, filter_ne_of_not_mem fun hmem => ?_]
    exact hx (hd.unique hlive ⟨n, hn, Or.inl hmem⟩ (holds_iff_childList.2 (Or.inl hf)))

namespace Raised

variable {r z : Handle} {c : Control}

-- ---------------------------------------------------------------------------
-- What leaves a signal where it is
-- ---------------------------------------------------------------------------

/-- A signal is raised still if the root has the children, and the sentinel is the node,
that they were. -/
theorem of_node? (h : Raised t r z c) (hr : t'.firstChild? r = t.firstChild? r)
    (hz : t'.node? z = t.node? z) : Raised t' r z c :=
  ⟨hr.trans h.first, by rw [hz]; exact h.sentinel⟩

/-- A signal stays raised when something else is removed that does not lead to its root. -/
theorem remove (h : Raised t r z c) (hd : Disciplined t) {y : Handle} (hne : y ≠ z)
    (hnot : ¬ t.Reaches y r) : Raised (t.remove y) r z c := by
  -- neither the root nor the sentinel is below the node that is removed
  have hr : (t.remove y).isAlive r = true :=
    (hd.isAlive_remove y r).2 ⟨hd.linked.isAlive_parent h.childOf, hnot⟩
  have hz : (t.remove y).isAlive z = true :=
    (hd.isAlive_remove y z).2 ⟨h.isAlive, h.not_reaches hd hne hnot⟩
  obtain ⟨k, hnode, hc, hparent⟩ := h.sentinel
  have hnode' := (node?_remove hz).trans (hd.linked.node?_detach y z)
  rw [hnode, Option.map_some] at hnode'
  refine ⟨?_, _, hnode', hc, ?_⟩
  · have hfirst := h.first
    unfold firstChild? childList at hfirst ⊢
    rw [node?_remove hr, hd.linked.node?_detach]
    cases hn : t.node? r with
    | none => simp [hn] at hfirst
    | some n =>
      have hhead : n.children.head? = some z := by simpa [hn] using hfirst
      obtain ⟨rest, hrest⟩ := List.head?_eq_some_iff.1 hhead
      simp only [Option.map_some, Option.getD_some, hrest]
      -- the sentinel stays the first child, whether or not another one is taken out
      split
      · rw [List.filter_cons_of_pos (by simpa using Ne.symm hne), List.head?_cons]
      · rw [List.head?_cons]
  · simpa [Ne.symm hne] using hparent

/-- A `_return` in front of the children of another node of the tree may be removed. -/
theorem stripReturn (h : Raised t r z c) (hd : Disciplined t) {x : Handle}
    (hx : t.root? x = some r) (hne : x ≠ r) :
    ∃ t', t.stripReturn x = .ok t' ∧ Raised t' r z c := by
  unfold Store.stripReturn
  split
  next => exact ⟨t, rfl, h⟩
  next first hfirst =>
    have hmem : first ∈ t.childList x := List.mem_of_head? hfirst
    obtain ⟨n, hn⟩ := isAlive_iff.1 (hd.live.of_mem_childList hmem)
    have hname : t.name first = .ok n.name := by simp [Store.name, Store.node, hn, Except.map]
    rw [hname]
    refine ⟨_, rfl, ?_⟩
    split
    · exact h.remove hd (h.ne_of_mem_childList hd hne hmem) (hd.not_reaches_root hx hmem)
    · exact h

/-- The children of another node of the tree may be freed. -/
theorem clear (h : Raised t r z c) (hd : Disciplined t) {x : Handle} (hx : t.root? x = some r)
    (hr : x ≠ r) (hz : x ≠ z) (hok : t.clear x = .ok t') : Raised t' r z c := by
  obtain ⟨k, hk⟩ := isAlive_iff.1 h.isAlive
  obtain ⟨n, hn⟩ := isAlive_iff.1 (hd.linked.isAlive_parent h.childOf)
  have hnot : ∀ y ∈ t.childList x, ¬ t.Reaches y r := fun y hy => hd.not_reaches_root hx hy
  have hnode : t'.node? z = some k :=
    (hd.node?_clear_iff hok z _).2 ⟨by rwa [node?_modify_of_ne _ (Ne.symm hz)],
      fun y hy => h.not_reaches hd (h.ne_of_mem_childList hd hr hy) (hnot y hy)⟩
  have hroot : t'.node? r = some n :=
    (hd.node?_clear_iff hok r _).2 ⟨by rwa [node?_modify_of_ne _ (Ne.symm hr)], hnot⟩
  refine h.of_node? ?_ (hnode.trans hk.symm)
  rw [firstChild?, firstChild?, childList_eq hroot, childList_eq hn]

/-- A node without parent may be put below another node of the tree. -/
theorem moveBelow (h : Raised t r z c) {p y : Handle} {i : Nat} (hy : t.parent? y = none)
    (hok : t.moveBelow p i y = .ok t') (hr : p ≠ r) (hz : p ≠ z) (hback : p ≠ y) (hyr : y ≠ r)
    (hyz : y ≠ z) : Raised t' r z c := by
  obtain ⟨-, -, j, -, rfl⟩ := moveBelow_eq_ok hok
  rw [detach_eq_self hy]
  have hsame : ∀ x, x ≠ p → x ≠ y → (t.link p j y).node? x = t.node? x := by
    intro x hxp hxy
    rw [node?_link hback]
    cases t.node? x with
    | none => rfl
    | some n => simp [hxp, hxy]
  refine h.of_node? ?_ (hsame z (Ne.symm hz) (Ne.symm hyz))
  rw [firstChild?, firstChild?, childList, childList, hsame r (Ne.symm hr) (Ne.symm hyr)]

-- ---------------------------------------------------------------------------
-- What removes a signal
-- ---------------------------------------------------------------------------

/-- Clearing a raised signal gives it back and removes its sentinel. -/
theorem clearSignal (h : Raised t r z c) {x : Handle} (hx : t.root? x = some r) :
    t.clearSignal x = .ok (c, t.remove z) := by
  obtain ⟨name, hname, hc⟩ := h.name_eq
  simp [Store.clearSignal, frontOf?, hx, h.first, hname, hc, h.isActive, bind, Except.bind]

/-- A raised return is stripped from its root by removing its sentinel. -/
theorem stripReturn_root (h : Raised t r z .return) : t.stripReturn r = .ok (t.remove z) := by
  obtain ⟨name, hname, hc⟩ := h.name_eq
  simp [Store.stripReturn, h.first, hname, hc, bind, Except.bind]

end Raised

end Store

end TreeScript
