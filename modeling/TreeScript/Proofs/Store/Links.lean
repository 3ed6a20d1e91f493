import TreeScript.Proofs.Store.Reach

/-!
# TreeScript — parents and children

The parent of a node lists it among its children, once, and whoever lists a live
node is its parent. The invariant says nothing about stale handles in a list of
children except that they were given out once, so that no later node can be taken
for them.

* `Linked`, `Linked.of_childList` — the invariant, and what it says of parents and children;
* `Linked.thin` — edits after which nothing is listed anew;
* `mem_ancestors_iff` — on linked stores the bounded way up misses nobody;
* `node?_detach`, `node?_link` — the two edits of links through the view;
* `LiveChildren` — no list of children has a stale handle in it;
* `Linked.detach`, `Linked.link`, `Linked.remove`, `Linked.clear` — edits of links
  and freeing keep the invariant.
-/

namespace TreeScript

/-- One more edge makes no circle if its end does not lead back to its beginning. -/
theorem acyclic_of_extra_edge {α : Type} {r r' : α → α → Prop} {a b : α}
    (hr : ∀ x y, r' x y → r x y ∨ x = a ∧ y = b) (hac : ∀ x, ¬ Relation.TransGen r x x)
    (hback : ¬ Relation.ReflTransGen r b a) (x : α) : ¬ Relation.TransGen r' x x := by
  -- a way that uses the edge can be cut where it uses it
  have hcut : ∀ {x y}, Relation.ReflTransGen r' x y →
      Relation.ReflTransGen r x y ∨ Relation.ReflTransGen r x a ∧ Relation.ReflTransGen r b y := by
    intro x y hxy
    induction hxy with
    | refl => exact Or.inl .refl
    | tail _ hstep ih =>
      rcases hr _ _ hstep, ih with ⟨hold | ⟨rfl, rfl⟩, hxy | ⟨hxa, hby⟩⟩
      · exact Or.inl (hxy.tail hold)
      · exact Or.inr ⟨hxa, hby.tail hold⟩
      · exact Or.inr ⟨hxy, .refl⟩
      · exact absurd hby hback
  intro hcycle
  obtain ⟨y, hxy, hyx⟩ := Relation.TransGen.head'_iff.1 hcycle
  rcases hr _ _ hxy, hcut hyx with ⟨hold | ⟨rfl, rfl⟩, hyx | ⟨hya, hbx⟩⟩
  · exact hac x (Relation.TransGen.head' hold hyx)
  · exact hback (hbx.trans (hya.head hold))
  · exact hback hyx
  · exact hback hya

namespace Store

/-- The second node is the parent of the first one. -/
def ChildOf (s : Store) (c p : Handle) : Prop := s.parent? c = some p

/-- The parent of a node is the one that the node itself names. -/
theorem childOf_iff {s : Store} {c p : Handle} :
    s.ChildOf c p ↔ ∃ m, s.node? c = some m ∧ m.parent = some p := by
  simp [ChildOf, parent?, Option.bind_eq_some_iff]

/-- Parents and children agree, no list of children names a node twice, and no
node stands above itself. -/
structure Linked (s : Store) : Prop where
  lists {c p : Handle} {m : Node} : s.node? c = some m → m.parent = some p →
    ∃ n, s.node? p = some n ∧ c ∈ n.children
  listed {p c : Handle} {n m : Node} : s.node? p = some n → c ∈ n.children →
    s.node? c = some m → m.parent = some p
  nodup {p : Handle} {n : Node} : s.node? p = some n → n.children.Nodup
  issued {p c : Handle} {n : Node} : s.node? p = some n → c ∈ n.children → s.Issued c
  acyclic (h : Handle) : ¬ Relation.TransGen s.ChildOf h h

theorem linked_empty : Linked empty := by
  have hnone : ∀ h, empty.node? h = none := by simp [node?, empty]
  refine ⟨?_, ?_, ?_, ?_, fun h hcycle => ?_⟩
  · simp [hnone]
  · simp [hnone]
  · simp [hnone]
  · simp [hnone]
  · obtain ⟨p, hp, -⟩ := Relation.TransGen.head'_iff.1 hcycle
    simp [childOf_iff, hnone] at hp

theorem childList_eq {s : Store} {h : Handle} {n : Node} (hn : s.node? h = some n) :
    s.childList h = n.children := by simp [childList, hn]

theorem mem_childList_iff {s : Store} {p c : Handle} :
    c ∈ s.childList p ↔ ∃ n, s.node? p = some n ∧ c ∈ n.children := by
  cases hn : s.node? p with
  | none => simp [childList, hn]
  | some n => simp [childList, hn]

theorem isAlive_of_parent? {s : Store} {p c : Handle} (hp : s.parent? c = some p) :
    s.isAlive c = true := by
  obtain ⟨m, hm, -⟩ := childOf_iff.1 hp
  exact isAlive_iff.2 ⟨m, hm⟩

namespace Linked

variable {s : Store} {p c : Handle}

/-- No list of children names a node twice. -/
theorem nodup_childList (hl : Linked s) (h : Handle) : (s.childList h).Nodup := by
  unfold childList
  cases hn : s.node? h with
  | none => exact List.nodup_nil
  | some n => exact hl.nodup hn

theorem parent_ne (hl : Linked s) (hp : s.ChildOf c p) : p ≠ c :=
  fun heq => hl.acyclic c (.single (heq ▸ hp))

/-- The parent of a node is alive: it lists the node. -/
theorem isAlive_parent (hl : Linked s) (hp : s.ChildOf c p) : s.isAlive p = true := by
  obtain ⟨m, hm, hmp⟩ := childOf_iff.1 hp
  obtain ⟨n, hn, -⟩ := hl.lists hm hmp
  exact isAlive_iff.2 ⟨n, hn⟩

/-- The parent of a live node is whoever lists it. -/
theorem parent?_eq_some_iff (hl : Linked s) (hc : s.isAlive c = true) :
    s.parent? c = some p ↔ c ∈ s.childList p := by
  obtain ⟨m, hm⟩ := isAlive_iff.1 hc
  rw [mem_childList_iff]
  constructor
  · intro hp
    obtain ⟨m', hm', hmp⟩ := childOf_iff.1 hp
    exact hl.lists hm' hmp
  · rintro ⟨n, hn, hmem⟩
    exact childOf_iff.2 ⟨m, hm, hl.listed hn hmem hm⟩

/-- The parent of a node has it among its children. -/
theorem mem_childList_of_parent? (hl : Linked s) (hp : s.parent? c = some p) :
    c ∈ s.childList p :=
  (hl.parent?_eq_some_iff (isAlive_of_parent? hp)).1 hp

/-- Whatever is listed as a child has been given out. -/
theorem issued_of_mem_childList (hl : Linked s) (hc : c ∈ s.childList p) : s.Issued c := by
  obtain ⟨n, hn, hmem⟩ := mem_childList_iff.1 hc
  exact hl.issued hn hmem

/-- The invariant, told of parents and lists of children. -/
theorem of_childList (hlists : ∀ {c p}, s.parent? c = some p → c ∈ s.childList p)
    (hlisted : ∀ {c p}, c ∈ s.childList p → s.isAlive c = true → s.parent? c = some p)
    (hnodup : ∀ p, (s.childList p).Nodup)
    (hissued : ∀ {c p}, c ∈ s.childList p → s.Issued c)
    (hacyclic : ∀ h, ¬ Relation.TransGen s.ChildOf h h) : Linked s where
  lists hm hp := mem_childList_iff.1 (hlists (childOf_iff.2 ⟨_, hm, hp⟩))
  listed {p c n m} hn hc hm := by
    have hp := hlisted (mem_childList_iff.2 ⟨n, hn, hc⟩) (isAlive_iff.2 ⟨m, hm⟩)
    simpa [parent?, hm] using hp
  nodup {p n} hn := childList_eq hn ▸ hnodup p
  issued hn hc := hissued (mem_childList_iff.2 ⟨_, hn, hc⟩)
  acyclic := hacyclic

/-- The links stay in order when nothing is listed anew, and what is still listed keeps its
parent. -/
theorem thin {s' : Store} (hl : Linked s)
    (hsub : ∀ p, (s'.childList p).Sublist (s.childList p))
    (hkept : ∀ {c p}, c ∈ s'.childList p → s'.isAlive c = true →
      s.isAlive c = true ∧ s'.parent? c = s.parent? c)
    (hlists : ∀ {c p}, s'.parent? c = some p → c ∈ s'.childList p)
    (hissued : ∀ {c p}, c ∈ s'.childList p → s'.Issued c) : Linked s' := by
  refine .of_childList hlists (fun {c p} hc halive => ?_)
    (fun p => (hl.nodup_childList p).sublist (hsub p)) hissued fun h hcycle => ?_
  · obtain ⟨hold, hparent⟩ := hkept hc halive
    exact hparent.trans ((hl.parent?_eq_some_iff hold).2 ((hsub p).subset hc))
  · refine hl.acyclic h (Relation.TransGen.mono (fun c p hcp => ?_) _ _ hcycle)
    exact (hkept (hlists hcp) (isAlive_of_parent? hcp)).2.symm.trans hcp

end Linked

-- ---------------------------------------------------------------------------
-- The way up
-- ---------------------------------------------------------------------------

/-- Different live nodes sit in different slots. -/
theorem length_le_size_of_nodup {s : Store} {hs : List Handle} (hnodup : hs.Nodup)
    (halive : ∀ h ∈ hs, s.isAlive h = true) : hs.length ≤ s.slots.size := by
  have hinj : (hs.map Handle.index).Nodup := by
    refine List.Nodup.map_on (fun a ha b hb heq => ?_) hnodup
    obtain ⟨n, hn⟩ := isAlive_iff.1 (halive a ha)
    obtain ⟨m, hm⟩ := isAlive_iff.1 (halive b hb)
    exact index_injective hm hn heq
  have hsub : hs.map Handle.index ⊆ List.range s.slots.size := by
    intro i hi
    obtain ⟨a, ha, rfl⟩ := List.mem_map.1 hi
    obtain ⟨n, hn⟩ := isAlive_iff.1 (halive a ha)
    exact List.mem_range.2 (index_lt_size hn)
  simpa using (hinj.subperm hsub).length_le

/-- A walk along a relation between nodes that is long enough for the slots that are left comes to
an end: no node that is on the way to a node is met again. -/
theorem walk_down {s : Store} {R : Handle → Handle → Prop}
    (hlive : ∀ {a b}, R a b → s.isAlive a = true) {root : Handle}
    (hac : ∀ x, Relation.ReflTransGen R root x → ¬ Relation.TransGen R x x)
    {P : Nat → Handle → Prop} (hstep : ∀ {fuel h}, (∀ x, R h x → P fuel x) → P (fuel + 1) h)
    {fuel : Nat} {h : Handle} (hh : Relation.ReflTransGen R root h) {path : List Handle}
    (hnodup : path.Nodup) (hpath : ∀ x ∈ path, Relation.TransGen R x h)
    (hfuel : s.slots.size < fuel + path.length) : P fuel h := by
  induction fuel generalizing path h with
  | zero =>
    -- the way here would take more slots than there are
    have hle := length_le_size_of_nodup hnodup fun x hx => by
      obtain ⟨y, hxy, -⟩ := Relation.TransGen.head'_iff.1 (hpath x hx)
      exact hlive hxy
    omega
  | succ fuel ih =>
    have hnodup' : (h :: path).Nodup :=
      List.nodup_cons.2 ⟨fun hmem => hac h hh (hpath h hmem), hnodup⟩
    refine hstep fun x hx => ih (hh.tail hx) hnodup' ?_ ?_
    · exact List.forall_mem_cons.2 ⟨.single hx, fun y hy => (hpath y hy).tail hx⟩
    · simp only [List.length_cons]
      omega

/-- What can be told of a node from what is told of those that it is related to can be told of a
node that leads to no circle, in as many steps as there are slots. -/
theorem of_below {s : Store} {R : Handle → Handle → Prop}
    (hlive : ∀ {a b}, R a b → s.isAlive a = true) {root : Handle}
    (hac : ∀ x, Relation.ReflTransGen R root x → ¬ Relation.TransGen R x x)
    {P : Nat → Handle → Prop} (hstep : ∀ {fuel h}, (∀ x, R h x → P fuel x) → P (fuel + 1) h) :
    P (s.slots.size + 1) root :=
  walk_down (s := s) (P := P) hlive hac hstep (.refl) List.nodup_nil (by simp) (by simp)

/-- Whatever the walk up meets stands above. -/
theorem transGen_of_mem_ancestorsWithin {s : Store} {fuel : Nat} {h a : Handle}
    (ha : a ∈ s.ancestorsWithin fuel h) : Relation.TransGen s.ChildOf h a := by
  induction fuel generalizing h with
  | zero => simp [ancestorsWithin] at ha
  | succ fuel ih =>
    unfold ancestorsWithin at ha
    split at ha
    next => simp at ha
    next p hp =>
      rcases List.mem_cons.1 ha with rfl | ha
      · exact .single hp
      · exact .head hp (ih ha)

/-- A way up that ends before its bound is complete. -/
theorem mem_ancestorsWithin_of_length_lt {s : Store} {fuel : Nat} {h a : Handle}
    (hlt : (s.ancestorsWithin fuel h).length < fuel) (ha : Relation.TransGen s.ChildOf h a) :
    a ∈ s.ancestorsWithin fuel h := by
  induction fuel generalizing h with
  | zero => simp at hlt
  | succ fuel ih =>
    obtain ⟨q, hq, hqa⟩ := Relation.TransGen.head'_iff.1 ha
    unfold ancestorsWithin at hlt ⊢
    split at hlt
    next hnone => simp [ChildOf, hnone] at hq
    next p hp =>
      obtain rfl : p = q := Option.some.inj (hp.symm.trans hq)
      rw [List.mem_cons]
      rcases Relation.reflTransGen_iff_eq_or_transGen.1 hqa with rfl | hpa
      · exact Or.inl rfl
      · exact Or.inr (ih (by simpa using hlt) hpa)

theorem Linked.nodup_ancestorsWithin {s : Store} (hl : Linked s) (fuel : Nat) (h : Handle) :
    (h :: s.ancestorsWithin fuel h).Nodup := by
  induction fuel generalizing h with
  | zero => simp [ancestorsWithin]
  | succ fuel ih =>
    refine List.nodup_cons.2 ⟨fun hmem => hl.acyclic h (transGen_of_mem_ancestorsWithin hmem), ?_⟩
    unfold ancestorsWithin
    split
    next => exact List.nodup_nil
    next p _ => exact ih p

/-- On a linked store the bounded way up passes everyone who stands above a node. -/
theorem Linked.mem_ancestors_iff {s : Store} (hl : Linked s) {h a : Handle} :
    a ∈ s.ancestors h ↔ Relation.TransGen s.ChildOf h a := by
  refine ⟨transGen_of_mem_ancestorsWithin, fun ha => mem_ancestorsWithin_of_length_lt ?_ ha⟩
  have halive : ∀ x ∈ h :: s.ancestorsWithin s.slots.size h, s.isAlive x = true := by
    intro x hx
    rcases List.mem_cons.1 hx with rfl | hx
    · obtain ⟨q, hq, -⟩ := Relation.TransGen.head'_iff.1 ha
      obtain ⟨m, hm, -⟩ := childOf_iff.1 hq
      exact isAlive_iff.2 ⟨m, hm⟩
    · obtain ⟨q, -, hq⟩ := Relation.TransGen.tail'_iff.1 (transGen_of_mem_ancestorsWithin hx)
      exact hl.isAlive_parent hq
  have hle := length_le_size_of_nodup (hl.nodup_ancestorsWithin s.slots.size h) halive
  simpa using hle

/-- Moving a node is refused exactly where it would stand above itself. -/
theorem Linked.wouldCycle_iff {s : Store} (hl : Linked s) {parent child : Handle} :
    s.wouldCycle parent child = true ↔ Relation.ReflTransGen s.ChildOf parent child := by
  rw [wouldCycle, Bool.or_eq_true, beq_iff_eq, isAncestor, List.contains_iff_mem,
    hl.mem_ancestors_iff, Relation.reflTransGen_iff_eq_or_transGen]

-- ---------------------------------------------------------------------------
-- Editing links
-- ---------------------------------------------------------------------------

theorem issued_modify (s : Store) (h : Handle) (f : Node → Node) (x : Handle) :
    (s.modify h f).Issued x ↔ s.Issued x := by
  simp [Issued, freedAt_modify]

/-- Taking an element out of a list that it is not in. -/
theorem filter_ne_of_not_mem {α : Type} [DecidableEq α] {xs : List α} {c : α} (hc : c ∉ xs) :
    xs.filter (· != c) = xs := by
  refine List.filter_eq_self.2 fun y hy => ?_
  rw [bne_iff_ne]
  rintro rfl
  exact hc hy

/-- A node that is taken out of its place has no parent, and its parent lists it no more. -/
theorem node?_detach (s : Store) (h x : Handle) :
    (s.detach h).node? x = (s.node? x).map fun n =>
      { n with
        parent := if x = h then none else n.parent
        children := if s.parent? h = some x then n.children.filter (· != h) else n.children } := by
  unfold detach
  cases hp : s.parent? h with
  | none =>
    cases hn : s.node? x with
    | none => simp
    | some n =>
      by_cases hx : x = h
      -- without a parent nothing is changed
      · subst hx
        obtain ⟨name, value, parent, children⟩ := n
        obtain rfl : parent = none := by simpa [parent?, hn] using hp
        simp
      · simp [hx]
  | some p =>
    simp only [node?_modify, Option.some.injEq]
    -- the detached node loses its parent, and its parent loses a child
    by_cases hx : x = h <;> by_cases hxp : x = p
    · subst hx hxp
      simp [Function.comp_def]
    · subst hx
      simp [hxp, Ne.symm hxp]
    · subst hxp
      simp [hx]
    · simp [hx, hxp, Ne.symm hxp]

/-- A detached node has no parent, and nobody else has lost theirs. -/
theorem parent?_detach (s : Store) (h x : Handle) :
    (s.detach h).parent? x = if x = h then none else s.parent? x := by
  unfold parent?
  rw [node?_detach]
  cases s.node? x with
  | none => simp
  | some n => simp

/-- A detached node is missing among the children of its old parent only. -/
theorem childList_detach (s : Store) (h x : Handle) :
    (s.detach h).childList x =
      if s.parent? h = some x then (s.childList x).filter (· != h) else s.childList x := by
  unfold childList
  rw [node?_detach]
  cases s.node? x with
  | none => simp
  | some n => simp

@[simp] theorem parent?_modify_value (s : Store) (h : Handle) (v : Option Value) (c : Handle) :
    (s.modify h fun n => { n with value := v }).parent? c = s.parent? c := by
  unfold parent?
  rw [node?_modify]
  by_cases hc : c = h
  · subst hc
    cases s.node? c <;> simp
  · simp [hc]

@[simp] theorem childList_modify_value (s : Store) (h : Handle) (v : Option Value) (p : Handle) :
    (s.modify h fun n => { n with value := v }).childList p = s.childList p := by
  unfold childList
  rw [node?_modify]
  by_cases hp : p = h
  · subst hp
    cases s.node? p <;> simp
  · simp [hp]

/-- Taking a node out of its parent's children: it has no parent any more, and
nobody lists it. -/
theorem Linked.node?_detach {s : Store} (hl : Linked s) (h x : Handle) :
    (s.detach h).node? x = (s.node? x).map fun n =>
      { n with
        parent := if x = h then none else n.parent
        children := if s.isAlive h then n.children.filter (· != h) else n.children } := by
  rw [Store.node?_detach]
  cases hn : s.node? x with
  | none => rfl
  | some n =>
    cases halive : s.isAlive h with
    | false => simp [parent?, not_isAlive_iff.1 halive]
    | true =>
      -- a node that is not the parent does not list `h`
      have hother : s.parent? h ≠ some x → n.children.filter (· != h) = n.children := fun hne =>
        filter_ne_of_not_mem fun hmem =>
          hne ((hl.parent?_eq_some_iff halive).2 (mem_childList_iff.2 ⟨n, hn, hmem⟩))
      by_cases hp : s.parent? h = some x
      · simp [hp]
      · simp [hp, hother hp]

/-- Making a node the child of another. -/
theorem node?_link {s : Store} {p c : Handle} (hne : p ≠ c) (i : Nat) (x : Handle) :
    (s.link p i c).node? x = (s.node? x).map fun n =>
      { n with
        parent := if x = c then some p else n.parent
        children := if x = p then n.children.insertIdx i c else n.children } := by
  unfold link
  simp only [node?_modify]
  by_cases hxp : x = p
  · subst hxp
    simp [hne]
  · by_cases hxc : x = c
    · subst hxc
      simp [hxp]
    · simp [hxp, hxc]

/-- A linked node is a child of its new parent, at the place that was asked for. -/
theorem childList_link {s : Store} {p c : Handle} (hne : p ≠ c) (hp : s.isAlive p = true) (i : Nat)
    (q : Handle) : (s.link p i c).childList q =
      if q = p then (s.childList p).insertIdx i c else s.childList q := by
  unfold childList
  rw [node?_link hne]
  by_cases hq : q = p
  · subst hq
    obtain ⟨n, hn⟩ := isAlive_iff.1 hp
    simp [hn]
  · cases s.node? q <;> simp [hq]

/-- A linked node has its new parent, and nobody else has got one. -/
theorem parent?_link {s : Store} {p c : Handle} (hne : p ≠ c) (hc : s.isAlive c = true) (i : Nat)
    (x : Handle) : (s.link p i c).parent? x = if x = c then some p else s.parent? x := by
  unfold parent?
  rw [node?_link hne]
  by_cases hx : x = c
  · subst hx
    obtain ⟨m, hm⟩ := isAlive_iff.1 hc
    simp [hm]
  · cases s.node? x <;> simp [hx]

theorem issued_detach (s : Store) (h x : Handle) : (s.detach h).Issued x ↔ s.Issued x := by
  unfold detach
  split
  · rfl
  · rw [issued_modify, issued_modify]

theorem issued_link (s : Store) (p : Handle) (i : Nat) (c x : Handle) :
    (s.link p i c).Issued x ↔ s.Issued x := by
  unfold link
  rw [issued_modify, issued_modify]

@[simp] theorem isAlive_detach (s : Store) (h x : Handle) : (s.detach h).isAlive x = s.isAlive x := by
  unfold detach
  split <;> simp

@[simp] theorem isAlive_link (s : Store) (p : Handle) (i : Nat) (c x : Handle) :
    (s.link p i c).isAlive x = s.isAlive x := by
  simp [link]

/-- Taking a node out of its parent's children keeps the links in order. -/
theorem Linked.detach {s : Store} (hl : Linked s) (h : Handle) : Linked (s.detach h) := by
  have hsub : ∀ p, ((s.detach h).childList p).Sublist (s.childList p) := by
    intro p
    rw [childList_detach]
    split
    · exact List.filter_sublist
    · exact List.Sublist.refl _
  refine hl.thin hsub (fun {c p} hc halive => ?_) (fun {c p} hp => ?_) fun hc =>
    (issued_detach _ _ _).2 (hl.issued_of_mem_childList ((hsub _).subset hc))
  · rw [isAlive_detach] at halive
    have hparent := (hl.parent?_eq_some_iff halive).2 ((hsub p).subset hc)
    -- the node that has been taken out is not listed any more
    have hne : c ≠ h := by
      rintro rfl
      rw [childList_detach, if_pos hparent] at hc
      simp at hc
    exact ⟨halive, by rw [parent?_detach, if_neg hne]⟩
  · rw [parent?_detach] at hp
    split at hp
    next => simp at hp
    next hne =>
      have hmem := hl.mem_childList_of_parent? hp
      rw [childList_detach]
      split
      · exact List.mem_filter.2 ⟨hmem, bne_iff_ne.2 hne⟩
      · exact hmem

/-- Making a parentless node the child of another that it does not stand above
keeps the links in order. -/
theorem Linked.link {s : Store} (hl : Linked s) {p c : Handle} {n m : Node} {i : Nat}
    (hp : s.node? p = some n) (hc : s.node? c = some m) (hroot : m.parent = none)
    (hi : i ≤ n.children.length) (hup : ¬ Relation.ReflTransGen s.ChildOf p c) :
    Linked (s.link p i c) := by
  have hne : p ≠ c := fun heq => hup (heq ▸ .refl)
  have hlist := fun q => childList_link hne (isAlive_iff.2 ⟨n, hp⟩) i q
  have hparent := fun x => parent?_link hne (isAlive_iff.2 ⟨m, hc⟩) i x
  have hnone : s.parent? c = none := by simp [parent?, hc, hroot]
  -- a node without a parent is in nobody's list
  have hnew : c ∉ s.childList p := fun hmem => by
    simp [(hl.parent?_eq_some_iff (isAlive_iff.2 ⟨m, hc⟩)).2 hmem] at hnone
  have hperm : ((s.childList p).insertIdx i c).Perm (c :: s.childList p) :=
    List.perm_insertIdx c _ (by rwa [childList_eq hp])
  -- the only new entry is that of `c` in the list of `p`
  have hmem : ∀ {q x}, x ∈ (s.link p i c).childList q ↔ x ∈ s.childList q ∨ q = p ∧ x = c := by
    intro q x
    rw [hlist]
    by_cases hq : q = p
    · simp [hq, hperm.mem_iff, or_comm]
    · simp [hq]
  refine .of_childList (fun {x q} hx => ?_) (fun {x q} hx halive => ?_) (fun q => ?_)
    (fun {x q} hx => ?_) ?_
  · rw [hparent] at hx
    split at hx
    next heq => exact hmem.2 (Or.inr ⟨(Option.some.inj hx).symm, heq⟩)
    next => exact hmem.2 (Or.inl (hl.mem_childList_of_parent? hx))
  · rw [isAlive_link] at halive
    rw [hparent]
    rcases hmem.1 hx with hx | ⟨rfl, rfl⟩
    · -- nobody has listed `c`, which has no parent
      have hold := (hl.parent?_eq_some_iff halive).2 hx
      rw [if_neg fun heq => by simp [heq, hnone] at hold, hold]
    · rw [if_pos rfl]
  · rw [hlist]
    split
    · exact hperm.nodup_iff.2 (List.nodup_cons.2 ⟨hnew, hl.nodup_childList p⟩)
    · exact hl.nodup_childList q
  · rw [issued_link]
    rcases hmem.1 hx with hx | ⟨-, rfl⟩
    · exact hl.issued_of_mem_childList hx
    · exact Or.inr (isAlive_iff.2 ⟨m, hc⟩)
  -- a circle would have to use the new edge, and `p` is not below `c`
  · refine acyclic_of_extra_edge (a := c) (b := p) (fun x q hxq => ?_) hl.acyclic hup
    rw [ChildOf, hparent] at hxq
    split at hxq
    next heq => exact Or.inr ⟨heq, (Option.some.inj hxq).symm⟩
    next => exact Or.inl hxq

/-- Changing anything but a node's links keeps the links in order. -/
theorem Linked.modify {s : Store} (hl : Linked s) (h : Handle) {f : Node → Node}
    (hp : ∀ n, (f n).parent = n.parent) (hc : ∀ n, (f n).children = n.children) :
    Linked (s.modify h f) := by
  have hparent : ∀ x, (s.modify h f).parent? x = s.parent? x := by
    intro x
    unfold parent?
    rw [node?_modify]
    by_cases hx : x = h
    · cases hn : s.node? h <;> simp [hx, hn, hp]
    · simp [hx]
  have hlist : ∀ x, (s.modify h f).childList x = s.childList x := by
    intro x
    unfold childList
    rw [node?_modify]
    by_cases hx : x = h
    · cases hn : s.node? h <;> simp [hx, hn, hc]
    · simp [hx]
  -- an edit that keeps parents and lists keeps the links between them
  refine hl.thin (fun p => by rw [hlist]) (fun {c p} _ halive => ?_) (fun {c p} hcp => ?_)
    fun {c p} hmem => ?_
  · exact ⟨by rwa [isAlive_modify] at halive, hparent c⟩
  · rw [hparent] at hcp
    rw [hlist]
    exact hl.mem_childList_of_parent? hcp
  · rw [hlist] at hmem
    exact (issued_modify _ _ _ _).2 (hl.issued_of_mem_childList hmem)

-- ---------------------------------------------------------------------------
-- Lists of live children
-- ---------------------------------------------------------------------------

/-- Every handle in a list of children is alive. -/
def LiveChildren (s : Store) : Prop :=
  ∀ ⦃p : Handle⦄ ⦃n : Node⦄ ⦃c : Handle⦄, s.node? p = some n → c ∈ n.children → s.isAlive c = true

/-- A store without nodes lists no stale handles. -/
theorem liveChildren_empty : LiveChildren empty := by
  intro p n c hn
  simp [node?, empty] at hn

/-- Changing a node keeps lists of live children, if what it lists anew is alive. -/
theorem LiveChildren.modify {s : Store} (hlive : LiveChildren s) (h : Handle) {f : Node → Node}
    (hf : ∀ n, s.node? h = some n → ∀ c ∈ (f n).children, c ∈ n.children ∨ s.isAlive c = true) :
    LiveChildren (s.modify h f) := by
  intro p n' c hn' hc
  rw [isAlive_modify]
  rw [node?_modify] at hn'
  split at hn'
  next =>
    obtain ⟨n, hn, rfl⟩ := Option.map_eq_some_iff.1 hn'
    rcases hf n hn c hc with hold | hnew
    · exact hlive hn hold
    · exact hnew
  next => exact hlive hn' hc

theorem LiveChildren.detach {s : Store} (hlive : LiveChildren s) (h : Handle) :
    LiveChildren (s.detach h) := by
  unfold Store.detach
  split
  next => exact hlive
  next p _ =>
    have hmid : LiveChildren (s.modify p fun n => { n with children := n.children.filter (· != h) }) :=
      hlive.modify p fun _ _ _ hc => Or.inl (List.mem_filter.1 hc).1
    exact hmid.modify h fun _ _ _ hc => Or.inl hc

theorem LiveChildren.link {s : Store} (hlive : LiveChildren s) (p : Handle) (i : Nat) {c : Handle}
    (hc : s.isAlive c = true) : LiveChildren (s.link p i c) := by
  have hmid : LiveChildren (s.modify c fun n => { n with parent := some p }) :=
    hlive.modify c fun _ _ _ hx => Or.inl hx
  refine hmid.modify p fun n _ x hx => ?_
  rcases List.eq_or_mem_of_mem_insertIdx hx with rfl | hx
  · exact Or.inr (by rwa [isAlive_modify])
  · exact Or.inl hx

-- ---------------------------------------------------------------------------
-- Freeing
-- ---------------------------------------------------------------------------

/-- What is left of a store is linked if no node lost its parent. A stale handle
in a list of children needs a generation of its own, a live one does not. -/
theorem Linked.restrict {s s' : Store} (hl : Linked s) (he : Evolves s s')
    (hu : Unwrapped s' ∨ LiveChildren s')
    (hleft : ∀ {x m'}, s'.node? x = some m' → ∃ m, s.node? x = some m ∧
      m'.parent = m.parent ∧ m'.children.Sublist m.children)
    (hup : ∀ {c p m'}, s'.node? c = some m' → m'.parent = some p →
      ∃ n', s'.node? p = some n' ∧ c ∈ n'.children) : Linked s' := by
  have hsub : ∀ p, (s'.childList p).Sublist (s.childList p) := by
    intro p
    cases hn' : s'.node? p with
    | none => simp [childList, hn']
    | some n' =>
      obtain ⟨n, hn, -, hsub⟩ := hleft hn'
      rwa [childList_eq hn', childList_eq hn]
  refine hl.thin hsub (fun {c p} _ halive => ?_) (fun {c p} hp => ?_) fun {c p} hc => ?_
  · obtain ⟨m', hm'⟩ := isAlive_iff.1 halive
    obtain ⟨m, hm, hparent, -⟩ := hleft hm'
    exact ⟨isAlive_iff.2 ⟨m, hm⟩, by simp [parent?, hm', hm, hparent]⟩
  · obtain ⟨m', hm', hmp⟩ := childOf_iff.1 hp
    exact mem_childList_iff.2 (hup hm' hmp)
  -- a handle in a list was issued, either way the bound is given
  · rcases hu with hu | hlive
    · exact he.issued hu (hl.issued_of_mem_childList ((hsub p).subset hc))
    · obtain ⟨n', hn', hmem⟩ := mem_childList_iff.1 hc
      exact Or.inr (hlive hn' hmem)

/-- Freeing all that is reached keeps the links in order: the children of a
freed node are freed with it. -/
theorem Linked.releaseAll {s : Store} (hl : Linked s) (stack : List Handle)
    (hu : Unwrapped (s.releaseAll stack) ∨ LiveChildren (s.releaseAll stack)) :
    Linked (s.releaseAll stack) := by
  refine hl.restrict (.releaseAll s stack) hu ?_ ?_
  · intro x m' hm'
    exact ⟨m', ((node?_releaseAll_eq_some _ _ _ _).1 hm').1, rfl, List.Sublist.refl _⟩
  · intro c p m' hm' hp
    obtain ⟨hm, hnot⟩ := (node?_releaseAll_eq_some _ _ _ _).1 hm'
    obtain ⟨n, hn, hmem⟩ := hl.lists hm hp
    refine ⟨n, (node?_releaseAll_eq_some _ _ _ _).2 ⟨hn, fun g hg hreach => ?_⟩, hmem⟩
    exact hnot g hg (hreach.tail ⟨n, hn, Or.inl hmem⟩)

theorem Evolves.detach (s : Store) (h : Handle) : Evolves s (s.detach h) := by
  unfold Store.detach
  split
  · exact .refl _
  · exact (Evolves.modify _ _ _).trans (.modify _ _ _)

theorem Evolves.remove (s : Store) (h : Handle) : Evolves s (s.remove h) := by
  unfold Store.remove
  split
  · exact (Evolves.detach _ _).trans (.releaseAll _ _)
  · exact .refl _

/-- A removal keeps parents and children in agreement. Stale handles may stay listed, so no slot may
have been freed too often, unless there are none. -/
theorem Linked.remove {s : Store} (hl : Linked s) (h : Handle)
    (hu : Unwrapped (s.remove h) ∨ LiveChildren (s.remove h)) : Linked (s.remove h) := by
  unfold Store.remove at hu ⊢
  by_cases ha : s.isAlive h = true
  · rw [if_pos ha] at hu ⊢
    exact (hl.detach h).releaseAll [h] hu
  · rw [if_neg ha]
    exact hl

/-- The shape of a successful `clear`. -/
theorem clear_eq_ok {s s' : Store} {h : Handle} (hok : s.clear h = .ok s') :
    ∃ n, s.node? h = some n ∧
      (s.modify h fun n => { n with children := [] }).removeEach n.children = .ok s' := by
  unfold clear children node at hok
  cases hn : s.node? h with
  | none => simp [hn, Except.map, bind, Except.bind] at hok
  | some n => exact ⟨n, rfl, by simpa [hn, Except.map, bind, Except.bind] using hok⟩

theorem Evolves.clear {s s' : Store} {h : Handle} (hok : s.clear h = .ok s') : Evolves s s' := by
  obtain ⟨n, -, hremove⟩ := clear_eq_ok hok
  exact (Evolves.modify _ _ _).trans (.removeEach hremove)

theorem Linked.clear {s s' : Store} (hl : Linked s) {h : Handle} (hok : s.clear h = .ok s')
    (hu : Unwrapped s' ∨ LiveChildren s') : Linked s' := by
  obtain ⟨n, hn, hremove⟩ := clear_eq_ok hok
  set t := s.modify h fun n => { n with children := [] } with ht
  have hview := node?_removeEach_eq_some hremove
  refine hl.restrict (.clear hok) hu ?_ ?_
  · intro x m' hm'
    have hm := ((hview x m').1 hm').1
    rw [ht, node?_modify] at hm
    split at hm
    next heq =>
      obtain ⟨m, hold, rfl⟩ := Option.map_eq_some_iff.1 hm
      exact ⟨m, heq ▸ hold, rfl, List.nil_sublist _⟩
    next => exact ⟨m', hm, rfl, List.Sublist.refl _⟩
  · intro c p m' hm' hp
    obtain ⟨hmt, hnot⟩ := (hview c m').1 hm'
    obtain ⟨m, hm, hpar⟩ : ∃ m, s.node? c = some m ∧ m.parent = some p := by
      rw [ht, node?_modify] at hmt
      split at hmt
      next heq =>
        obtain ⟨m, hm, rfl⟩ := Option.map_eq_some_iff.1 hmt
        exact ⟨m, heq ▸ hm, hp⟩
      next => exact ⟨m', hmt, hp⟩
    obtain ⟨k, hk, hmem⟩ := hl.lists hm hpar
    -- the children of `h` are freed, so the parent is another node and still there
    have hph : p ≠ h := by
      rintro rfl
      obtain rfl : n = k := Option.some.inj (hn.symm.trans hk)
      exact hnot c hmem (.refl _ _)
    have hkt : t.node? p = some k := by rw [ht, node?_modify_of_ne _ hph, hk]
    refine ⟨k, (hview p k).2 ⟨hkt, fun g hg hreach => ?_⟩, hmem⟩
    exact hnot g hg (hreach.tail ⟨k, hkt, Or.inl hmem⟩)

end Store

end TreeScript
