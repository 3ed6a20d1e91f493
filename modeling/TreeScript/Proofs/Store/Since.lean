import TreeScript.Proofs.Store.Discipline

/-!
# TreeScript — what a disciplined edit leaves

A step of a program is told by two stores: the one it began with and the one it has
come to. The second is disciplined again, its tops are known exactly, and no node that
was there in the beginning is held by anybody new.

* `Since` — the relation, with the set of tops;
* `Since.trans` — steps after one another;
* `Since.detach`, `Since.remove`, `Since.clear`, `Since.assign`, `Since.create`,
  `Since.moveBelow`, `Since.plant` — one lemma for each edit.
-/

namespace TreeScript.Store

/-- A node that has come later was not there in the beginning. -/
theorem Evolves.not_isAlive_of_fresh {s t u : Store} (h : Evolves s t) (h' : Evolves t u)
    (hu : Unwrapped u) {x : Handle} (hx : Fresh t u x) : s.isAlive x = false := by
  by_contra hs
  rw [Bool.not_eq_false] at hs
  have hmid := h.isAlive_between h' hu hs hx.2
  simp [hx.1] at hmid

/-- What has become of a store. The nodes that nobody holds are those in `T`, and a node
of the first store is held by nobody who did not hold it then; it is still a child if it
was one. -/
structure Since (s : Store) (T : Set Handle) (t : Store) : Prop where
  evolves : Evolves s t
  disciplined : Disciplined t
  settled {a b : Handle} : s.isAlive b = true → t.isAlive b = true → t.Holds a b → s.Holds a b
  placed {a b : Handle} : s.isAlive b = true → t.isAlive b = true → t.Holds a b →
    t.parent? b = s.parent? b
  tops (b : Handle) : t.Top b ↔ b ∈ T

namespace Since

variable {s t t' u : Store} {T T' : Set Handle}

/-- A disciplined store with all its tops. -/
theorem refl (hs : Disciplined s) : Since s { b | s.Top b } s :=
  ⟨.refl s, hs, fun _ _ h => h, fun _ _ _ => rfl, fun _ => Iff.rfl⟩

/-- One step after another: what was there at first is held by nobody who has come in the first
step. -/
theorem trans (h₁ : Since s T t) (h₂ : Since t T' u) (hu : Unwrapped u) : Since s T' u where
  evolves := h₁.evolves.trans h₂.evolves
  disciplined := h₂.disciplined
  settled hs hlast hab := by
    have ht := h₁.evolves.isAlive_between h₂.evolves hu hs hlast
    exact h₁.settled hs ht (h₂.settled ht hlast hab)
  placed hs hlast hab := by
    have ht := h₁.evolves.isAlive_between h₂.evolves hu hs hlast
    rw [h₂.placed ht hlast hab, h₁.placed hs ht (h₂.settled ht hlast hab)]
  tops := h₂.tops

theorem congr (h : Since s T t) (hT : ∀ b, b ∈ T ↔ b ∈ T') : Since s T' t :=
  ⟨h.evolves, h.disciplined, h.settled, h.placed, fun b => (h.tops b).trans (hT b)⟩

/-- The nodes that are named as tops are held by nobody. -/
theorem top (h : Since s T t) {b : Handle} (hb : b ∈ T) : t.Top b := (h.tops b).2 hb

/-- The nodes that are named as tops are alive. -/
theorem isAlive (h : Since s T t) {b : Handle} (hb : b ∈ T) : t.isAlive b = true := (h.top hb).1

theorem not_mem_of_holds (h : Since s T t) {a b : Handle} (hab : t.Holds a b) : b ∉ T :=
  fun hb => (h.top hb).2 a hab

/-- What comes in the second step was not there at the beginning. -/
theorem not_isAlive_of_fresh (h : Since s T t) (he : Evolves t t') (hu : Unwrapped t') {x : Handle}
    (hx : Fresh t t' x) : s.isAlive x = false := h.evolves.not_isAlive_of_fresh he hu hx

/-- A node that was there in the beginning is reached only from such nodes, along the
same way. -/
theorem reaches_back (h : Since s T t) {a b : Handle} (hb : s.isAlive b = true)
    (hlast : t.isAlive b = true) (hab : t.Reaches a b) : s.Reaches a b := by
  induction hab with
  | refl => exact .refl _ _
  | tail hway hstep ih =>
    have hold := h.settled hb hlast hstep
    exact (ih hold.isAlive hstep.isAlive).tail hold

-- ---------------------------------------------------------------------------
-- Kinds of edits
-- ---------------------------------------------------------------------------

/-- An edit after which nobody holds more than before. -/
theorem thin (h : Since s T t) (ht : Thinned t t') (hu : Unwrapped t') (hl : Linked t')
    (hlive : LiveChildren t') (htops : ∀ b, t'.Top b ↔ b ∈ T') : Since s T' t' where
  evolves := h.evolves.trans ht.evolves
  disciplined := h.disciplined.thin ht hu hl hlive
  settled hs hb hab := h.settled hs (ht.alive hb) (ht.holds hab hb)
  placed hs hb hab := by
    rw [← h.placed hs (ht.alive hb) (ht.holds hab hb)]
    exact h.disciplined.parent?_thin ht hl hab hb
  tops := htops

/-- An edit after which one more node is held, which was held by nobody and does not lead back. -/
theorem edge (h : Since s T t) {p c : Handle} (hj : Joined t p c t') (hc : c ∈ T)
    (hback : ¬ t.Reaches c p)
    (hold : s.isAlive c = true → s.Holds p c ∧ t'.parent? c = s.parent? c) (hu : Unwrapped t')
    (hl : Linked t') (hlive : LiveChildren t') : Since s (T \ {c}) t' where
  evolves := h.evolves.trans hj.evolves
  disciplined := h.disciplined.edge hj (h.top hc) hback hu hl hlive
  settled hs hb hab := by
    rw [hj.alive] at hb
    rcases (hj.holds hb).1 hab with hab | ⟨rfl, rfl⟩
    · exact h.settled hs hb hab
    · exact (hold hs).1
  placed {a b} hs hb hab := by
    rw [hj.alive] at hb
    rcases (hj.holds hb).1 hab with hab | ⟨-, rfl⟩
    -- the tree that is linked was on top, so no old node held it
    · have hne : b ≠ c := by
        rintro rfl
        exact (h.top hc).2 a hab
      rw [hj.placed hne, h.placed hs hb hab]
    · exact (hold hs).2
  tops b := by
    rw [hj.top_iff (h.top hc), h.tops]
    rfl

theorem allocate (h : Since s T t) (name : String) (hu : Unwrapped (t.allocate { name }).2) :
    Since s (T ∪ {(t.allocate { name }).1}) (t.allocate { name }).2 where
  evolves := h.evolves.trans (.allocate t _)
  disciplined := h.disciplined.allocate name hu
  settled {a b} hs hb hab := by
    have hold := (h.disciplined.balanced.holds_allocate name a b).1 hab
    rcases (h.disciplined.balanced.isAlive_allocate _ b).1 hb with hb | rfl
    · exact h.settled hs hb hold
    · exact absurd hold
        (h.disciplined.not_holds_allocate ((Evolves.allocate _ _).unwrapped hu) _ a)
  placed {a b} hs hb hab := by
    have hold := (h.disciplined.balanced.holds_allocate name a b).1 hab
    have hnew := h.disciplined.not_holds_allocate ((Evolves.allocate _ _).unwrapped hu) { name } a
    rcases (h.disciplined.balanced.isAlive_allocate _ b).1 hb with hb | rfl
    · rw [← h.placed hs hb hold]
      unfold parent?
      rw [h.disciplined.balanced.node?_allocate, if_neg]
      rintro rfl
      exact hnew hold
    -- nobody holds the node that is new
    · exact absurd hold hnew
  tops b := by
    rw [h.disciplined.top_allocate_iff ((Evolves.allocate _ _).unwrapped hu), h.tops]
    rfl

end Since

-- ---------------------------------------------------------------------------
-- Taking out of a place
-- ---------------------------------------------------------------------------

/-- A node without a parent is not changed by detaching it. -/
theorem detach_eq_self {s : Store} {h : Handle} (hp : s.parent? h = none) : s.detach h = s := by
  simp [detach, hp]

theorem Linked.owns_detach {s : Store} (hl : Linked s) {h o c : Handle} :
    (s.detach h).Owns o c ↔ s.Owns o c := by
  unfold Owns
  rw [hl.node?_detach]
  cases s.node? o with
  | none => simp
  | some n => simp [Node.owned?]

/-- After detaching nobody holds more than before. -/
theorem Linked.thinned_detach {t : Store} (hl : Linked t) (h : Handle) :
    Thinned t (t.detach h) where
  evolves := .detach t h
  alive hb := by rwa [isAlive_detach] at hb
  holds {a b} hab hb := by
    cases hh : t.isAlive h with
    | true => exact ((hl.holds_detach hh a b).1 hab).1
    | false => rwa [detach_eq_self (by simp [parent?, not_isAlive_iff.1 hh])] at hab
  owns ho := Or.inl (hl.owns_detach.1 ho)
  parent {c} hc := by
    unfold parent? at hc ⊢
    rw [hl.node?_detach]
    cases hn : t.node? c with
    | none => simp
    | some n =>
      rw [hn] at hc
      simpa using fun _ => hc

/-- A child that is taken out of its place is held by nobody. -/
theorem Disciplined.top_detach_iff {t : Store} (hd : Disciplined t) {p c : Handle}
    (hc : t.ChildOf c p) (b : Handle) : (t.detach c).Top b ↔ t.Top b ∨ b = c := by
  obtain ⟨m, hm, -⟩ := childOf_iff.1 hc
  have halive : t.isAlive c = true := isAlive_iff.2 ⟨m, hm⟩
  have hholds := hd.linked.holds_detach halive
  unfold Top
  rw [isAlive_detach]
  constructor
  · rintro ⟨hb, hnone⟩
    by_cases heq : b = c
    · exact Or.inr heq
    · exact Or.inl ⟨hb, fun a ha => hnone a ((hholds a b).2 ⟨ha, fun h => absurd h heq⟩)⟩
  · rintro (⟨hb, hnone⟩ | rfl)
    · exact ⟨hb, fun a ha => hnone a ((hholds a b).1 ha).1⟩
    · refine ⟨halive, fun a ha => ?_⟩
      have hroot := hd.apart (((hholds a b).1 ha).2 rfl) halive
      rw [show t.parent? b = some p from hc] at hroot
      simp at hroot

theorem Since.detach {s t : Store} {T : Set Handle} (h : Since s T t) {p c : Handle}
    (hc : t.ChildOf c p) (hu : Unwrapped (t.detach c)) : Since s (T ∪ {c}) (t.detach c) := by
  refine h.thin (h.disciplined.linked.thinned_detach c) hu (h.disciplined.linked.detach c)
    (h.disciplined.live.detach c) fun b => ?_
  rw [h.disciplined.top_detach_iff hc, h.tops]
  rfl

-- ---------------------------------------------------------------------------
-- Freeing
-- ---------------------------------------------------------------------------

namespace Disciplined

variable {s : Store}

/-- What a node reaches does not change when the node is taken out of its place. -/
theorem reaches_detach (hd : Disciplined s) {h x : Handle} :
    (s.detach h).Reaches h x ↔ s.Reaches h x := by
  cases hh : s.isAlive h with
  | false => rw [detach_eq_self (by simp [parent?, not_isAlive_iff.1 hh])]
  | true =>
    refine reaches_congr fun y z hy => (hd.linked.holds_detach hh y z).trans ?_
    refine and_iff_left_of_imp fun hstep heq => ?_
    subst heq
    exact absurd hy (hd.not_reaches_holder hstep)

/-- A removal frees exactly what the removed node leads to. -/
theorem isAlive_remove (hd : Disciplined s) (h x : Handle) :
    (s.remove h).isAlive x = true ↔ s.isAlive x = true ∧ ¬ s.Reaches h x := by
  unfold Store.remove
  split
  next => simp [isAlive_releaseAll, hd.reaches_detach]
  next hdead =>
    exact (and_iff_left_of_imp fun hx hreach => hdead (hreach.isAlive hx)).symm

/-- A node that is left has its value, and its parent unless it lost it. -/
theorem node?_remove (hd : Disciplined s) {h x : Handle} {m : Node}
    (hm : (s.remove h).node? x = some m) : ∃ n, s.node? x = some n ∧ m.value = n.value ∧
      (n.parent = none → m.parent = none) ∧ (∀ c ∈ m.children, c ∈ n.children) ∧
      ∀ c ∈ n.children, c ≠ h → c ∈ m.children := by
  unfold Store.remove at hm
  split at hm
  next halive =>
    have hdetach := ((node?_releaseAll_eq_some _ _ _ _).1 hm).1
    rw [hd.linked.node?_detach, Option.map_eq_some_iff] at hdetach
    obtain ⟨n, hn, rfl⟩ := hdetach
    refine ⟨n, hn, rfl, fun hp => by simp [hp], fun c hc => ?_, fun c hc hne => ?_⟩
    · rw [if_pos halive] at hc
      exact List.mem_of_mem_filter hc
    · rw [if_pos halive]
      exact List.mem_filter.2 ⟨hc, by simpa using hne⟩
  next => exact ⟨m, hm, rfl, id, fun _ hc => hc, fun _ hc _ => hc⟩

/-- After a removal nobody holds more than before. -/
theorem thinned_remove (hd : Disciplined s) (h : Handle) : Thinned s (s.remove h) where
  evolves := .remove s h
  alive hb := ((hd.isAlive_remove h _).1 hb).1
  holds {a b} hab _ := by
    obtain ⟨m, hm, hb⟩ := hab
    obtain ⟨n, hn, hvalue, -, hchildren, -⟩ := hd.node?_remove hm
    refine ⟨n, hn, hb.imp (hchildren b) fun ho => ?_⟩
    rwa [Node.owned?, ← hvalue]
  owns {o c} ho := by
    obtain ⟨m, hm, hown⟩ := owns_iff.1 ho
    obtain ⟨n, hn, hvalue, -, -, -⟩ := hd.node?_remove hm
    exact Or.inl (owns_iff.2 ⟨n, hn, by rwa [Node.owned?, ← hvalue]⟩)
  parent {c} hc := by
    unfold parent? at hc ⊢
    cases hm : (s.remove h).node? c with
    | none => rfl
    | some m =>
      obtain ⟨n, hn, -, hparent, -, -⟩ := hd.node?_remove hm
      rw [hn] at hc
      exact hparent hc

/-- A node that is left is held as before. -/
theorem holds_remove_of_isAlive (hd : Disciplined s) {h a b : Handle} (hab : s.Holds a b)
    (hb : (s.remove h).isAlive b = true) : (s.remove h).Holds a b := by
  have hnot := ((hd.isAlive_remove h b).1 hb).2
  have ha : (s.remove h).isAlive a = true :=
    (hd.isAlive_remove h a).2 ⟨hab.isAlive, fun hreach => hnot (hreach.tail hab)⟩
  obtain ⟨m, hm⟩ := isAlive_iff.1 ha
  obtain ⟨n, hn, hvalue, -, -, hkept⟩ := hd.node?_remove hm
  refine ⟨m, hm, ((holds_iff hn).1 hab).imp (fun hmem => hkept b hmem ?_) fun ho => ?_⟩
  · rintro rfl
    exact hnot (.refl _ _)
  · rwa [Node.owned?, hvalue]

end Disciplined

theorem Since.remove {s t : Store} {T : Set Handle} (h : Since s T t) (c : Handle)
    (hu : Unwrapped (t.remove c)) : Since s (T \ {c}) (t.remove c) := by
  have hd := h.disciplined
  refine h.thin (hd.thinned_remove c) hu (hd.linked.remove c (Or.inl hu))
    (hd.live.remove hd.linked hd.ownsApart c) fun b => ?_
  rw [(hd.thinned_remove c).top_iff hd.holds_remove_of_isAlive, h.tops, hd.isAlive_remove]
  refine and_congr_right fun hb => ?_
  have htop := h.top hb
  constructor
  · rintro ⟨-, hnot⟩ rfl
    exact hnot (.refl _ _)
  · exact fun hne => ⟨htop.1, fun hreach => hne (htop.eq_of_reaches hreach).symm⟩

/-- Freeing a node that somebody holds leaves the tops as they are. -/
theorem Since.remove_held {s t : Store} {T : Set Handle} (h : Since s T t) {a c : Handle}
    (hc : t.Holds a c) (hu : Unwrapped (t.remove c)) : Since s T (t.remove c) := by
  refine (h.remove c hu).congr fun b => ?_
  have hnot := h.not_mem_of_holds hc
  exact ⟨And.left, fun hb => ⟨hb, by rintro rfl; exact hnot hb⟩⟩

-- ---------------------------------------------------------------------------
-- Freeing all children
-- ---------------------------------------------------------------------------

/-- Nodes that do not reach each other can be freed one by one. -/
theorem removeEach_isOk {s : Store} {hs : List Handle} (halive : ∀ h ∈ hs, s.isAlive h = true)
    (hpair : hs.Pairwise fun a b => ¬ s.Reaches a b) : ∃ s', s.removeEach hs = .ok s' := by
  induction hs generalizing s with
  | nil => exact ⟨s, rfl⟩
  | cons h rest ih =>
    obtain ⟨hh, hrest⟩ := List.forall_mem_cons.1 halive
    obtain ⟨hfirst, hpair⟩ := List.pairwise_cons.1 hpair
    set t := s.modify h fun n => { n with parent := none } with ht
    have hreaches : ∀ a b, t.Reaches a b ↔ s.Reaches a b :=
      reaches_modify (fun _ => rfl) fun _ => rfl
    have hsub : ∀ a b, (t.releaseAll [h]).Reaches a b → s.Reaches a b := fun a b hab =>
      (hreaches a b).1 (hab.mono fun x y hxy => ((holds_releaseAll t [h] x y).1 hxy).1)
    obtain ⟨s', hs'⟩ := ih (s := t.releaseAll [h])
      (fun x hx => (isAlive_releaseAll _ _ _).2
        ⟨by rw [ht, isAlive_modify]; exact hrest x hx, by simpa [hreaches] using hfirst x hx⟩)
      (hpair.imp fun hab hab' => hab (hsub _ _ hab'))
    exact ⟨s', by rw [Store.removeEach, if_pos hh, hs']⟩

/-- A node whose list of children has been emptied holds what it owns. -/
theorem holds_modify_children_nil {s : Store} {h a b : Handle} :
    (s.modify h fun n => { n with children := [] }).Holds a b ↔
      s.Holds a b ∧ (a = h → s.Owns a b) := by
  unfold Holds Owns
  rw [node?_modify]
  by_cases ha : a = h
  · subst ha
    cases hn : s.node? a with
    | none => simp
    | some n =>
      simp only [if_true, Option.map_some, Option.some.injEq, exists_eq_left', List.not_mem_nil,
        false_or, Option.bind_some, true_imp_iff, Node.owned?]
      exact ⟨fun ho => ⟨Or.inr ho, ho⟩, And.right⟩
  · simp [ha]

namespace Disciplined

variable {s s' : Store}

/-- A child of a node reaches the same nodes when the node lists nobody any more. -/
theorem reaches_childless (hd : Disciplined s) {h c x : Handle} (hc : c ∈ s.childList h) :
    (s.modify h fun n => { n with children := [] }).Reaches c x ↔ s.Reaches c x := by
  refine reaches_congr fun y z hy => holds_modify_children_nil.trans ?_
  refine and_iff_left_of_imp fun _ heq => ?_
  subst heq
  exact absurd hy (hd.not_reaches_holder (holds_iff_childList.2 (Or.inl hc)))

/-- An owned node reaches the same nodes whatever the value of its owner becomes. -/
theorem reaches_owned (hd : Disciplined s) {h g x : Handle} (hown : s.Owns h g)
    (v : Option Value) :
    (s.modify h fun n => { n with value := v }).Reaches g x ↔ s.Reaches g x := by
  refine reaches_congr fun y z hy => ?_
  rw [holds_modify_value, if_neg]
  rintro rfl
  exact hd.not_reaches_holder hown.holds hy

/-- The children of a live node can be freed. -/
theorem clear_isOk (hd : Disciplined s) {h : Handle} (hh : s.isAlive h = true) :
    ∃ s', s.clear h = .ok s' := by
  obtain ⟨n, hn⟩ := isAlive_iff.1 hh
  have hmem : ∀ c ∈ n.children, c ∈ s.childList h := fun c hc => by rwa [childList_eq hn]
  have halive : ∀ c ∈ n.children,
      (s.modify h fun n => { n with children := [] }).isAlive c = true := fun c hc => by
    rw [isAlive_modify]
    exact hd.live hn hc
  obtain ⟨s', hs'⟩ := removeEach_isOk halive <|
    (hd.linked.nodup hn).imp_of_mem fun {c d} hc hdmem hne hreach => by
      rw [hd.reaches_childless (hmem c hc)] at hreach
      have hholds : s.Holds h d := ⟨n, hn, Or.inl hdmem⟩
      rcases hd.reaches_holder (hd.live hn hdmem) hholds hreach with heq | hback
      · exact hne heq
      · exact hd.not_reaches_holder ⟨n, hn, Or.inl hc⟩ hback
  refine ⟨s', ?_⟩
  rw [Store.clear, children_eq_ok.2 ⟨n, hn, rfl⟩]
  exact hs'

/-- A node that is left after freeing children is as it was, but lists nobody if it is
the one whose children have been freed. -/
theorem node?_clear_iff (hd : Disciplined s) {h : Handle} (hok : s.clear h = .ok s') (x : Handle)
    (m : Node) : s'.node? x = some m ↔
      (s.modify h fun n => { n with children := [] }).node? x = some m ∧
        ∀ c ∈ s.childList h, ¬ s.Reaches c x := by
  obtain ⟨n, hn, hremove⟩ := clear_eq_ok hok
  rw [node?_removeEach_eq_some hremove, childList_eq hn]
  refine and_congr_right fun _ => forall₂_congr fun c hc => not_congr (hd.reaches_childless ?_)
  rwa [childList_eq hn]

/-- Clearing frees exactly what the children lead to. -/
theorem isAlive_clear (hd : Disciplined s) {h : Handle} (hok : s.clear h = .ok s') (x : Handle) :
    s'.isAlive x = true ↔ s.isAlive x = true ∧ ∀ c ∈ s.childList h, ¬ s.Reaches c x := by
  rw [← isAlive_modify s h fun n => { n with children := [] }]
  simp only [isAlive_iff, hd.node?_clear_iff hok]
  exact ⟨fun ⟨m, hm, hnot⟩ => ⟨⟨m, hm⟩, hnot⟩, fun ⟨⟨m, hm⟩, hnot⟩ => ⟨m, hm, hnot⟩⟩

/-- After clearing, a node holds what it owns, and every other one that is left holds what it held.
-/
theorem holds_clear_iff (hd : Disciplined s) {h : Handle} (hok : s.clear h = .ok s')
    (a b : Handle) : s'.Holds a b ↔
      (s.Holds a b ∧ (a = h → s.Owns a b)) ∧ ∀ c ∈ s.childList h, ¬ s.Reaches c a := by
  rw [← holds_modify_children_nil]
  simp only [Holds, hd.node?_clear_iff hok]
  constructor
  · rintro ⟨m, ⟨hm, hnot⟩, hb⟩
    exact ⟨⟨m, hm, hb⟩, hnot⟩
  · rintro ⟨⟨m, hm, hb⟩, hnot⟩
    exact ⟨m, ⟨hm, hnot⟩, hb⟩

/-- After clearing nobody holds more than before. -/
theorem thinned_clear (hd : Disciplined s) {h : Handle} (hok : s.clear h = .ok s') :
    Thinned s s' where
  evolves := .clear hok
  alive hb := ((hd.isAlive_clear hok _).1 hb).1
  holds hab _ := ((hd.holds_clear_iff hok _ _).1 hab).1.1
  owns {o c} ho := by
    obtain ⟨m, hm, hown⟩ := owns_iff.1 ho
    have hold := ((hd.node?_clear_iff hok o m).1 hm).1
    rw [node?_modify] at hold
    split at hold
    -- only the node itself was changed, and what it owned has gone with its value
    next heq =>
      obtain ⟨n, hn, rfl⟩ := Option.map_eq_some_iff.1 hold
      exact Or.inl (owns_iff.2 ⟨n, heq ▸ hn, hown⟩)
    next => exact Or.inl (owns_iff.2 ⟨m, hold, hown⟩)
  parent {c} hc := by
    unfold parent? at hc ⊢
    cases hm : s'.node? c with
    | none => rfl
    | some m =>
      have hold := ((hd.node?_clear_iff hok c m).1 hm).1
      rw [node?_modify] at hold
      split at hold
      next heq =>
        obtain ⟨n, hn, rfl⟩ := Option.map_eq_some_iff.1 hold
        rw [heq, hn] at hc
        exact hc
      next =>
        rw [hold] at hc
        exact hc

/-- Who is still alive after clearing is still held. -/
theorem holds_clear_of_isAlive (hd : Disciplined s) {h : Handle} (hok : s.clear h = .ok s')
    {a b : Handle} (hab : s.Holds a b) (hb : s'.isAlive b = true) : s'.Holds a b := by
  have hnot := ((hd.isAlive_clear hok b).1 hb).2
  refine (hd.holds_clear_iff hok a b).2 ⟨⟨hab, ?_⟩, fun c hc hreach => hnot c hc (hreach.tail hab)⟩
  rintro rfl
  rcases holds_iff_childList.1 hab with hmem | hown
  · exact absurd (.refl _ _) (hnot b hmem)
  · exact hown

/-- A node does not go away when its children are freed. -/
theorem isAlive_clear_self (hd : Disciplined s) {h : Handle} (hok : s.clear h = .ok s') :
    s'.isAlive h = true := by
  obtain ⟨n, hn, -⟩ := clear_eq_ok hok
  refine (hd.isAlive_clear hok h).2 ⟨isAlive_iff.2 ⟨n, hn⟩, fun c hc => ?_⟩
  exact hd.not_reaches_holder (holds_iff_childList.2 (Or.inl hc))

theorem childList_clear_self (hd : Disciplined s) {h : Handle} (hok : s.clear h = .ok s') :
    s'.childList h = [] := by
  obtain ⟨m, hm⟩ := isAlive_iff.1 (hd.isAlive_clear_self hok)
  have hold := ((hd.node?_clear_iff hok h m).1 hm).1
  obtain ⟨n, -, rfl⟩ : ∃ n, s.node? h = some n ∧ { n with children := [] } = m := by
    simpa [node?_modify, Option.map_eq_some_iff] using hold
  rw [childList_eq hm]

end Disciplined

theorem Since.clear {s t t' : Store} {T : Set Handle} (h : Since s T t) {x : Handle}
    (hok : t.clear x = .ok t') (hu : Unwrapped t') : Since s T t' := by
  have hd := h.disciplined
  refine h.thin (hd.thinned_clear hok) hu (hd.linked.clear hok (Or.inl hu))
    (hd.live.clear hd.linked hd.ownsApart hok) fun b => ?_
  rw [(hd.thinned_clear hok).top_iff (hd.holds_clear_of_isAlive hok), h.tops, hd.isAlive_clear hok]
  -- what nobody holds is not below a child
  refine and_iff_left_of_imp fun hb => ⟨h.isAlive hb, fun c hc => ?_⟩
  exact (h.top hb).not_reaches (holds_iff_childList.2 (Or.inl hc))

-- ---------------------------------------------------------------------------
-- New places
-- ---------------------------------------------------------------------------

theorem Top.parent? {s : Store} (hl : Linked s) {c : Handle} (hc : s.Top c) :
    s.parent? c = none := by
  cases hp : s.parent? c with
  | none => rfl
  | some p => exact absurd (holds_of_childOf hl hp) (hc.2 p)

theorem owns_link {s : Store} {p c : Handle} (hne : p ≠ c) {i : Nat} {o x : Handle} :
    (s.link p i c).Owns o x ↔ s.Owns o x := by
  unfold Owns
  rw [node?_link hne]
  cases s.node? o with
  | none => simp
  | some n => simp [Node.owned?]

/-- Linking a top adds the one edge from its new parent. -/
theorem Disciplined.joined_link {t : Store} (hd : Disciplined t) {p c : Handle} {n : Node}
    (hn : t.node? p = some n) (hc : t.Top c) (hne : p ≠ c) {i : Nat}
    (hi : i ≤ n.children.length) : Joined t p c (t.link p i c) where
  evolves := .link t p i c
  alive b := isAlive_link t p i c b
  holds _ := holds_link hn hne hi _ _
  owns ho := hd.issued ((owns_link hne).1 ho)
  apart {o x} ho hx := by
    have hown := (owns_link hne).1 ho
    -- an owned tree is not the one that gets a parent, which nobody held
    have hxc : x ≠ c := by
      rintro rfl
      exact hc.2 o hown.holds
    have hroot := hd.apart hown hx
    unfold Store.parent? at hroot ⊢
    rw [node?_link hne]
    cases hm : t.node? x with
    | none => rfl
    | some m =>
      rw [hm] at hroot
      simpa [hxc] using hroot
  placed {x} hx := by
    unfold Store.parent?
    rw [node?_link hne]
    cases t.node? x with
    | none => rfl
    | some m => simp [hx]

/-- A top that is linked below another node is held from then on. It may have been there at the
beginning only if it was that node's child then. -/
theorem Since.link {s t : Store} {T : Set Handle} (h : Since s T t) {p c : Handle} {n : Node}
    (hn : t.node? p = some n) (hc : c ∈ T) (hback : ¬ t.Reaches c p)
    (hold : s.isAlive c = true → s.Holds p c ∧ s.ChildOf c p) {i : Nat}
    (hi : i ≤ n.children.length) (hu : Unwrapped (t.link p i c)) :
    Since s (T \ {c}) (t.link p i c) := by
  have hd := h.disciplined
  have htop := h.top hc
  have hne : p ≠ c := by
    rintro rfl
    exact hback (.refl _ _)
  obtain ⟨m, hm⟩ := isAlive_iff.1 htop.1
  have hroot : m.parent = none := by simpa [Store.parent?, hm] using htop.parent? hd.linked
  have hplace : (t.link p i c).parent? c = some p := by
    rw [Store.parent?, node?_link hne, hm]
    simp
  exact h.edge (hd.joined_link hn htop hne hi) hc hback
    (fun hs => ⟨(hold hs).1, hplace.trans (hold hs).2.symm⟩) hu
    (hd.linked.link hn hm hroot hi fun hup => hback (reaches_of_up hd.linked hup))
    (hd.live.link p i htop.1)

/-- A node that nobody holds, or that has a parent, can be moved below another that it
does not reach. -/
theorem Since.moveBelow {s t t' : Store} {T : Set Handle} (h : Since s T t) {p c : Handle}
    {index : Nat} (hok : t.moveBelow p index c = .ok t') (hc : c ∈ T ∨ ∃ q, t.ChildOf c q)
    (hback : ¬ t.Reaches c p) (hold : s.isAlive c = true → s.Holds p c ∧ s.ChildOf c p)
    (hu : Unwrapped t') : Since s (T \ {c}) t' := by
  obtain ⟨hp, -, i, hi, rfl⟩ := moveBelow_eq_ok hok
  obtain ⟨n, hn⟩ := isAlive_iff.1 ((isAlive_detach t c p).trans hp)
  rw [childList_eq hn] at hi
  rcases hc with hc | ⟨q, hq⟩
  · rw [detach_eq_self ((h.top hc).parent? h.disciplined.linked)] at hn hu ⊢
    exact h.link hn hc hback hold hi hu
  · have hdetach := h.detach hq ((Evolves.link _ _ _ _).unwrapped hu)
    refine (hdetach.link hn (Or.inr rfl) ?_ hold hi hu).congr fun b => ?_
    · rwa [h.disciplined.reaches_detach]
    · simp only [Set.mem_sdiff, Set.mem_union, Set.mem_singleton_iff]
      tauto

theorem isAlive_moveBelow {t t' : Store} {p c : Handle} {index : Nat}
    (hok : t.moveBelow p index c = .ok t') (x : Handle) : t'.isAlive x = t.isAlive x := by
  obtain ⟨-, -, i, -, rfl⟩ := moveBelow_eq_ok hok
  rw [isAlive_link, isAlive_detach]

/-- A live node can be moved below a live one. -/
theorem moveBelow_isOk {t : Store} {p c : Handle} (hp : t.isAlive p = true)
    (hc : t.isAlive c = true) (index : Nat) : ∃ t', t.moveBelow p index c = .ok t' := by
  simp [Store.moveBelow, hp, hc]

end TreeScript.Store
