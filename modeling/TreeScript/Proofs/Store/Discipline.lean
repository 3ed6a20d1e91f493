import TreeScript.Proofs.Store.Holding

/-!
# TreeScript — single ownership

In a disciplined store parents and children agree, a node that another node owns has
no parent, nobody is held twice and nobody holds itself. The live nodes then form
trees, and each tree ends in one node that nobody holds.

* `Top` — a node that nobody holds;
* `Disciplined` — the invariant;
* `Thinned`, `Disciplined.thin` — edits after which nothing is held anew;
* `Disciplined.edge` — edits that let one node hold one more;
* `Disciplined.allocate` — new nodes;
* `Disciplined.exists_top` — from every live node the way up ends;
* `of_holds_below`, `Disciplined.of_holds` — so does the way down.
-/

namespace TreeScript.Store

/-- A live node that nobody holds. -/
def Top (s : Store) (b : Handle) : Prop := s.isAlive b = true ∧ ∀ a, ¬ s.Holds a b

/-- The books are in order, parents and children agree, every listed child is alive; a
live node that is owned as a value has no parent; no live node is held by two nodes;
no node holds itself through others; and only handles that the store has given out are
owned. -/
structure Disciplined (s : Store) : Prop where
  balanced : Balanced s
  linked : Linked s
  live : LiveChildren s
  apart {o c : Handle} : s.Owns o c → s.isAlive c = true → s.parent? c = none
  unique {a a' b : Handle} : s.isAlive b = true → s.Holds a b → s.Holds a' b → a = a'
  acyclic (x : Handle) : ¬ Relation.TransGen s.Holds x x
  issued {o c : Handle} : s.Owns o c → s.Issued c

theorem Owns.holds {s : Store} {o c : Handle} (ho : s.Owns o c) : s.Holds o c := by
  obtain ⟨n, hn, hown⟩ := owns_iff.1 ho
  exact ⟨n, hn, Or.inr hown⟩

/-- A node holds its children and what it owns. -/
theorem holds_iff_childList {s : Store} {a b : Handle} :
    s.Holds a b ↔ b ∈ s.childList a ∨ s.Owns a b := by
  unfold Holds Owns childList
  cases s.node? a with
  | none => simp
  | some n => simp

theorem holds_of_childOf {s : Store} (hl : Linked s) {c p : Handle} (hc : s.ChildOf c p) :
    s.Holds p c := by
  obtain ⟨m, hm, hp⟩ := childOf_iff.1 hc
  obtain ⟨n, hn, hmem⟩ := hl.lists hm hp
  exact ⟨n, hn, Or.inl hmem⟩

theorem disciplined_empty : Disciplined empty := by
  have hnone : ∀ h, empty.node? h = none := fun h => by simp [node?, empty]
  have howns : ∀ o c, ¬ empty.Owns o c := fun o c ho => by simp [Owns, hnone] at ho
  have hholds : ∀ a b, ¬ empty.Holds a b := by
    rintro a b ⟨n, hn, -⟩
    simp [hnone] at hn
  refine ⟨balanced_empty, linked_empty, liveChildren_empty, fun ho => absurd ho (howns _ _),
    fun _ ha => absurd ha (hholds _ _), fun x hx => ?_, fun ho => absurd ho (howns _ _)⟩
  obtain ⟨y, hxy, -⟩ := Relation.TransGen.head'_iff.1 hx
  exact hholds x y hxy

/-- Whoever stands above a node reaches it. -/
theorem reaches_of_up {s : Store} (hl : Linked s) {h a : Handle}
    (hup : Relation.ReflTransGen s.ChildOf h a) : s.Reaches a h := by
  induction hup with
  | refl => exact .refl _ _
  | tail _ hstep ih => exact .head (holds_of_childOf hl hstep) ih

/-- The topmost node above a node stands above it. -/
theorem root?_eq_some {t : Store} {h r : Handle} (hr : t.root? h = some r) :
    t.isAlive h = true ∧ Relation.ReflTransGen t.ChildOf h r := by
  unfold root? at hr
  split at hr
  next halive =>
    refine ⟨halive, ?_⟩
    cases hlast : (t.ancestors h).getLast? with
    | none =>
      obtain rfl : h = r := by simpa [hlast] using hr
      exact .refl
    | some a =>
      obtain rfl : a = r := by simpa [hlast] using hr
      exact (transGen_of_mem_ancestorsWithin (List.mem_of_getLast? hlast)).to_reflTransGen
  next => simp at hr

theorem Linked.isAlive_root? {t : Store} (hl : Linked t) {h r : Handle} (hr : t.root? h = some r) :
    t.isAlive r = true := by
  obtain ⟨halive, hup⟩ := root?_eq_some hr
  rcases Relation.ReflTransGen.cases_tail hup with rfl | ⟨x, -, hx⟩
  · exact halive
  · exact hl.isAlive_parent hx

/-- What nobody holds is reached from itself only. -/
theorem Top.eq_of_reaches {s : Store} {a b : Handle} (hb : s.Top b) (hab : s.Reaches a b) :
    a = b := by
  rcases hab.cases_last with heq | ⟨c, -, hc⟩
  · exact heq
  · exact absurd hc (hb.2 c)

/-- Nothing that is held leads to what nobody holds. -/
theorem Top.not_reaches {s : Store} {a b c : Handle} (hb : s.Top b) (hac : s.Holds a c) :
    ¬ s.Reaches c b := fun hreach => hb.2 a (hb.eq_of_reaches hreach ▸ hac)

namespace Disciplined

variable {s t t' : Store}

theorem ownsApart (hs : Disciplined s) : OwnsApart s := by
  intro o c _ ho
  cases hc : s.isAlive c with
  | true => exact hs.apart ho hc
  | false => simp [parent?, not_isAlive_iff.1 hc]

/-- A node does not come back to who holds it. -/
theorem not_reaches_holder (hs : Disciplined s) {a b : Handle} (hab : s.Holds a b) :
    ¬ s.Reaches b a := fun hba => hs.acyclic a (Relation.TransGen.head' hab hba)

/-- What a live node is reached through is who holds it. -/
theorem reaches_holder (hs : Disciplined s) {a b h : Handle} (hb : s.isAlive b = true)
    (hab : s.Holds a b) (hreach : s.Reaches h b) : h = b ∨ s.Reaches h a := by
  rcases hreach.cases_last with heq | ⟨d, hhd, hdb⟩
  · exact Or.inl heq
  · exact Or.inr (hs.unique hb hdb hab ▸ hhd)

/-- Whatever a node lists is a child of it. -/
theorem childOf_of_mem (hs : Disciplined s) {x p : Handle} (hx : x ∈ s.childList p) :
    s.ChildOf x p := by
  obtain ⟨k, hk⟩ := isAlive_iff.1 (hs.live.of_mem_childList hx)
  cases hn : s.node? p with
  | none => simp [childList, hn] at hx
  | some n => exact childOf_iff.2 ⟨k, hk, hs.linked.listed hn (by rwa [childList_eq hn] at hx) hk⟩

/-- A held handle has been given out. -/
theorem issued_of_holds (hs : Disciplined s) {a b : Handle} (hab : s.Holds a b) : s.Issued b := by
  rcases holds_iff_childList.1 hab with hmem | hown
  · exact Or.inr (hs.live.of_mem_childList hmem)
  · exact hs.issued hown

/-- What a live node leads to is read the same while nodes come. -/
theorem fixed (hs : Disciplined s) (hu : Unwrapped s) {a b : Handle} (ha : s.isAlive a = true)
    (hab : s.Reaches a b) : s.Fixed b := by
  rcases Relation.ReflTransGen.cases_tail hab with rfl | ⟨x, -, hxb⟩
  · exact Or.inl ha
  · exact Or.inr ⟨hs.issued_of_holds hxb, hu⟩

end Disciplined

-- ---------------------------------------------------------------------------
-- Nothing held anew
-- ---------------------------------------------------------------------------

/-- An edit after which nobody is alive, held or a child that was not so before; what is
owned anew is a handle that has been freed. -/
structure Thinned (t t' : Store) : Prop where
  evolves : Evolves t t'
  alive {b : Handle} : t'.isAlive b = true → t.isAlive b = true
  holds {a b : Handle} : t'.Holds a b → t'.isAlive b = true → t.Holds a b
  owns {o c : Handle} : t'.Owns o c → t.Owns o c ∨ t.isAlive c = false ∧ t.Issued c
  parent {c : Handle} : t.parent? c = none → t'.parent? c = none

/-- What was stale is stale when nobody holds more than before. -/
theorem Thinned.not_isAlive {t t' : Store} (ht : Thinned t t') {x : Handle}
    (hx : t.isAlive x = false) : t'.isAlive x = false := by
  rw [← Bool.not_eq_true] at hx ⊢
  exact fun hx' => hx (ht.alive hx')

/-- A way down to a live node was one before. -/
theorem Thinned.transGen {t t' : Store} (ht : Thinned t t') {x y : Handle}
    (hxy : Relation.TransGen t'.Holds x y) (hy : t'.isAlive y = true) :
    Relation.TransGen t.Holds x y := by
  induction hxy with
  | single hstep => exact .single (ht.holds hstep hy)
  | tail _ hstep ih => exact (ih hstep.isAlive).tail (ht.holds hstep hy)

/-- What is reached after such an edit was reached before. -/
theorem Thinned.reaches {t t' : Store} (ht : Thinned t t') {x y : Handle} (hxy : t'.Reaches x y)
    (hy : t'.isAlive y = true) : t.Reaches x y := by
  rcases Relation.reflTransGen_iff_eq_or_transGen.1 hxy with rfl | hxy
  · exact .refl _ _
  · exact (ht.transGen hxy hy).to_reflTransGen

/-- Discipline stays when nobody holds more than before. -/
theorem Disciplined.thin {t t' : Store} (hd : Disciplined t) (ht : Thinned t t')
    (hu : Unwrapped t') (hl : Linked t') (hlive : LiveChildren t') : Disciplined t' where
  balanced := ht.evolves.balanced hd.balanced
  linked := hl
  live := hlive
  apart ho hc := by
    rcases ht.owns ho with hold | ⟨hdead, -⟩
    · exact ht.parent (hd.apart hold (ht.alive hc))
    · simp [ht.alive hc] at hdead
  unique hb h₁ h₂ := hd.unique (ht.alive hb) (ht.holds h₁ hb) (ht.holds h₂ hb)
  acyclic x hx := by
    obtain ⟨y, hxy, -⟩ := Relation.TransGen.head'_iff.1 hx
    exact hd.acyclic x (ht.transGen hx hxy.isAlive)
  issued ho := by
    rcases ht.owns ho with hold | ⟨-, hissued⟩
    · exact ht.evolves.issued hu (hd.issued hold)
    · exact ht.evolves.issued hu hissued

/-- A node that is still held has the same parent. -/
theorem Disciplined.parent?_thin {t t' : Store} (hd : Disciplined t) (ht : Thinned t t')
    (hl : Linked t') {a b : Handle} (hab : t'.Holds a b) (hb : t'.isAlive b = true) :
    t'.parent? b = t.parent? b := by
  have hold := ht.holds hab hb
  cases hp : t.parent? b with
  | none => exact ht.parent hp
  | some p =>
    obtain rfl := hd.unique (ht.alive hb) hold (holds_of_childOf hd.linked hp)
    obtain ⟨n, hn, hmem | hown⟩ := hab
    · obtain ⟨m, hm⟩ := isAlive_iff.1 hb
      exact childOf_iff.2 ⟨m, hm, hl.listed hn hmem hm⟩
    · -- what is owned has been owned before, and has no parent
      rcases ht.owns (owns_iff.2 ⟨n, hn, hown⟩) with hown | ⟨hdead, -⟩
      · simp [hd.apart hown (ht.alive hb)] at hp
      · simp [ht.alive hb] at hdead

/-- If a thinned store lets go of nobody who is left, its tops are those that are left. -/
theorem Thinned.top_iff {t t' : Store} (ht : Thinned t t')
    (hkept : ∀ {a b}, t.Holds a b → t'.isAlive b = true → t'.Holds a b) (b : Handle) :
    t'.Top b ↔ t.Top b ∧ t'.isAlive b = true := by
  constructor
  · rintro ⟨hb, hnone⟩
    exact ⟨⟨ht.alive hb, fun a ha => hnone a (hkept ha hb)⟩, hb⟩
  · rintro ⟨⟨-, hnone⟩, hb⟩
    exact ⟨hb, fun a ha => hnone a (ht.holds ha hb)⟩

-- ---------------------------------------------------------------------------
-- One more held
-- ---------------------------------------------------------------------------

/-- An edit after which one node holds one that nobody held, and that does not lead back
to it. -/
structure Joined (t : Store) (p c : Handle) (t' : Store) : Prop where
  evolves : Evolves t t'
  alive (b : Handle) : t'.isAlive b = t.isAlive b
  holds {a b : Handle} : t.isAlive b = true → (t'.Holds a b ↔ t.Holds a b ∨ a = p ∧ b = c)
  owns {o x : Handle} : t'.Owns o x → t.Issued x
  apart {o x : Handle} : t'.Owns o x → t.isAlive x = true → t'.parent? x = none
  placed {x : Handle} : x ≠ c → t'.parent? x = t.parent? x

/-- One more edge makes no circle if its end does not lead back to its start. -/
theorem Joined.transGen_acyclic {t t' : Store} {p c : Handle} (hd : Disciplined t)
    (hj : Joined t p c t') (hback : ¬ t.Reaches c p) (x : Handle) :
    ¬ Relation.TransGen t'.Holds x x := by
  -- on a circle every node is alive, so its edges are old ones or the new one
  have hlift : ∀ {x y}, Relation.TransGen t'.Holds x y → t.isAlive y = true →
      Relation.TransGen (fun a b => t.Holds a b ∨ a = p ∧ b = c) x y := by
    intro x y hxy hy
    induction hxy with
    | single hstep => exact .single ((hj.holds hy).1 hstep)
    | tail _ hstep ih =>
      exact (ih (by rw [← hj.alive]; exact hstep.isAlive)).tail ((hj.holds hy).1 hstep)
  intro hx
  obtain ⟨y, hxy, -⟩ := Relation.TransGen.head'_iff.1 hx
  exact acyclic_of_extra_edge (fun _ _ h => h) hd.acyclic hback x
    (hlift hx (by rw [← hj.alive]; exact hxy.isAlive))

/-- Discipline stays when a top becomes held that does not lead back. -/
theorem Disciplined.edge {t t' : Store} {p c : Handle} (hd : Disciplined t) (hj : Joined t p c t')
    (hc : t.Top c) (hback : ¬ t.Reaches c p) (hu : Unwrapped t') (hl : Linked t')
    (hlive : LiveChildren t') : Disciplined t' where
  balanced := hj.evolves.balanced hd.balanced
  linked := hl
  live := hlive
  apart ho hx := hj.apart ho (by rw [← hj.alive]; exact hx)
  unique {a a' b} hb h₁ h₂ := by
    rw [hj.alive] at hb
    rcases (hj.holds hb).1 h₁, (hj.holds hb).1 h₂ with ⟨h₁ | ⟨ha, hbc⟩, h₂ | ⟨ha', hbc'⟩⟩
    · exact hd.unique hb h₁ h₂
    · exact absurd (hbc' ▸ h₁) (hc.2 a)
    · exact absurd (hbc ▸ h₂) (hc.2 a')
    · exact ha.trans ha'.symm
  acyclic := hj.transGen_acyclic hd hback
  issued ho := hj.evolves.issued hu (hj.owns ho)

/-- Only the node that is held now is no top any more. -/
theorem Joined.top_iff {t t' : Store} {p c : Handle} (hj : Joined t p c t') (hc : t.Top c)
    (b : Handle) : t'.Top b ↔ t.Top b ∧ b ≠ c := by
  constructor
  · rintro ⟨hb, hnone⟩
    rw [hj.alive] at hb
    refine ⟨⟨hb, fun a ha => hnone a ((hj.holds hb).2 (Or.inl ha))⟩, ?_⟩
    rintro rfl
    exact hnone p ((hj.holds hb).2 (Or.inr ⟨rfl, rfl⟩))
  · rintro ⟨⟨hb, hnone⟩, hne⟩
    refine ⟨by rw [hj.alive]; exact hb, fun a ha => ?_⟩
    rcases (hj.holds hb).1 ha with hold | ⟨-, rfl⟩
    · exact hnone a hold
    · exact hne rfl

-- ---------------------------------------------------------------------------
-- New nodes
-- ---------------------------------------------------------------------------

/-- A new node is held by nobody: its handle has not been given out. -/
theorem Disciplined.not_holds_allocate {s : Store} (hd : Disciplined s) (hu : Unwrapped s)
    (n : Node) (a : Handle) : ¬ s.Holds a (s.allocate n).1 := by
  intro ha
  exact hd.balanced.not_issued_allocate hu n (hd.issued_of_holds ha)

/-- A new node holds nobody, and everybody else whom they held. -/
theorem Balanced.holds_allocate {s : Store} (hs : Balanced s) (name : String) (a b : Handle) :
    (s.allocate { name }).2.Holds a b ↔ s.Holds a b := by
  have hcreate := hs.holds_create name (v := none) (by simp) a b
  simpa [create_none] using hcreate

theorem Balanced.owns_allocate {s : Store} (hs : Balanced s) {name : String} {o c : Handle}
    (ho : (s.allocate { name }).2.Owns o c) : s.Owns o c := by
  unfold Owns at ho ⊢
  rw [hs.node?_allocate] at ho
  split at ho
  next => simp [Node.owned?] at ho
  next => exact ho

/-- A new node is alive, and nobody else has come. -/
theorem Balanced.isAlive_allocate {s : Store} (hs : Balanced s) (n : Node) (x : Handle) :
    (s.allocate n).2.isAlive x = true ↔ s.isAlive x = true ∨ x = (s.allocate n).1 := by
  unfold isAlive
  rw [hs.node?_allocate]
  by_cases hx : x = (s.allocate n).1
  · simp [hx]
  · simp [hx]

/-- Discipline stays when a node is brought in. -/
theorem Disciplined.allocate {s : Store} (hd : Disciplined s) (name : String)
    (hu : Unwrapped (s.allocate { name }).2) : Disciplined (s.allocate { name }).2 := by
  have he := Evolves.allocate s { name }
  have hnew := hd.not_holds_allocate (he.unwrapped hu) { name }
  have hholds := hd.balanced.holds_allocate name
  -- the new node is held by nobody, so what is held was there before
  have hold : ∀ {a b}, s.Holds a b → (s.allocate { name }).2.isAlive b = true →
      s.isAlive b = true := by
    intro a b hab hb
    rcases (hd.balanced.isAlive_allocate _ b).1 hb with hb | rfl
    · exact hb
    · exact absurd hab (hnew a)
  refine ⟨he.balanced hd.balanced, hd.linked.allocate hd.balanced rfl rfl (Or.inl hu),
    hd.live.allocate hd.balanced rfl, ?_, ?_, ?_, ?_⟩
  · intro o c ho hc
    have hown := hd.balanced.owns_allocate ho
    have hroot := hd.apart hown (hold hown.holds hc)
    unfold parent? at hroot ⊢
    rw [hd.balanced.node?_allocate]
    split
    · rfl
    · exact hroot
  · intro a a' b hb h₁ h₂
    rw [hholds] at h₁ h₂
    exact hd.unique (hold h₁ hb) h₁ h₂
  · intro x hx
    exact hd.acyclic x (Relation.TransGen.mono (fun a b => (hholds a b).1) _ _ hx)
  · intro o c ho
    exact he.issued hu (hd.issued (hd.balanced.owns_allocate ho))

theorem Disciplined.top_allocate_iff {s : Store} (hd : Disciplined s) (hu : Unwrapped s)
    (name : String) (b : Handle) :
    (s.allocate { name }).2.Top b ↔ s.Top b ∨ b = (s.allocate { name }).1 := by
  unfold Top
  simp only [hd.balanced.isAlive_allocate, hd.balanced.holds_allocate]
  constructor
  · rintro ⟨hb | hb, hnone⟩
    · exact Or.inl ⟨hb, hnone⟩
    · exact Or.inr hb
  · rintro (⟨hb, hnone⟩ | rfl)
    · exact ⟨Or.inl hb, hnone⟩
    · exact ⟨Or.inr rfl, hd.not_holds_allocate hu _⟩

-- ---------------------------------------------------------------------------
-- The way up
-- ---------------------------------------------------------------------------

/-- The live handles of a store are finite in number: each has a slot of its own. -/
theorem finite_isAlive (s : Store) : Finite { h : Handle // s.isAlive h = true } := by
  refine Finite.of_injective (fun h => (⟨h.1.index, ?_⟩ : Fin s.slots.size)) ?_
  · obtain ⟨n, hn⟩ := isAlive_iff.1 h.2
    exact index_lt_size hn
  · rintro ⟨h, hh⟩ ⟨k, hk⟩ heq
    obtain ⟨n, hn⟩ := isAlive_iff.1 hh
    obtain ⟨m, hm⟩ := isAlive_iff.1 hk
    exact Subtype.ext (index_injective hm hn (by simpa using heq))

/-- From every live node the way up over holders ends in a node that nobody holds. -/
theorem Disciplined.exists_top {s : Store} (hd : Disciplined s) {x : Handle}
    (hx : s.isAlive x = true) : ∃ r, s.Top r ∧ s.Reaches r x := by
  have := finite_isAlive s
  let above (a b : { h : Handle // s.isAlive h = true }) : Prop := Relation.TransGen s.Holds a b
  have : IsTrans _ above := ⟨fun _ _ _ => Relation.TransGen.trans⟩
  have : Std.Irrefl above := ⟨fun a => hd.acyclic a⟩
  have hwf : WellFounded above := Finite.wellFounded_of_trans_of_irrefl above
  suffices h : ∀ y : { h : Handle // s.isAlive h = true }, ∃ r, s.Top r ∧ s.Reaches r y from
    h ⟨x, hx⟩
  intro y
  induction y using hwf.induction with
  | _ y ih =>
    by_cases htop : s.Top y
    · exact ⟨y, htop, .refl _ _⟩
    · obtain ⟨a, ha⟩ : ∃ a, s.Holds a y := by
        by_contra hnone
        exact htop ⟨y.2, fun a ha => hnone ⟨a, ha⟩⟩
      obtain ⟨r, hr, hreach⟩ := ih ⟨a, ha.isAlive⟩ (.single ha)
      exact ⟨r, hr, hreach.tail ha⟩

-- ---------------------------------------------------------------------------
-- The way down
-- ---------------------------------------------------------------------------

/-- What can be told of a node from what is told of those that it holds can be told of a node
that leads to no circle, in as many steps as there are slots. -/
theorem of_holds_below {s : Store} {root : Handle}
    (hac : ∀ x, s.Reaches root x → ¬ Relation.TransGen s.Holds x x) {P : Nat → Handle → Prop}
    (hstep : ∀ {fuel h}, (∀ x, s.Holds h x → P fuel x) → P (fuel + 1) h) :
    P (s.slots.size + 1) root :=
  of_below (P := P) Holds.isAlive hac hstep

/-- The same for every node of a disciplined store. -/
theorem Disciplined.of_holds {s : Store} (hd : Disciplined s) {P : Nat → Handle → Prop}
    (hstep : ∀ {fuel h}, (∀ x, s.Holds h x → P fuel x) → P (fuel + 1) h) (h : Handle) :
    P (s.slots.size + 1) h :=
  of_holds_below (P := P) (fun x _ => hd.acyclic x) hstep

end TreeScript.Store
