import TreeScript.Proofs.Engine.Execute

/-!
# TreeScript — blocks on copies

A node that is executed on copies gets the results, and nobody else is touched: the
blocks and the arguments have no references, so their copies know nothing of where they
come from. Each copy is executed inside a fence around all that is there. Until the first
block has been executed nothing at all is touched; after that the node may be filled anew,
and all that it held before is gone.

* `Phase` — the store before and after the first block has been executed;
* `ensures_copyApart` — one block on a copy;
* `Isolable`, `ensures_runItem_apart` — the blocks of items, one by one;
* `runFirst`, `ensures_runFirst`, `ensures_runSources_apart` — the first, and all of them.
-/

namespace TreeScript

open Store Engine

variable {scope : Scope} {s m t t₀ : Store} {d : Handle} {first : Bool} {T : Set Handle}
  {args : List Handle}

-- ---------------------------------------------------------------------------
-- Before and after the first block
-- ---------------------------------------------------------------------------

/-- The node that gets the results is at the door once a block has been executed. -/
def doorway (d : Handle) (first : Bool) : Option Handle := if first then none else some d

/-- The store while the blocks of a node are executed. Nothing that was there is touched
before one has been executed. After that only the node is, and all that it holds is new. -/
structure Phase (m : Store) (d : Handle) (first : Bool) (T : Set Handle) (t : Store) : Prop where
  held : Held (Fence.around m (doorway d first)) m m T t
  renewed : first = false → Renewed m (fun _ => False) d t

/-- The destination, if it is the door, is all there. -/
theorem whole_doorway (first : Bool) (hwhole : m.Whole d) : ∀ x ∈ doorway d first, m.Whole x := by
  intro x hx
  cases first with
  | true => simp [doorway] at hx
  | false =>
    obtain rfl : d = x := by simpa [doorway] using hx
    exact hwhole

/-- What keeps to the fence without a door keeps to the one with it. -/
theorem Store.Held.loosen {door : Option Handle} (hm : Disciplined m)
    (hwhole : ∀ x ∈ door, m.Whole x) (h : Held (Fence.around m none) m m T t) :
    Held (Fence.around m door) m m T t :=
  ⟨h.since, hm.fenced_loosen hwhole h.fenced⟩

namespace Phase

/-- In both phases at most the node is touched. -/
theorem loosen (h : Phase m d first T t) (hm : Disciplined m) (hwhole : m.Whole d) :
    Held (Fence.around m (some d)) m m T t := by
  cases first with
  | true => exact h.held.loosen hm (whole_doorway false hwhole)
  | false => exact h.held

theorem isAlive (h : Phase m d first T t) (hwhole : m.Whole d) : t.isAlive d = true := by
  cases first with
  | true => exact h.held.fenced.isAlive_around (beside_none.2 (hwhole d (.refl _ _)))
  | false => exact (h.held.fenced.door rfl).isAlive

/-- A tree without references that neither leads to the node nor is led to from it. -/
theorem bare (h : Phase m d first T t) (hm : Disciplined m) {a : Handle} (ha : m.Bare a)
    (hapart : first = false → ¬ m.Reaches a d ∧ ¬ m.Reaches d a) : t.Bare a := by
  refine h.held.fenced.bare ha fun x hx => off_around (hm.beside_of_apart ha.whole ?_ hx)
  intro y hy
  cases first with
  | true => simp [doorway] at hy
  | false =>
    obtain rfl : d = y := by simpa [doorway] using hy
    exact hapart rfl

/-- A tree of its own without references that does not lead to the node. -/
theorem bare_of_top (h : Phase m d first T t) (hm : Disciplined m) {a : Handle}
    (ha : m.Top a ∧ m.Bare a ∧ ¬ m.Reaches a d) : t.Bare a := by
  obtain ⟨htop, hbare, hback⟩ := ha
  refine h.bare hm hbare fun _ => ⟨hback, fun hreach => hback ?_⟩
  exact htop.eq_of_reaches hreach ▸ .refl _ _

/-- A block that had been given out, and is there now, was there before. -/
theorem isAlive_before (h : Phase m d first T t) (hu : Unwrapped t) {x : Handle}
    (hissued : m.Issued x) (hx : t.isAlive x = true) : m.isAlive x = true := by
  by_contra hdead
  rw [Bool.not_eq_true] at hdead
  simp [h.held.since.evolves.not_isAlive hu hissued hdead] at hx

end Phase

/-- What a node holds stays new while the store goes on and the node does not get more. -/
theorem Renewed.later {K : Handle → Prop} (h : Renewed m K d t₀) (h₁ : Evolves m t₀)
    (h₂ : Evolves t₀ t) (hu : Unwrapped t)
    (hless : ∀ c, t.Holds d c → t.isAlive c = true → t₀.isAlive c = true → t₀.Holds d c) :
    Renewed m K d t := by
  intro c hc halive
  by_cases hmid : t₀.isAlive c = true
  · exact h c (hless c hc halive hmid) hmid
  · refine Or.inr ?_
    by_contra hold
    rw [Bool.not_eq_false] at hold
    exact hmid (h₁.isAlive_between h₂ hu hold halive)

-- ---------------------------------------------------------------------------
-- One block
-- ---------------------------------------------------------------------------

/-- A scope that stays inside every sealed fence. -/
def Scope.Confined (scope : Scope) : Prop :=
  ∀ (F : Fence) (b : Store), F.Sealed → scope.Keeps F b

/-- Nothing but slots is changed, whatever is executed. -/
theorem Scope.Confined.evolves (hscope : scope.Confined) (block destination : Handle)
    (args : List Handle) (first : Bool) (σ : Session) :
    Evolves σ.nodes ((executeCopy scope block destination args first).after σ) := by
  have hseal := Fence.sealed_around σ.nodes
  exact (ensures_executeCopy (s := σ.nodes) (T := ∅) hseal (hscope _ σ.nodes hseal) block
    destination args first).evolves σ

/-- A block without references is executed on a copy: before it has been executed nothing
is touched, and then only the node that gets the results. -/
theorem ensures_copyApart (hscope : scope.Confined) (block : Handle) (args : List Handle)
    (first : Bool) :
    Ensures (fun t => (Disciplined m ∧ m.Whole d) ∧ Phase m d first T t ∧ t.Bare block ∧
        ∀ a ∈ args, a ∈ T ∧ t.Bare a)
      (executeCopy scope block d args first) (fun _ => Phase m d false T)
      (Held (Fence.around m (doorway d first)) m m T) := by
  refine Ensures.start fun t₀ => ?_
  refine (Ensures.assume (P := fun t => t = t₀) ((Disciplined m ∧ m.Whole d) ∧
    Phase m d first T t₀ ∧ t₀.Bare block ∧ ∀ a ∈ args, a ∈ T ∧ t₀.Bare a)
    (hscope.evolves block d args first) ?_).before fun t _ ⟨heq, ht⟩ => ⟨heq ▸ ht, heq⟩
  rintro ⟨⟨hm, hwhole⟩, hphase, hblock, hargs⟩
  have hheld := hphase.loosen hm hwhole
  have hd := hphase.isAlive hwhole
  have hseal := Fence.sealed_around t₀
  -- the fence around all that is there now, within the one with the door
  have hwithin : Within (Fence.around m (some d)) (Fence.around t₀ none) :=
    within_sealed (fun x hx => hheld.fenced.isAlive_around hx) hd
  have hcopies : ∀ {a}, t₀.Bare a → (Fence.around t₀ none).Copies t₀ a := fun ha =>
    Or.inr ⟨ha, fun x hx => off_around (beside_none.2 (ha.whole x hx))⟩
  have hopen : (Fence.around m (some d)).Open d :=
    (open_around_iff (hwhole d (.refl _ _))).2 ⟨d, rfl, .refl _ _⟩
  refine (ensures_executeCopyWithin (F := Fence.around m (some d)) (b := m) (m := t₀) (u := t₀)
    (T := T) (K := fun c => c ∈ t₀.childList d) hseal (hscope _ t₀ hseal)
    (fun hF => hheld.fenced.widen hF hwithin) hwithin.inside block d
    (fun {t} hF c hc => ?_) args first).weaken ?_ ?_ ?_
  · unfold Store.childList at hc ⊢
    rwa [hF.node?_around (beside_none.2 hd)] at hc
  · rintro t - rfl
    exact ⟨rfl, ⟨hcopies hblock, hopen, fun a ha => ⟨(hargs a ha).1, hcopies (hargs a ha).2⟩⟩,
      ⟨hheld.rebase.since, hheld.disciplined.fenced_sealed⟩, hblock.whole _ (.refl _ _), hd⟩
  · rintro - t hu ⟨hafter, hrenewed⟩
    refine ⟨hheld.trans hafter hu, fun _ c hc halive => ?_⟩
    rcases hrenewed c hc halive with ⟨hfirst, hmem⟩ | hdead
    · exact hphase.renewed hfirst c (holds_iff_childList.2 (Or.inl hmem))
        (hheld.live.of_mem_childList hmem)
    · refine Or.inr ?_
      by_contra hold
      rw [Bool.not_eq_false] at hold
      have hmid := hheld.since.evolves.isAlive_between hafter.since.evolves hu hold halive
      simp [hmid] at hdead
  · intro t hu hafter
    refine ⟨hphase.held.since.trans hafter.since hu, hphase.held.fenced.widen hafter.fenced ?_⟩
    cases first with
    | true => exact within_around (by simp [doorway]) fun x n hn => hphase.held.fenced.keeps hn
    | false => exact hwithin

/-- A block that was made of a text is freed afterwards. -/
theorem ensures_textApart (hscope : scope.Confined) (block : Handle) (args : List Handle)
    (first : Bool) :
    Ensures (fun t => (block ∉ T ∧ (Fence.around m (doorway d first)).Inside block ∧
        Disciplined m ∧ m.Whole d) ∧ Phase m d first (T ∪ {block}) t ∧ t.Bare block ∧
        ∀ a ∈ args, a ∈ T ∧ t.Bare a)
      (Engine.always (executeCopy scope block d args first) (Engine.remove block))
      (fun _ => Phase m d false T) (Held (Fence.around m (doorway d first)) m m T) := by
  refine (((ensures_copyApart (m := m) (d := d) (T := T ∪ {block}) hscope block args first).frame
    (block ∉ T ∧ (Fence.around m (doorway d first)).Inside block ∧ m.Whole d)).always
    (fun _ => ?_) ?_).before ?_
  · refine ensures_remove (F := Fence.around m (some d)) (b := m) (s := m) (T := T ∪ {block})
      (fun _ ht => ⟨ht.2.held, ?_⟩) fun _ ht hheld => ⟨hheld.forget ht.1.1,
        fun _ => (ht.2.renewed rfl).remove ht.2.held.disciplined⟩
    obtain ⟨⟨-, hinside, hwhole⟩, -⟩ := ht
    cases first with
    | true => exact (within_sealed (fun _ hx => hx.1) (hwhole d (.refl _ _))).inside hinside
    | false => exact hinside
  · exact ensures_remove (fun _ ht => ⟨ht.2, ht.1.2.1⟩) fun _ ht hheld => hheld.forget ht.1.1
  · rintro t - ⟨⟨hnew, hinside, hm, hwhole⟩, hphase, hbare, hargs⟩
    exact ⟨⟨hnew, hinside, hwhole⟩, ⟨hm, hwhole⟩, hphase, hbare,
      fun a ha => ⟨Or.inl (hargs a ha).1, (hargs a ha).2⟩⟩

-- ---------------------------------------------------------------------------
-- The blocks of items
-- ---------------------------------------------------------------------------

/-- Whether an item names a node that is gone, so that it is passed over. -/
def Item.isGone (s : Store) (item : Item) : Bool := item.block?.any fun b => !s.isAlive b

/-- The items behind the first one that is executed. -/
def later (m : Store) (first : Bool) (items : List Item) : List Item :=
  if first then (items.dropWhile (Item.isGone m)).tail else items

/-- What has to be known to execute the blocks of items on copies. Neither they nor the
arguments have references, and only the first block may lead to the node. -/
structure Isolable (m : Store) (d : Handle) (args : List Handle) (first : Bool)
    (items : List Item) : Prop where
  disciplined : Disciplined m
  whole : m.Whole d
  args : ∀ a ∈ args, m.Top a ∧ m.Bare a ∧ ¬ m.Reaches a d
  issued : ∀ i ∈ items, ∀ b, i.block? = some b → m.Issued b
  bare : ∀ i ∈ items, ∀ b, i.block? = some b → m.isAlive b = true → m.Bare b
  forward : ∀ i ∈ later m first items, ∀ b, i.block? = some b → ¬ m.Reaches b d

namespace Isolable

variable {item : Item} {rest : List Item}

/-- The next item, after one that has been executed or passed over. -/
theorem next (h : Isolable m d args first (item :: rest)) {ran : Bool}
    (hran : ran = true → item.isGone m = false) : Isolable m d args (first && !ran) rest := by
  refine ⟨h.disciplined, h.whole, h.args, fun i hi => h.issued i (List.mem_cons_of_mem _ hi),
    fun i hi => h.bare i (List.mem_cons_of_mem _ hi), fun i hi => h.forward i ?_⟩
  cases first with
  | false => exact List.mem_cons_of_mem _ hi
  | true =>
    cases hgone : item.isGone m with
    | true =>
      have hnot : ran = false := by
        by_contra hran'
        simp [hran (by simpa using hran')] at hgone
      simpa [later, hgone, hnot] using hi
    | false =>
      have hrest : i ∈ rest := by
        cases ran with
        | true => simpa [later] using hi
        | false =>
          exact (List.dropWhile_sublist _).subset (List.mem_of_mem_tail (by simpa [later] using hi))
      simpa [later, hgone] using hrest

/-- The arguments are there, in every phase. -/
theorem bare_args (h : Isolable m d args first (item :: rest)) {t : Store}
    (hphase : Phase m d first T t) : ∀ a ∈ args, t.Bare a := by
  intro a ha
  exact hphase.bare_of_top h.disciplined (h.args a ha)

/-- A block that is there has no references. What the node held before is not there any
more once a block has been executed. -/
theorem bare_block (h : Isolable m d args first (item :: rest)) {t : Store} (hu : Unwrapped t)
    (hphase : Phase m d first { x | m.Top x } t) {b : Handle} (hb : item.block? = some b)
    (hlive : t.isAlive b = true) : m.isAlive b = true ∧ t.Bare b := by
  have hold := hphase.isAlive_before hu (h.issued item (by simp) b hb) hlive
  refine ⟨hold, hphase.bare h.disciplined (h.bare item (by simp) b hb hold) ?_⟩
  rintro rfl
  have hback : ¬ m.Reaches b d := h.forward item (by simp [later]) b hb
  refine ⟨hback, fun hreach => ?_⟩
  rcases Relation.reflTransGen_iff_eq_or_transGen.1 hreach with rfl | hbelow
  · exact hback (.refl _ _)
  · have hdead := hphase.held.since.not_isAlive_of_renewed h.disciplined
      (fun c hc halive => (hphase.renewed rfl c hc halive).resolve_left id) hbelow hold
    simp [hlive] at hdead

end Isolable

/-- A tree that has come in changes nothing of what the node holds. -/
theorem Phase.sprouted (h : Phase m d first { x | m.Top x } t₀) (hwhole : m.Whole d) {c : Handle}
    (hsprout : Sprouted t₀ c t) (hu : Unwrapped t)
    (hheld : Held (Fence.around m (doorway d first)) m m ({ x | m.Top x } ∪ {c}) t) :
    Phase m d first ({ x | m.Top x } ∪ {c}) t := by
  refine ⟨hheld, fun hfirst => (h.renewed hfirst).later h.held.since.evolves hsprout.evolves hu ?_⟩
  intro x hx _ _
  obtain ⟨n, hn⟩ := isAlive_iff.1 (h.isAlive hwhole)
  exact (holds_iff hn).2 ((holds_iff (hsprout.keeps hn)).1 hx)

/-- The block of an item is executed, or passed over. -/
theorem ensures_runItem_apart (hscope : scope.Confined) (first : Bool) (item : Item)
    (rest : List Item) :
    Ensures (fun t => Isolable m d args first (item :: rest) ∧ Phase m d first { x | m.Top x } t)
      (runItem .copy scope d args first item)
      (fun ran t => Isolable m d args (first && !ran) rest ∧
        Phase m d (first && !ran) { x | m.Top x } t)
      (Held (Fence.around m (doorway d first)) m m { x | m.Top x }) := by
  refine Ensures.start fun t₀ => ?_
  -- the item is turned into a source, which leaves a store like the one before
  refine Ensures.bind (Q := fun source t => (Isolable m d args first (item :: rest) ∧
      Phase m d first { x | m.Top x } t₀) ∧ Sourced (Fence.around m (doorway d first)) m m
        { x | m.Top x } t₀ item source t)
    (((ensures_toSource d item).frame _).weaken ?_ (fun _ _ _ ht => ht) ?_) fun source => ?_
  · rintro t - ⟨rfl, hpure, hphase⟩
    exact ⟨⟨hpure, hphase⟩, rfl, hphase.held⟩
  · rintro t hu ⟨⟨-, hphase⟩, hback⟩
    exact hphase.held.restored hback hu
  · cases source with
    -- a node that is gone is passed over
    | none =>
      refine (Ensures.pure false).before ?_
      rintro t - ⟨⟨hiso, hphase⟩, rfl⟩
      exact ⟨hiso.next (by simp), by simpa using hphase⟩
    | some source =>
      obtain ⟨block, owned⟩ := source
      cases owned with
      -- a node of the tree is copied where it stands
      | false =>
        refine Ensures.bind ((((ensures_copyApart (m := m) (d := d) hscope block args first).frame
          (Isolable m d args (first && !true) rest)).always (fun _ => Ensures.skip _)
          (Ensures.skip _)).weaken ?_ (fun _ _ _ ht => ht) fun _ _ ht => ht.2)
          fun _ => (Ensures.pure true).before fun t _ ht => by simpa using ht
        rintro t hu ⟨⟨hiso, hphase⟩, rfl, halive, hblock⟩
        obtain ⟨hold, hbare⟩ := hiso.bare_block hu hphase hblock halive
        exact ⟨hiso.next (by simp [Item.isGone, hblock, hold]), ⟨hiso.disciplined, hiso.whole⟩,
          hphase, hbare, fun a ha => ⟨(hiso.args a ha).1, hiso.bare_args hphase a ha⟩⟩
      -- a text has made a block of its own, which nothing else can reach
      | true =>
        refine Ensures.bind (((ensures_textApart (m := m) (d := d) hscope block args first).frame
          (Isolable m d args (first && !true) rest)).weaken ?_ (fun _ _ _ ht => ht)
            fun _ _ ht => ht.2) fun _ => (Ensures.pure true).before fun t _ ht => by simpa using ht
        rintro t hu ⟨⟨hiso, hphase⟩, ⟨hnew, hinside, hblock⟩, hsprout, hheld, hbare⟩
        have hphase' := hphase.sprouted hiso.whole hsprout hu hheld
        exact ⟨hiso.next (by simp [Item.isGone, hblock]), ⟨hnew, hinside, hiso.disciplined,
          hiso.whole⟩, hphase', hbare, fun a ha => ⟨(hiso.args a ha).1, hiso.bare_args hphase' a ha⟩⟩

/-- All blocks are executed: at most the node is touched. -/
theorem ensures_runSources_apart (hscope : scope.Confined) (items : List Item) :
    Ensures (fun t => Isolable m d args true items ∧ Phase m d true { x | m.Top x } t)
      (runSources .copy scope d args true items)
      (fun _ => Held (Fence.around m (some d)) m m { x | m.Top x })
      (Held (Fence.around m (some d)) m m { x | m.Top x }) := by
  refine (ensures_runSources_of (I := fun first items t => Isolable m d args first items ∧
    Phase m d first { x | m.Top x } t) (fun _ _ _ ht => ht.2.held.live)
    (fun first item rest => ?_) true items).weaken (fun _ _ ht => ht)
    (fun _ t _ ⟨_, _, hiso, hphase⟩ => hphase.loosen hiso.disciplined hiso.whole) fun _ _ ht => ht
  refine ((ensures_runItem_apart hscope first item rest).frame (Disciplined m ∧ m.Whole d)).weaken
    (fun t _ ht => ⟨⟨ht.1.1.disciplined, ht.1.1.whole⟩, ht.1⟩) (fun _ _ _ ht => ht.2) ?_
  rintro t - ⟨⟨hm, hwhole⟩, hheld⟩
  cases first with
  | true => exact hheld.loosen hm (whole_doorway false hwhole)
  | false => exact hheld

/-- Executes blocks on copies until one of them has been executed. -/
def runFirst (scope : Scope) (h : Handle) (args : List Handle) : List Item → Engine Unit
  | [] => pure ()
  | item :: rest => do
    if ← Engine.isAlive h then
      if ← runItem .copy scope h args true item then pure ()
      else runFirst scope h args rest

/-- Where the first block fails, nothing has been touched. -/
theorem ensures_runFirst (hscope : scope.Confined) (items : List Item) :
    Ensures (fun t => Isolable m d args true items ∧ Phase m d true { x | m.Top x } t)
      (runFirst scope d args items)
      (fun _ => Held (Fence.around m (some d)) m m { x | m.Top x })
      (Held (Fence.around m none) m m { x | m.Top x }) := by
  have hend : ∀ {first items}, Ensures (fun t => Isolable m d args first items ∧
      Phase m d first { x | m.Top x } t) (pure () : Engine Unit)
      (fun _ => Held (Fence.around m (some d)) m m { x | m.Top x })
      (Held (Fence.around m none) m m { x | m.Top x }) := (Ensures.pure ()).before
    fun _ _ ht => ht.2.loosen ht.1.disciplined ht.1.whole
  induction items with
  | nil => exact hend
  | cons item rest ih =>
    refine Ensures.bind_isAlive ?_ (hend.before fun _ _ ht => ht.1)
    refine Ensures.ite (fun _ => ?_) (by simp)
    refine ((ensures_runItem_apart hscope true item rest).before fun _ _ ht => ht.1).bind
      fun ran => ?_
    cases ran with
    | true => exact hend
    | false => exact ih

end TreeScript
