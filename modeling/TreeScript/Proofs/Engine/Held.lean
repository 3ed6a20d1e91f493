import TreeScript.Proofs.Engine.Ensures
import TreeScript.Proofs.Path.Inside
import TreeScript.Proofs.Store.Bare

/-!
# TreeScript — steps that keep a store in order

What programs do to a store is put together from a few steps. Each of them keeps the
store disciplined and inside a fence, and says which nodes nobody holds afterwards.

* `Held` — the store since a base store, inside a fence;
* `Fence.Present` — a live node inside a fence;
* `ensures_deepClone`, `ensures_insert`, `ensures_append`, `ensures_remove`,
  `ensures_clear`, `ensures_setValue` — the steps;
* `ensures_graftFirst`, `ensures_graftLast` — a copy that is put below a node;
* `ensures_removeAll` — trees that came in are freed.
-/

namespace TreeScript

open Store

/-- What has become of a store that keeps to a fence. -/
structure Store.Held (F : Fence) (b s : Store) (T : Set Handle) (t : Store) : Prop where
  since : Since s T t
  fenced : Fenced F b t

/-- A live node inside a fence. -/
def Fence.Present (F : Fence) (t : Store) (h : Handle) : Prop := t.isAlive h = true ∧ F.Inside h

namespace Store.Held

variable {F : Fence} {b s t t' : Store} {T T' : Set Handle}

theorem disciplined (h : Held F b s T t) : Disciplined t := h.since.disciplined

theorem live (h : Held F b s T t) : LiveChildren t := h.disciplined.live

theorem isAlive (h : Held F b s T t) {x : Handle} (hx : x ∈ T) : t.isAlive x = true :=
  h.since.isAlive hx

/-- From here on with the present store as the base. -/
theorem rebase (h : Held F b s T t) : Held F b t T t :=
  ⟨(Since.refl h.disciplined).congr h.since.tops, h.fenced⟩

theorem trans (h₁ : Held F b s T t) (h₂ : Held F b t T' t') (hu : Unwrapped t') :
    Held F b s T' t' :=
  ⟨h₁.since.trans h₂.since hu, h₂.fenced⟩

theorem congr (h : Held F b s T t) (hT : ∀ x, x ∈ T ↔ x ∈ T') : Held F b s T' t :=
  ⟨h.since.congr hT, h.fenced⟩

/-- A node that has come in and gone again. -/
theorem forget {c : Handle} (hc : c ∉ T) (h : Held F b s ((T ∪ {c}) \ {c}) t) : Held F b s T t :=
  ⟨Since.forget hc h.since, h.fenced⟩

/-- A top, or a child, is moved below a node to which it does not lead. -/
theorem moveBelow (h : Held F b s T t) {p c : Handle} {i : Nat} (hok : t.moveBelow p i c = .ok t')
    (hp : F.Open p) (hc : F.Inside c) (hplace : c ∈ T ∨ ∃ q, t.ChildOf c q)
    (hback : ¬ t.Reaches c p) (hold : s.isAlive c = true → s.Holds p c ∧ s.ChildOf c p)
    (hu : Unwrapped t') : Held F b s (T \ {c}) t' :=
  ⟨h.since.moveBelow hok hplace hback hold hu, h.fenced.moveBelow hp hc hok⟩

end Store.Held

namespace Engine

variable {F : Fence} {b s : Store} {T : Set Handle} {P E : Store → Prop}

-- ---------------------------------------------------------------------------
-- Copies
-- ---------------------------------------------------------------------------

/-- A copy is a tree of its own, and all of it is new. -/
theorem ensures_deepClone {h : Handle} {Q : Handle → Store → Prop}
    (hP : ∀ {t}, Unwrapped t → P t → Held F b s T t ∧ t.isAlive h = true ∧ F.Copies b h)
    (hQ : ∀ {t c t'}, Unwrapped t' → P t → Sprouted t c t' → Held F b s (T ∪ {c}) t' →
      F.Inside c → Q c t') :
    Ensures P (Engine.deepClone h) Q E := by
  refine Ensures.change (fun hf => .deepClone hf) (fun {t c t'} hu ht hf => ?_)
    fun {t} hu ht hf => ?_
  · have hut := (Evolves.deepClone hf).unwrapped hu
    obtain ⟨hheld, halive, hcopies⟩ := hP hut ht
    obtain ⟨hfenced, hinside⟩ :=
      hheld.fenced.deepClone hcopies (fun _ hy => hheld.disciplined.fixed hut halive hy) hf
    exact hQ hu ht (hheld.disciplined.balanced.sprouted_deepClone hf)
      ⟨hheld.since.deepClone hf hu, hfenced⟩ hinside
  · obtain ⟨hheld, halive, -⟩ := hP hu ht
    have hends := ends_deepClone hheld.disciplined hu halive
    rw [hf] at hends
    exact hends

-- ---------------------------------------------------------------------------
-- Moving
-- ---------------------------------------------------------------------------

/-- A node is moved below another that it does not lead to. -/
theorem ensures_insert {p c : Handle} {i : Nat} {Q : Unit → Store → Prop}
    (hP : ∀ {t}, Unwrapped t → P t → Disciplined t ∧ t.isAlive p = true ∧ t.isAlive c = true ∧
      ¬ t.Reaches c p)
    (hQ : ∀ {t t'}, Unwrapped t' → P t → t.moveBelow p i c = .ok t' → Q () t') :
    Ensures P (Engine.insert p i c) Q E := by
  rw [insert_eq]
  refine Ensures.bind_nodes fun m => Ensures.ite (fun hcycle => ?_) fun _ => ?_
  · -- a node that would stand above itself leads to its new place
    have hno : ∀ t, Unwrapped t → t = m ∧ P t → False := by
      rintro t hu ⟨rfl, ht⟩
      obtain ⟨hd, -, -, hback⟩ := hP hu ht
      exact hback (reaches_of_up hd.linked (hd.linked.wouldCycle_iff.1 hcycle))
    refine Ensures.bind_nodes fun m' => ?_
    refine Ensures.bind_liftFault (R := fun _ _ => True)
      (fun t hu ht => (hno t hu ht.2).elim) fun _ _ => ?_
    refine Ensures.bind_liftFault (R := fun _ _ => True)
      (fun t hu ht => (hno t hu ht.1.2).elim) fun _ _ => ?_
    exact Ensures.throw_failure _ fun t hu ht => (hno t hu ht.1.1.2).elim
  -- the place is free of a circle, so both nodes being alive is enough
  · refine Ensures.edit (fun hf => .moveBelow hf) (fun hu ht hf => hQ hu ht.2 hf)
      fun {t} hu ht hf => ?_
    obtain ⟨-, hp, hc, -⟩ := hP hu ht.2
    obtain ⟨t', hok⟩ := moveBelow_isOk hp hc i
    simp [hok] at hf

/-- Moving behind the last child, in terms of what is known of the store. -/
theorem ensures_append {p c : Handle} {Q : Unit → Store → Prop}
    (hP : ∀ {t}, Unwrapped t → P t → Disciplined t ∧ t.isAlive p = true ∧ t.isAlive c = true ∧
      ¬ t.Reaches c p)
    (hQ : ∀ {t t'}, Unwrapped t' → P t → t.moveBelow p (t.childList p).length c = .ok t' →
      Q () t') :
    Ensures P (Engine.append p c) Q E := by
  rw [append_eq]
  refine Ensures.bind_nodes fun m => ?_
  refine Ensures.bind_liftFault (R := fun t count => count = (t.childList p).length) ?_
    fun count _ => ?_
  · rintro t hu ⟨rfl, ht⟩
    refine (ends_node (hP hu ht).2.1).map fun n hn => ?_
    rw [childList_eq hn]
  · refine ensures_insert (fun hu ht => hP hu ht.1.2) fun hu ht hok => hQ hu ht.1.2 ?_
    rwa [← ht.2]

-- ---------------------------------------------------------------------------
-- Copies below a node
-- ---------------------------------------------------------------------------

/-- A new tree is put below a node: it is held then, and nobody has gone away. -/
theorem held_graft {t t₁ t₂ : Store} {c p : Handle} {i : Nat} (h : Held F b s T t)
    (hc : Sprouted t c t₁) (h₁ : Held F b s (T ∪ {c}) t₁) (hinside : F.Inside c)
    (hp : t.isAlive p = true) (hopen : F.Open p) (hok : t₁.moveBelow p i c = .ok t₂)
    (hu : Unwrapped t₂) : Held F b s T t₂ ∧ ∀ x, t.isAlive x = true → t₂.isAlive x = true := by
  have hold := h.since.not_isAlive_of_sprouted hc ((Evolves.moveBelow hok).unwrapped hu)
  refine ⟨Held.forget (h.since.not_mem_of_sprouted hc) ?_, fun x hx => ?_⟩
  · exact h₁.moveBelow hok hopen hinside (Or.inl (Or.inr rfl)) (hc.not_reaches hp)
      (by simp [hold]) hu
  · rw [isAlive_moveBelow hok]
    exact hc.isAlive hx

/-- What is known between making a copy and putting it below a node. -/
def Copied (F : Fence) (b s : Store) (T : Set Handle) (P : Store → Prop) (c : Handle)
    (t₁ : Store) : Prop :=
  ∃ t, P t ∧ Sprouted t c t₁ ∧ Held F b s (T ∪ {c}) t₁ ∧ F.Inside c

/-- A copy may be put below a node that was there. -/
theorem Copied.ready {p : Handle}
    (hP : ∀ {t}, Unwrapped t → P t → Held F b s T t ∧ t.isAlive p = true ∧ F.Open p) {c : Handle}
    {t₁ : Store} (hu : Unwrapped t₁) (hc : Copied F b s T P c t₁) :
    Disciplined t₁ ∧ t₁.isAlive p = true ∧ t₁.isAlive c = true ∧ ¬ t₁.Reaches c p := by
  obtain ⟨t, ht, hsprout, hheld, -⟩ := hc
  obtain ⟨-, hp, -⟩ := hP (hsprout.evolves.unwrapped hu) ht
  exact ⟨hheld.disciplined, hsprout.isAlive hp, hheld.isAlive (Or.inr rfl), hsprout.not_reaches hp⟩

/-- A copy that is put below a node is no top any more. -/
theorem Copied.graft {p : Handle}
    (hP : ∀ {t}, Unwrapped t → P t → Held F b s T t ∧ t.isAlive p = true ∧ F.Open p) {c : Handle}
    {t₁ t₂ : Store} {i : Nat} (hc : Copied F b s T P c t₁) (hok : t₁.moveBelow p i c = .ok t₂)
    (hu : Unwrapped t₂) :
    ∃ t, P t ∧ Held F b s T t₂ ∧ ∀ x, t.isAlive x = true → t₂.isAlive x = true := by
  obtain ⟨t, ht, hsprout, hheld, hinside⟩ := hc
  obtain ⟨h, hp, hopen⟩ :=
    hP (hsprout.evolves.unwrapped ((Evolves.moveBelow hok).unwrapped hu)) ht
  exact ⟨t, ht, held_graft h hsprout hheld hinside hp hopen hok hu⟩

variable {p a : Handle} {Q : Unit → Store → Prop}

/-- Copying a tree that may be copied gives a tree of its own. -/
theorem ensures_copied (hP : ∀ {t}, Unwrapped t → P t → Held F b s T t)
    (ha : ∀ {t}, Unwrapped t → P t → t.isAlive a = true ∧ F.Copies b a) :
    Ensures P (Engine.deepClone a) (Copied F b s T P) E := by
  refine ensures_deepClone (fun hu ht => ⟨hP hu ht, ha hu ht⟩) fun _ ht hsprout hheld hinside => ?_
  exact ⟨_, ht, hsprout, hheld, hinside⟩

/-- A copy of one node becomes the first child of another. -/
theorem ensures_graftFirst
    (hP : ∀ {t}, Unwrapped t → P t → Held F b s T t ∧ t.isAlive p = true ∧ F.Open p)
    (ha : ∀ {t}, Unwrapped t → P t → t.isAlive a = true ∧ F.Copies b a)
    (hQ : ∀ {t t'}, Unwrapped t' → P t → Held F b s T t' →
      (∀ x, t.isAlive x = true → t'.isAlive x = true) → Q () t') :
    Ensures P (Engine.deepClone a >>= fun c => Engine.insert p 0 c) Q E := by
  refine (ensures_copied (fun hu ht => (hP hu ht).1) ha).bind fun c => ?_
  refine ensures_insert (fun hu hc => hc.ready hP hu) fun hu hc hok => ?_
  obtain ⟨t, ht, hheld, hkeep⟩ := hc.graft hP hok hu
  exact hQ hu ht hheld hkeep

/-- A copy of one node becomes the last child of another. -/
theorem ensures_graftLast
    (hP : ∀ {t}, Unwrapped t → P t → Held F b s T t ∧ t.isAlive p = true ∧ F.Open p)
    (ha : ∀ {t}, Unwrapped t → P t → t.isAlive a = true ∧ F.Copies b a)
    (hQ : ∀ {t t'}, Unwrapped t' → P t → Held F b s T t' →
      (∀ x, t.isAlive x = true → t'.isAlive x = true) → Q () t') :
    Ensures P (Engine.deepClone a >>= fun c => Engine.append p c) Q E := by
  refine (ensures_copied (fun hu ht => (hP hu ht).1) ha).bind fun c => ?_
  refine ensures_append (fun hu hc => hc.ready hP hu) fun hu hc hok => ?_
  obtain ⟨t, ht, hheld, hkeep⟩ := hc.graft hP hok hu
  exact hQ hu ht hheld hkeep

-- ---------------------------------------------------------------------------
-- Freeing
-- ---------------------------------------------------------------------------

/-- Removing a node inside: if it was a top it is none any more. -/
theorem ensures_remove {c : Handle}
    (hP : ∀ {t}, Unwrapped t → P t → Held F b s T t ∧ F.Inside c)
    (hQ : ∀ {t}, Unwrapped (t.remove c) → P t → Held F b s (T \ {c}) (t.remove c) →
      Q () (t.remove c)) :
    Ensures P (Engine.remove c) Q E := by
  refine Ensures.edit_ok (fun t => .remove t c) fun {t} hu ht => ?_
  obtain ⟨hheld, hinside⟩ := hP ((Evolves.remove t c).unwrapped hu) ht
  exact hQ hu ht ⟨hheld.since.remove c hu, hheld.fenced.remove hinside⟩

/-- Trees that came in are freed one after the other. -/
theorem ensures_removeAll (cs : List Handle) :
    Ensures (fun t => (cs.Nodup ∧ ∀ c ∈ cs, c ∉ T ∧ F.Inside c) ∧
        Held F b s (T ∪ { c | c ∈ cs }) t)
      (cs.forM Engine.remove) (fun _ => Held F b s T) E := by
  refine (Ensures.forM (I := fun cs t => (cs.Nodup ∧ ∀ c ∈ cs, c ∉ T ∧ F.Inside c) ∧
    Held F b s (T ∪ { c | c ∈ cs }) t) (fun c rest => ?_) cs).weaken (fun _ _ h => h)
    (fun _ t _ ht => ht.2.congr fun x => by simp) fun _ _ h => h
  -- the invariant speaks of the nodes still to be removed, all different and on top
  refine ensures_remove (fun _ ht => ⟨ht.2, (ht.1.2 c (by simp)).2⟩) fun _ ht hheld => ?_
  obtain ⟨⟨hnodup, hall⟩, -⟩ := ht
  obtain ⟨hc, hnodup⟩ := List.nodup_cons.1 hnodup
  refine ⟨⟨hnodup, fun x hx => hall x (List.mem_cons_of_mem _ hx)⟩, hheld.congr fun x => ?_⟩
  have hcT := (hall c (by simp)).1
  simp only [Set.mem_sdiff, Set.mem_union, Set.mem_ofPred_eq, List.mem_cons,
    Set.mem_singleton_iff]
  constructor
  · rintro ⟨hx | hx | hx, hne⟩
    · exact Or.inl hx
    · exact absurd hx hne
    · exact Or.inr hx
  · rintro (hx | hx)
    · exact ⟨Or.inl hx, fun heq => hcT (heq ▸ hx)⟩
    · exact ⟨Or.inr (Or.inr hx), fun heq => hc (heq ▸ hx)⟩

theorem ensures_clear {h : Handle}
    (hP : ∀ {t}, Unwrapped t → P t → Held F b s T t ∧ t.isAlive h = true ∧ F.Open h)
    (hQ : ∀ {t t'}, Unwrapped t' → P t → t.clear h = .ok t' → Held F b s T t' → Q () t') :
    Ensures P (Engine.clear h) Q E := by
  refine Ensures.edit (fun hf => .clear hf) (fun hu ht hf => ?_) fun {t} hu ht hf => ?_
  · obtain ⟨hheld, -, hopen⟩ := hP ((Evolves.clear hf).unwrapped hu) ht
    exact hQ hu ht hf ⟨hheld.since.clear hf hu, hheld.fenced.clear hopen hf⟩
  · obtain ⟨hheld, halive, -⟩ := hP hu ht
    obtain ⟨t', hok⟩ := hheld.disciplined.clear_isOk halive
    simp [hok] at hf

-- ---------------------------------------------------------------------------
-- Values
-- ---------------------------------------------------------------------------

/-- A value is set: what it owns is no top any more, and of the rest only what the old value owned
may be gone. -/
theorem ensures_setValue {h : Handle} {v : Option Value}
    (hP : ∀ {t}, Unwrapped t → P t → Held F b s T t ∧ t.isAlive h = true ∧ F.Open h ∧
      Givable s T t h v ∧ ∀ x, v = some x → F.Admits x)
    (hQ : ∀ {t}, Unwrapped (t.assign h v) → P t →
      Held F b s (T \ { c | v.bind Value.owned? = some c }) (t.assign h v) →
      (∀ y, t.isAlive y = true → (∀ old, t.Owns h old → ¬ t.Reaches old y) →
        (t.assign h v).isAlive y = true) →
      (∀ c, (t.assign h v).Holds h c → (t.assign h v).isAlive c = true →
        t.isAlive c = true ∧ (c ∈ t.childList h ∨ v.bind Value.owned? = some c)) →
      Q () (t.assign h v)) :
    Ensures P (Engine.setValue h v) Q E := by
  refine Ensures.edit (fun hf => ?_) (fun {t t'} hu ht hf => ?_) fun {t} hu ht hf => ?_
  · obtain ⟨-, rfl⟩ := setValue_eq_ok hf
    exact .assign _ _ _
  · obtain ⟨-, rfl⟩ := setValue_eq_ok hf
    obtain ⟨hheld, halive, hopen, hgive, hadm⟩ := hP ((Evolves.assign t h v).unwrapped hu) ht
    obtain ⟨hsince, hkeep⟩ := hheld.since.assign halive hgive hu
    exact hQ hu ht ⟨hsince, hheld.fenced.assign hopen hadm⟩ hkeep
      fun c hc hlives => hheld.since.holds_assign halive hgive hu hc hlives
  · obtain ⟨-, halive, -⟩ := hP hu ht
    simp [Store.setValue, halive] at hf

/-- A value that owns nothing may be given to every node. -/
theorem givable_of_owned?_eq_none {t : Store} {h : Handle} {v : Option Value}
    (hv : v.bind Value.owned? = none) : Givable s T t h v := by
  intro c hc
  simp [hv] at hc

end Engine

end TreeScript
