import TreeScript.Proofs.Engine.Apart
import TreeScript.Proofs.Engine.Program

/-!
# TreeScript — a node that is executed on copies

Executing a node on copies touches the node and what it held, and nothing else; and if it
fails before a block has been executed, nothing at all. This takes blocks and arguments
without references, and two things more. If the node is its own block, its value is copied
too, so this must be without references. And once a block has been executed, the node may
hold references, so no other block may lead to the node.

* `executeVia`, `executeFirst` — executing a node on copies, up to the first block;
* `Unreferenced`, `Separate` — what is asked of the node;
* `WellFormed.issued_of_resolve` — a value leads only to nodes that were given out;
* `ensures_executeVia` — what is touched;
* `FailsAs` — failing in the same way;
* `copy_execution_isolated` — the result, and `copy_execution_escapes` where more is asked
  of it.
-/

namespace TreeScript

open Store Engine

variable {scope : Scope} {s m t : Store} {d : Handle} {T : Set Handle}

-- ---------------------------------------------------------------------------
-- Executing a node
-- ---------------------------------------------------------------------------

/-- Sets the arguments of a node aside, and lets `run` execute what its value leads to. -/
def executeBy (run : List Handle → List Item → Engine Unit) (h : Handle) : Engine Unit := do
  let items ← (← Engine.nodes).resolve h
  let args ← (← Engine.nodes).children h
  let templates ← args.mapM Engine.deepClone
  Engine.always (run templates items) (templates.forM Engine.remove)

/-- Executes a node on copies, where `run` executes what its value leads to. -/
def executeVia (run : List Handle → List Item → Engine Unit) (scope : Scope) (h : Handle)
    (own : Bool) : Engine Unit :=
  Engine.nested scope.settings h do
    if own then executeCopy scope h h [] true
    else
      match ← (← Engine.nodes).value h with
      | none => executeCopy scope h h [] true
      | some _ => executeBy run h

/-- To execute a node on copies is to run its sources with the arguments set aside. -/
theorem execute_copy_eq (scope : Scope) (h : Handle) (own : Bool) :
    execute .copy scope h own =
      executeVia (fun args items => runSources .copy scope h args true items) scope h own := rfl

/-- Executes a node on copies until the first block has been executed. -/
def executeFirst (scope : Scope) (h : Handle) (own : Bool) : Engine Unit :=
  executeVia (runFirst scope h) scope h own

/-- No node of a tree that is there has a reference. -/
def Store.RefFree (s : Store) (a : Handle) : Prop :=
  ∀ x n, s.Reaches a x → s.node? x = some n → ∀ g, n.value ≠ some (.ref g)

/-- A tree without references that is there is bare. -/
theorem Store.RefFree.bare (ha : s.RefFree d) (hwhole : s.Whole d) : s.Bare d := by
  intro x hx
  obtain ⟨n, hn⟩ := isAlive_iff.1 (hwhole x hx)
  exact ⟨n, hn, ha x n hx hn⟩

/-- Neither the blocks that the value of a node leads to nor its children have references. -/
structure Unreferenced (s : Store) (d : Handle) (own : Bool) : Prop where
  blocks {items : List Item} : own = false → s.resolve d = .ok items →
    ∀ i ∈ items, ∀ b, i.block? = some b → s.RefFree b
  children : ∀ c ∈ s.childList d, s.RefFree c

/-- In addition, a node that is its own block has no references in its value; and of the
blocks that a value leads to, only the first that is executed may lead to the node. -/
structure Separate (s : Store) (d : Handle) (own : Bool) : Prop extends Unreferenced s d own where
  self : own = true → s.RefFree d
  forward {items : List Item} : own = false → s.resolve d = .ok items →
    ∀ i ∈ (items.dropWhile (Item.isGone s)).tail, ∀ b, i.block? = some b → ¬ s.Reaches b d

/-- A node without value has no references if its children have none. -/
theorem Unreferenced.refFree {own : Bool} (h : Unreferenced s d own)
    (hv : s.value d = .ok none) : s.RefFree d := by
  obtain ⟨n, hn, hnone⟩ := value_eq_ok_iff.1 hv
  intro x k hx hk g
  rcases Relation.ReflTransGen.cases_head hx with rfl | ⟨c, hc, hcx⟩
  · obtain rfl := Option.some.inj (hn.symm.trans hk)
    simp [hnone]
  · refine h.children c ?_ x k hcx hk g
    rcases (holds_iff hn).1 hc with hmem | hown
    · rwa [childList_eq hn]
    · simp [Node.owned?, hnone] at hown

-- ---------------------------------------------------------------------------
-- What a value leads to
-- ---------------------------------------------------------------------------

namespace Store.WellFormed

/-- What a value points at has been given out. -/
theorem issued_target (hs : WellFormed s) {x b : Handle} {n : Node} {v : Value}
    (hn : s.node? x = some n) (hv : n.value = some v) (hb : v.target? = some b) : s.Issued b := by
  cases v with
  | scalar _ => simp [Value.target?] at hb
  | node g =>
    obtain rfl : g = b := by simpa [Value.target?] using hb
    exact hs.issued_of_value hn hv rfl
  | ref g =>
    obtain rfl : g = b := by simpa [Value.target?] using hb
    exact hs.known hn hv

/-- A block that a path leads to has been given out. -/
theorem issued_of_evaluate (hs : WellFormed s) {e : PathExpr} {items : List Item}
    (hok : e.evaluate s d = .ok items) {i : Item} (hi : i ∈ items) {b : Handle}
    (hb : i.block? = some b) : s.Issued b := by
  unfold PathExpr.evaluate at hok
  obtain ⟨found, hwalk, hok⟩ := bind_eq_ok_iff.1 hok
  -- the walk only meets nodes that are alive
  have hfound : ∀ x ∈ found, s.isAlive x = true := by
    have hends : Ends (e.nodes s d) (fun found => ∀ x ∈ found, s.isAlive x = true)
        (Fault.Excused False) := by
      refine ends_walk hs.toDisciplined.coherent fun x hx => ?_
      split at hx
      next hd =>
        obtain rfl : x = d := by simpa using hx
        exact hd
      next => simp at hx
    rwa [hwalk] at hends
  split at hok
  next =>
    obtain rfl := Except.ok.inj hok
    -- nodes are items themselves
    obtain ⟨x, hx, rfl⟩ := List.mem_map.1 hi
    obtain rfl := Option.some.inj hb
    exact Or.inr (hfound x hx)
  next =>
    obtain ⟨values, hvalues, hok⟩ := bind_eq_ok_iff.1 hok
    obtain rfl := Except.ok.inj hok
    -- values may name a node: its handle was issued, alive or not
    obtain ⟨v, hv, rfl⟩ := List.mem_map.1 hi
    obtain ⟨v', hv', hvv⟩ := List.mem_filterMap.1 hv
    obtain ⟨x, -, hvalue⟩ := mem_of_mapM_eq_ok hvalues hv'
    obtain ⟨n, hn, rfl⟩ := value_eq_ok_iff.1 hvalue
    exact hs.issued_target hn hvv hb
  next =>
    obtain ⟨names, -, hok⟩ := bind_eq_ok_iff.1 hok
    obtain rfl := Except.ok.inj hok
    -- names and counts stand for no block
    obtain ⟨name, -, rfl⟩ := List.mem_map.1 hi
    simp [Item.block?] at hb
  next =>
    obtain rfl := Except.ok.inj hok
    obtain rfl := List.mem_singleton.1 hi
    simp [Item.block?] at hb

/-- A value leads only to nodes that have been given out. -/
theorem issued_of_resolve (hs : WellFormed s) {items : List Item} (hok : s.resolve d = .ok items)
    {i : Item} (hi : i ∈ items) {b : Handle} (hb : i.block? = some b) : s.Issued b := by
  unfold Store.resolve at hok
  obtain ⟨v, hv, hok⟩ := bind_eq_ok_iff.1 hok
  rw [liftM_eq_ok_iff] at hv
  obtain ⟨n, hn, hnv⟩ := value_eq_ok_iff.1 hv
  split at hok
  next =>
    obtain rfl := Except.ok.inj hok
    simp at hi
  next text =>
    split at hok
    next => exact absurd hok (fail_ne_ok _ _ _ _)
    -- an expression is evaluated, every other value is its own item
    next e _ => exact hs.issued_of_evaluate (ofFault_eq_ok_iff.1 hok) hi hb
  next target =>
    obtain rfl := Except.ok.inj hok
    obtain rfl := List.mem_singleton.1 hi
    exact hs.issued_target hn hnv hb
  next target =>
    obtain rfl := Except.ok.inj hok
    obtain rfl := List.mem_singleton.1 hi
    exact hs.issued_target hn hnv hb
  next v _ _ _ =>
    obtain rfl := Except.ok.inj hok
    obtain rfl := List.mem_singleton.1 hi
    exact hs.issued_target hn hnv hb

end Store.WellFormed

/-- What is dropped depends on the members only. -/
theorem dropWhile_congr {α : Type} {p q : α → Bool} {xs : List α} (h : ∀ x ∈ xs, p x = q x) :
    xs.dropWhile p = xs.dropWhile q := by
  induction xs with
  | nil => rfl
  | cons x xs ih =>
    obtain ⟨hx, hxs⟩ := List.forall_mem_cons.1 h
    rw [List.dropWhile_cons, List.dropWhile_cons, hx, ih hxs]

/-- Copies of the arguments have been set aside, and nothing else has happened. -/
theorem Separate.isolable (hsep : Separate s d false) (hs : WellFormed s)
    (hd : s.isAlive d = true) {items : List Item} (hitems : s.resolve d = .ok items)
    {templates : List Handle}
    (hheld : Held (Fence.blank s) s s ({ x | s.Top x } ∪ { c | c ∈ templates }) m)
    (hinside : ∀ c ∈ templates, (Fence.blank s).Inside c) (hwhole : ∀ c ∈ templates, m.Whole c)
    (hu : Unwrapped m) : Isolable m d templates true items := by
  have hfenced : Fenced (Fence.around s none) s m :=
    hs.fenced_sealed.widen hheld.fenced (within_blank (by simp))
  have hkeep : ∀ {a}, ∀ x n, s.Reaches a x → s.node? x = some n → m.node? x = some n :=
    fun _ _ _ hn => hfenced.keeps hn
  have hdm : m.isAlive d = true := hfenced.isAlive_around (beside_none.2 hd)
  have hissued := fun {i} (hi : i ∈ items) {b} (hb : i.block? = some b) =>
    hs.issued_of_resolve hitems hi hb
  -- a block is there now if it was there before
  have halive : ∀ {i}, i ∈ items → ∀ {b}, i.block? = some b →
      m.isAlive b = s.isAlive b := by
    intro i hi b hb
    cases hold : s.isAlive b with
    | true => exact hfenced.isAlive_around (beside_none.2 hold)
    | false => exact hheld.since.evolves.not_isAlive hu (hissued hi hb) hold
  refine ⟨hheld.disciplined, (hs.whole hd).of_keeps hkeep, fun a ha => ⟨?_, ?_, fun hreach => ?_⟩,
    fun i hi b hb => hheld.since.evolves.issued hu (hissued hi hb), fun i hi b hb hlive => ?_,
    fun i hi b hb hreach => ?_⟩
  · exact (hheld.since.tops a).2 (Or.inr ha)
  · exact hheld.fenced.bare_of_blank (hinside a ha).1 (hwhole a ha)
  · have hback := hheld.since.reaches_back hd hdm hreach
    exact (hinside a ha).1 (off_around (beside_none.2 (hback.isAlive hd)))
  · rw [halive hi hb] at hlive
    exact ((hsep.blocks rfl hitems i hi b hb).bare (hs.whole hlive)).of_keeps hkeep
  · have hgone : ∀ i ∈ items, Item.isGone m i = Item.isGone s i := by
      intro i hi
      unfold Item.isGone
      cases hb : i.block? with
      | none => rfl
      | some b => simp [halive hi hb]
    rw [later, if_pos rfl, dropWhile_congr hgone] at hi
    exact hsep.forward rfl hitems i hi b hb (hheld.since.reaches_back hd hdm hreach)

/-- What has been kept since the arguments were set aside has been kept since before. -/
theorem Store.Held.around_before {door : Option Handle} (hs : WellFormed s)
    (hdoor : ∀ x ∈ door, s.isAlive x = true) (h₁ : Held (Fence.blank s) s s T m)
    (h₂ : Held (Fence.around m door) m m { x | m.Top x } t) (hu : Unwrapped t) :
    Held (Fence.around s door) s s T t := by
  have hwhole : ∀ x ∈ door, s.Whole x := fun x hx => hs.whole (hdoor x hx)
  have hkeeps : Fenced (Fence.around s none) s m :=
    hs.fenced_sealed.widen h₁.fenced (within_blank (by simp))
  refine ⟨(h₁.since.trans h₂.since hu).congr h₁.since.tops, ?_⟩
  exact (hs.fenced_loosen hwhole hkeeps).widen h₂.fenced
    (within_around hwhole fun x n hn => hkeeps.keeps hn)

section

variable {run : List Handle → List Item → Engine Unit} {door : Option Handle} {own : Bool}

/-- A way to execute blocks that touches at most the node, and not even that where it fails
and there is no door. -/
def RunsApart (run : List Handle → List Item → Engine Unit) (d : Handle) (door : Option Handle) :
    Prop :=
  ∀ m args items, Ensures (fun t => Isolable m d args true items ∧ Phase m d true { x | m.Top x } t)
    (run args items) (fun _ => Held (Fence.around m (some d)) m m { x | m.Top x })
    (Held (Fence.around m door) m m { x | m.Top x })

/-- Executing a node touches it at most, if the way of execution does: arguments and items are found
inside. -/
theorem ensures_executeBy (hs : WellFormed s) (hd : s.isAlive d = true)
    (hsep : Separate s d false) (hdoor : ∀ x ∈ door, x = d) (hrun : RunsApart run d door) :
    Ensures (fun t => t = s) (executeBy run d)
      (fun _ => Held (Fence.around s (some d)) s s { x | s.Top x })
      (Held (Fence.around s door) s s { x | s.Top x }) := by
  have hlive : ∀ {door' : Option Handle}, (∀ x ∈ door', x = d) →
      ∀ x ∈ door', s.isAlive x = true := fun h x hx => h x hx ▸ hd
  have hsame : ∀ x ∈ some d, x = d := fun x hx => (Option.some.inj hx).symm
  refine Ensures.bind_nodes fun m₀ => ?_
  refine Ensures.bind_lift (R := fun _ _ => True) ?_ ?_ fun items hitems => ?_
  · rintro t - ⟨rfl, rfl⟩
    exact (ends_resolve hs.toDisciplined hd).mono (fun _ _ => trivial) fun _ he => he
  · rintro t - ⟨-, rfl⟩
    exact ⟨.refl hs.toDisciplined, hs.fenced_around fun x hx => hs.whole (hlive hdoor x hx)⟩
  refine Ensures.bind_nodes fun m₁ => ?_
  refine Ensures.bind_liftFault (R := fun t args => ∀ a ∈ args, t.isAlive a = true) ?_
    fun args hargs => ?_
  · rintro t - ⟨rfl, ⟨-, rfl⟩, -⟩
    exact ends_children hs.live hd
  refine Ensures.seq (s.resolve d = .ok items)
    (ensures_templates (F := Fence.blank s) (b := s) (s := s) (T := { x | s.Top x }) args) ?_
    fun templates => ?_
  · rintro t - ⟨⟨rfl, ⟨rfl, rfl⟩, -⟩, halive⟩
    refine ⟨hitems, ⟨.refl hs.toDisciplined, hs.fenced_blank⟩, fun a ha => ⟨halive a ha, Or.inr ?_⟩⟩
    obtain ⟨n, hn, rfl⟩ := children_eq_ok.1 hargs
    have hbare := (hsep.children a (by rwa [childList_eq hn])).bare (hs.whole (halive a ha))
    exact ⟨hbare, fun x hx => off_around (beside_none.2 (hbare.whole x hx))⟩
  · -- the copies of the arguments are freed in either case
    have hclean : ∀ {door' : Option Handle} {E}, (∀ x ∈ door', x = d) →
        Ensures (fun t => (templates.Nodup ∧ ∀ c ∈ templates, c ∉ { x | s.Top x } ∧
            (Fence.blank s).Inside c) ∧ Held (Fence.around s door') s s
              ({ x | s.Top x } ∪ { c | c ∈ templates }) t)
          (templates.forM Engine.remove) (fun _ => Held (Fence.around s door') s s { x | s.Top x })
          E := fun h => (ensures_removeAll templates).before fun t _ ht =>
      ⟨⟨ht.1.1, fun c hc => ⟨(ht.1.2 c hc).1, (within_blank (hlive h)).inside (ht.1.2 c hc).2⟩⟩,
        ht.2⟩
    -- the arguments are freed on every exit
    refine Ensures.always (Ensures.start fun m => ?_) (fun _ => hclean hsame) (hclean hdoor)
    refine ((hrun m templates items).frame ((templates.Nodup ∧ ∀ c ∈ templates,
      c ∉ { x | s.Top x } ∧ (Fence.blank s).Inside c) ∧ Held (Fence.blank s) s s
        ({ x | s.Top x } ∪ { c | c ∈ templates }) m)).weaken ?_ ?_ ?_
    · rintro t hu ⟨rfl, hitems, htemplates, hheld, hwhole⟩
      exact ⟨⟨htemplates, hheld⟩, hsep.isolable hs hd hitems hheld
        (fun c hc => (htemplates.2 c hc).2) (fun c hc => (hwhole c hc).1) hu,
        ⟨(Since.refl hheld.disciplined), hheld.disciplined.fenced_sealed⟩, by simp⟩
    · rintro - t hu ⟨⟨htemplates, hheld⟩, ht⟩
      exact ⟨htemplates, hheld.around_before hs (hlive hsame) ht hu⟩
    · rintro t hu ⟨⟨htemplates, hheld⟩, ht⟩
      exact ⟨htemplates, hheld.around_before hs (hlive hdoor) ht hu⟩

/-- A node is executed on copies: at most the node is touched, and nothing where no block
has been executed. -/
theorem ensures_executeVia (door : Option Handle) (hscope : scope.Confined) (hs : WellFormed s)
    (hd : s.isAlive d = true)
    (hsep : Separate s d own) (hdoor : ∀ x ∈ door, x = d) (hrun : RunsApart run d door) :
    Ensures (fun t => t = s) (executeVia run scope d own)
      (fun _ => Held (Fence.around s (some d)) s s { x | s.Top x })
      (Held (Fence.around s door) s s { x | s.Top x }) := by
  have hwhole : ∀ x ∈ door, s.Whole x := fun x hx => hdoor x hx ▸ hs.whole hd
  -- executing a block of its own copies the destination itself
  have hself : s.RefFree d → Ensures (fun t => t = s) (executeCopy scope d d [] true)
      (fun _ => Held (Fence.around s (some d)) s s { x | s.Top x })
      (Held (Fence.around s door) s s { x | s.Top x }) := by
    intro hfree
    refine (ensures_copyApart (m := s) (T := { x | s.Top x }) hscope d [] true).weaken ?_
      (fun _ _ _ ht => ht.held) fun _ _ ht => ht.loosen hs.toDisciplined hwhole
    rintro t - rfl
    exact ⟨⟨hs.toDisciplined, hs.whole hd⟩, ⟨⟨.refl hs.toDisciplined, hs.fenced_sealed⟩, by simp⟩,
      hfree.bare (hs.whole hd), by simp⟩
  refine Ensures.nested ?_ fun t _ ht => ?_
  · refine Ensures.ite (fun hown => hself (hsep.self hown)) fun hown => ?_
    -- otherwise the value of the destination decides what is executed
    obtain rfl : own = false := by simpa using hown
    refine Ensures.bind_nodes fun m₀ => ?_
    refine Ensures.bind_liftFault (R := fun _ _ => True) ?_ fun v hv => ?_
    · rintro t - ⟨rfl, rfl⟩
      exact (ends_value hd).mono (fun _ _ => trivial) fun _ he => he
    · cases v with
      | none =>
        exact (Ensures.assume (m₀ = s) (hscope.evolves d d [] true) fun heq =>
          hself (hsep.refFree (heq ▸ hv))).before fun t _ ht => ⟨ht.1.1.symm.trans ht.1.2, ht.1.2⟩
      | some v => exact (ensures_executeBy hs hd hsep hdoor hrun).before fun _ _ ht => ht.1.2
  · subst ht
    exact ⟨hs.live, .refl hs.toDisciplined, hs.fenced_around hwhole⟩

end

-- ---------------------------------------------------------------------------
-- Failing in the same way
-- ---------------------------------------------------------------------------

/-- Where one computation fails, the other fails with the same failure in the same session. -/
def Engine.FailsAs {α β : Type} (x : Engine α) (y : Engine β) : Prop :=
  ∀ σ f σ', x σ = .error (.failure f) σ' → y σ = .error (.failure f) σ'

namespace Engine.FailsAs

variable {α β γ : Type}

theorem refl (x : Engine α) : FailsAs x x := fun _ _ _ hx => hx

theorem pure (a : α) (y : Engine β) : FailsAs (Pure.pure a) y := fun _ _ _ hx => nomatch hx

/-- Where what follows fails alike, the whole does. -/
theorem bind {x : Engine α} {f : α → Engine β} {g : α → Engine γ}
    (h : ∀ a, FailsAs (f a) (g a)) : FailsAs (x >>= f) (x >>= g) := by
  intro σ e σ' hx
  change EStateM.bind x f σ = _ at hx
  show EStateM.bind x g σ = _
  unfold EStateM.bind at hx ⊢
  cases hr : x σ with
  | ok a σ₁ =>
    rw [hr] at hx
    exact h a _ _ _ hx
  | error e' σ₁ =>
    rw [hr] at hx
    obtain ⟨rfl, rfl⟩ : e' = .failure e ∧ σ₁ = σ' := by simpa using hx
    rfl

/-- A failure of what is done last apart, the whole fails where the first part does. -/
theorem always {x y : Engine α} (h : FailsAs x y) {last : Engine Unit}
    (hlast : ∀ σ, ∃ σ', last σ = .ok () σ') :
    FailsAs (Engine.always x last) (Engine.always y last) := by
  -- the last step runs on what was attempted, failure or not
  have hrun : ∀ (z : Engine α) (σ : Session), Engine.always z last σ = match attempt z σ with
      | .ok outcome σ₁ => (last >>= fun _ => ofOutcome outcome) σ₁
      | .error e σ₁ => .error e σ₁ := by
    intro z σ
    show EStateM.bind (attempt z) (fun outcome => last >>= fun _ => ofOutcome outcome) σ = _
    unfold EStateM.bind
    cases attempt z σ <;> rfl
  intro σ e σ' hx
  rw [hrun] at hx ⊢
  unfold attempt at hx ⊢
  cases hr : x σ with
  -- a run that succeeds cannot fail in its last step, which always succeeds
  | ok a σ₁ =>
    obtain ⟨σ₂, hσ₂⟩ := hlast σ₁
    rw [hr] at hx
    change EStateM.bind last (fun _ => Pure.pure a) σ₁ = _ at hx
    simp only [EStateM.bind, hσ₂] at hx
    cases hx
  | error halt σ₁ =>
    rw [hr] at hx
    cases halt with
    | failure f => rwa [h σ f σ₁ hr]
    | fault f => simp at hx

theorem nested {x y : Engine α} (h : FailsAs x y) (settings : Settings) (node : Handle) :
    FailsAs (Engine.nested settings node x) (Engine.nested settings node y) := by
  refine bind fun σ => ?_
  split
  · exact refl _
  · exact bind fun _ => h.always fun σ => ⟨_, rfl⟩

end Engine.FailsAs

theorem Engine.forM_remove_eq_ok (cs : List Handle) (σ : Session) :
    ∃ σ', cs.forM Engine.remove σ = .ok () σ' := by
  induction cs generalizing σ with
  | nil => exact ⟨σ, rfl⟩
  | cons c rest ih =>
    obtain ⟨σ', hσ'⟩ := ih { σ with nodes := σ.nodes.remove c }
    exact ⟨σ', hσ'⟩

/-- Where the first block fails, so does the run of all blocks, in the same session. -/
theorem runFirst_failsAs (scope : Scope) (h : Handle) (args : List Handle) (items : List Item) :
    FailsAs (runFirst scope h args items) (runSources .copy scope h args true items) := by
  induction items with
  | nil => exact FailsAs.pure _ _
  | cons item rest ih =>
    rw [runFirst, runSources_cons]
    refine FailsAs.bind fun alive => ?_
    cases alive with
    | false => exact FailsAs.pure _ _
    | true =>
      refine FailsAs.bind fun ran => ?_
      cases ran with
      | false => exact ih
      | true => exact FailsAs.pure _ _

/-- Where executing a node fails before a block has been executed, executing it fails. -/
theorem executeFirst_failsAs (scope : Scope) (h : Handle) (own : Bool) :
    FailsAs (executeFirst scope h own) (execute .copy scope h own) := by
  rw [execute_copy_eq]
  refine FailsAs.nested ?_ _ _
  cases own with
  | true => exact FailsAs.refl _
  | false =>
    refine FailsAs.bind fun s => FailsAs.bind fun v => ?_
    cases v with
    | none => exact FailsAs.refl _
    | some v =>
      refine FailsAs.bind fun s => FailsAs.bind fun items => FailsAs.bind fun s' =>
        FailsAs.bind fun args => FailsAs.bind fun templates => ?_
      exact (runFirst_failsAs scope h templates items).always (forM_remove_eq_ok templates)

-- ---------------------------------------------------------------------------
-- Stores at hand
-- ---------------------------------------------------------------------------

/-- Whether every value points at a live node. -/
def Store.isTight (s : Store) : Bool :=
  s.slots.toList.all fun slot => slot.node.all fun n => (n.value.bind Value.target?).all s.isAlive

/-- A disciplined store is well formed if no value points at a stale handle. -/
theorem Store.Disciplined.wellFormed (hd : Disciplined s) (htight : s.isTight = true) :
    WellFormed s := by
  have htarget : ∀ {h g : Handle} {n : Node}, s.node? h = some n →
      n.value.bind Value.target? = some g → s.isAlive g = true := by
    intro h g n hn
    refine forall_of_slots (P := fun n => n.value.bind Value.target? = some g →
      s.isAlive g = true) (fun slot hslot k hk hg => ?_) hn
    have hall := (Option.all_eq_true _ _).1 (List.all_eq_true.1 htight slot hslot) k hk
    simpa [hg] using hall
  refine ⟨hd, fun {o c} ho => ?_,
    fun {h g n} hn hg => Or.inr (htarget hn (by simp [hg, Value.target?]))⟩
  obtain ⟨n, hn, hown⟩ := owns_iff.1 ho
  obtain ⟨v, hv, hc⟩ := Option.bind_eq_some_iff.1 hown
  refine htarget hn ?_
  cases v with
  | node g => simpa [hv, Value.target?, Value.owned?] using hc
  | scalar _ => simp [Value.owned?] at hc
  | ref _ => simp [Value.owned?] at hc

/-- Whether all that some nodes hold is among them. -/
def Store.isClosed (s : Store) (xs : List Handle) : Bool :=
  xs.all fun x => (s.node? x).all fun n => (n.children ++ n.owned?.toList).all xs.contains

/-- All that some nodes lead to is among them, if all that they hold is. -/
theorem Store.mem_of_isClosed {xs : List Handle} (hclosed : s.isClosed xs = true) {a x : Handle}
    (ha : a ∈ xs) (hx : s.Reaches a x) : x ∈ xs := by
  induction hx with
  | refl => exact ha
  | @tail y z _ hstep ih =>
    obtain ⟨n, hn, hheld⟩ := hstep
    have hall := (Option.all_eq_true _ _).1 (List.all_eq_true.1 hclosed y ih) n hn
    have hmem : z ∈ n.children ++ n.owned?.toList := by simpa using hheld
    simpa using List.all_eq_true.1 hall z hmem

/-- Whether none of some nodes has a reference. -/
def Store.isRefFree (s : Store) (xs : List Handle) : Bool :=
  xs.all fun x => (s.node? x).all fun n => n.value.all fun v => !v matches .ref _

/-- Trees have no references if they are made of nodes without any. -/
theorem Store.refFree_of_isClosed (xs : List Handle) (hclosed : s.isClosed xs = true)
    (hfree : s.isRefFree xs = true) {a : Handle} (ha : a ∈ xs) : s.RefFree a := by
  intro x n hx hn g hg
  have hall := (Option.all_eq_true _ _).1
    (List.all_eq_true.1 hfree x (mem_of_isClosed hclosed ha hx)) n hn
  simp [hg] at hall

/-- The handles of a store in which nothing has been freed. -/
def firstHandles (n : Nat) : List Handle := (List.range n).map fun i => ⟨i, 0⟩

/-- Neither blocks nor children have references if they are among closed nodes without any. -/
theorem unreferenced_of_isClosed (xs : List Handle) {items : List Item}
    (hclosed : s.isClosed xs = true) (hfree : s.isRefFree xs = true)
    (hresolve : s.resolve d = .ok items)
    (hblocks : (items.all fun i => i.block?.all xs.contains) = true)
    (hchildren : (s.childList d).all xs.contains = true) : Unreferenced s d false where
  blocks _ hok i hi b hb := by
    obtain rfl := Except.ok.inj (hresolve.symm.trans hok)
    have hmem := (Option.all_eq_true _ _).1 (List.all_eq_true.1 hblocks i hi) b hb
    exact refFree_of_isClosed xs hclosed hfree (by simpa using hmem)
  children c hc := by
    have hmem := List.all_eq_true.1 hchildren c hc
    exact refFree_of_isClosed xs hclosed hfree (by simpa using hmem)

/-- A program that has been read, in which nothing points anywhere. -/
theorem Store.wellFormed_ofDocs {docs : List Doc} (hu : (Store.ofDocs docs).isUnwrapped = true)
    (htight : (Store.ofDocs docs).isTight = true) : WellFormed (Store.ofDocs docs) :=
  (disciplined_ofDocs (unwrapped_of_isUnwrapped hu)).wellFormed htight

-- ---------------------------------------------------------------------------
-- The standard keywords
-- ---------------------------------------------------------------------------

/-- In the language, what is executed inside a sealed fence stays inside. -/
theorem confined_standard (unknown : UnknownEvents) (settings : Settings) (fuel : Nat) :
    (standardScope unknown settings fuel).Confined := by
  intro F b hseal
  exact (Registry.keeps_standard hseal unknown).scope settings fuel

/-- A node is executed on copies. Whether this succeeds or fails, every node that was there
and that the node did not lead to is as it was, and the node has its name and its place. If
it fails before a block has been executed, every node is as it was, and none has come. -/
theorem copy_execution_isolated (unknown : UnknownEvents) (settings : Settings) (fuel : Nat)
    (σ : Session) {d : Handle} {own : Bool} (hs : WellFormed σ.nodes)
    (hd : σ.nodes.isAlive d = true) (hsep : Separate σ.nodes d own) :
    (∀ σ', (execute .copy (standardScope unknown settings fuel) d own).Returns σ σ' →
        (∀ i, σ'.nodes.freedAt i < 2 ^ 32) →
        (∀ x, σ.nodes.isAlive x = true → ¬ σ.nodes.Reaches d x →
          σ'.nodes.node? x = σ.nodes.node? x) ∧ InPlace σ.nodes d σ'.nodes) ∧
      ∀ f σ', executeFirst (standardScope unknown settings fuel) d own σ =
          .error (.failure f) σ' →
        execute .copy (standardScope unknown settings fuel) d own σ = .error (.failure f) σ' ∧
          ((∀ i, σ'.nodes.freedAt i < 2 ^ 32) →
            (∀ x, σ.nodes.isAlive x = true → σ'.nodes.node? x = σ.nodes.node? x) ∧
              σ'.nodes.live = σ.nodes.live) := by
  have hscope := confined_standard unknown settings fuel
  refine ⟨fun σ' hret hu => ?_, fun f σ' hfails => ⟨executeFirst_failsAs _ _ _ _ _ _ hfails,
    fun hu => ?_⟩⟩
  -- the whole execution is fenced in around the destination
  · have hall := ensures_executeVia (some d) hscope hs hd hsep
      (fun x hx => (Option.some.inj hx).symm)
      fun m args items => ensures_runSources_apart hscope items
    have hheld := hall.returns hret hu rfl
    exact ⟨fun x hx hnot => hheld.fenced.node?_around
      ⟨hx, fun y hy => (Option.some.inj hy) ▸ hnot⟩, hheld.fenced.door rfl⟩
  -- the part before the first delivery leaves the destination alone as well
  · have hfirst := ensures_executeVia none hscope hs hd hsep (by simp)
      fun m args items => ensures_runFirst hscope items
    have hheld := hfirst.fails hfails hu rfl
    exact ⟨fun x hx => hheld.fenced.node?_around (beside_none.2 hx),
      hheld.since.live_eq hs hheld.fenced⟩

/-- The loop's block and its argument have no references. -/
theorem separate_abandoned : Separate (Store.ofDocs abandoned) ⟨1, 0⟩ false := by
  have hresolve : (Store.ofDocs abandoned).resolve ⟨1, 0⟩ = .ok [.node ⟨3, 0⟩] := by cbv
  refine ⟨unreferenced_of_isClosed (firstHandles 6) (by cbv) (by cbv) hresolve (by cbv)
    (by cbv), by simp, fun _ hok i hi => ?_⟩
  obtain rfl := Except.ok.inj (hresolve.symm.trans hok)
  rw [List.dropWhile_cons] at hi
  split at hi <;> simp at hi

/-- The program fails in the middle of the block that the first node names. -/
theorem copy_execution_isolated_abandoned : ∃ f σ',
    execute .copy (standardScope .error {} 5) ⟨1, 0⟩ false { nodes := Store.ofDocs abandoned } =
      .error (.failure f) σ' ∧ InPlace (Store.ofDocs abandoned) ⟨1, 0⟩ σ'.nodes ∧
    (∀ x, (Store.ofDocs abandoned).isAlive x = true →
      σ'.nodes.node? x = (Store.ofDocs abandoned).node? x) ∧
    σ'.nodes.live = (Store.ofDocs abandoned).live := by
  have hrun : Outcome.isFailure (executeFirst (standardScope .error {} 5) ⟨1, 0⟩ false
      { nodes := Store.ofDocs abandoned }) = true := by cbv
  obtain ⟨f, σ', hfails, hu⟩ := Outcome.of_isFailure hrun
  obtain ⟨hall, hfirst⟩ := copy_execution_isolated .error {} 5
    { nodes := Store.ofDocs abandoned } (wellFormed_ofDocs (by cbv) (by cbv)) (by cbv)
    separate_abandoned
  obtain ⟨hexecute, hsame⟩ := hfirst f σ' hfails
  exact ⟨f, σ', hexecute, (hall σ' (Or.inr ⟨f, hexecute⟩) hu).2, hsame hu⟩

-- ---------------------------------------------------------------------------
-- Ways out
-- ---------------------------------------------------------------------------

/-- A node whose value is a reference to its neighbour, and whose child executes what the
value of the root of its tree points at. -/
def pointed : Store :=
  (Store.ofDocs [.plain "_d" none [.plain "eval-mutable" (some (.expr "/../#")) []],
    .plain "_e" none [.plain "return" none []]]).assign ⟨1, 0⟩ (some (.ref ⟨3, 0⟩))

/-- A node whose value leads to two blocks. The first gives it a child and a reference to
that child; the second, around the node, executes what the node points at. -/
def relayed : List Doc :=
  [.plain "_b" none [
      .plain "for-each" (some (.expr "/../*/_c"))
        [.plain "return" (some (.expr "/./*/_dp?value")) []],
      .plain "eval-mutable" (some (.expr "/..")) [.plain "_c" none [.plain "return" none []]]],
    .plain "_p" none [
      .plain "eval-mutable" (some (.expr "/../*/_d/#")) [],
      .plain "_d" (some (.expr "/../*")) []]]

/-- Whether a computation has succeeded and changed the children of a node. -/
def Outcome.changes {α : Type} (s : Store) (x : Handle) : EStateM.Result Halt Session α → Bool
  | .ok _ σ => σ.nodes.isUnwrapped && decide (σ.nodes.childList x ≠ s.childList x)
  | .error _ _ => false

/-- Executing a node on copies changes a node that was there and that it did not lead to. -/
def Escapes (s : Store) (d : Handle) (own : Bool) : Prop :=
  ∃ σ', (execute .copy (standardScope .error {} 6) d own).Returns { nodes := s } σ' ∧
    (∀ i, σ'.nodes.freedAt i < 2 ^ 32) ∧
    ∃ x, s.isAlive x = true ∧ ¬ s.Reaches d x ∧ σ'.nodes.node? x ≠ s.node? x

/-- A run that changes a node which is not reached from the destination has escaped. -/
theorem escapes_of_changes {own : Bool} (x : Handle) (xs : List Handle) (hx : s.isAlive x = true)
    (hclosed : s.isClosed xs = true) (hd : d ∈ xs) (hnot : x ∉ xs)
    (hrun : Outcome.changes s x
      (execute .copy (standardScope .error {} 6) d own { nodes := s }) = true) :
    Escapes s d own := by
  cases hr : execute .copy (standardScope .error {} 6) d own { nodes := s } with
  | error e σ' => simp [hr, Outcome.changes] at hrun
  | ok a σ' =>
    rw [hr, Outcome.changes, Bool.and_eq_true, decide_eq_true_eq] at hrun
    refine ⟨σ', Or.inl ⟨a, hr⟩, unwrapped_of_isUnwrapped hrun.1, x, hx,
      fun hreach => hnot (mem_of_isClosed hclosed hd hreach), fun heq => hrun.2 ?_⟩
    rw [Store.childList, heq]
    rfl

/-- The store with a reference to a neighbour is well formed. -/
theorem wellFormed_pointed : WellFormed pointed := by
  have hd : Disciplined (Store.ofDocs [.plain "_d" none [.plain "eval-mutable"
      (some (.expr "/../#")) []], .plain "_e" none [.plain "return" none []]]) :=
    disciplined_ofDocs (unwrapped_of_isUnwrapped (by cbv))
  have hsince := (Since.refl hd).assign (x := ⟨1, 0⟩) (v := some (.ref ⟨3, 0⟩)) (by cbv)
    (givable_of_owned?_eq_none rfl) (unwrapped_of_isUnwrapped (by cbv))
  exact hsince.1.disciplined.wellFormed (by cbv)

set_option maxRecDepth 100000 in
/-- It is not enough that blocks and children have no references. A node that is its own
block is copied with its value, and a block around the node with what the node has got. -/
theorem copy_execution_escapes :
    (WellFormed pointed ∧ pointed.isAlive ⟨1, 0⟩ = true ∧ Unreferenced pointed ⟨1, 0⟩ true ∧
      Escapes pointed ⟨1, 0⟩ true) ∧
    WellFormed (Store.ofDocs relayed) ∧ (Store.ofDocs relayed).isAlive ⟨9, 0⟩ = true ∧
      Unreferenced (Store.ofDocs relayed) ⟨9, 0⟩ false ∧
      Escapes (Store.ofDocs relayed) ⟨9, 0⟩ false := by
  refine ⟨⟨wellFormed_pointed, by cbv, ⟨by simp, fun c hc => ?_⟩, ?_⟩,
    wellFormed_ofDocs (by cbv) (by cbv), by cbv, ?_, ?_⟩
  · obtain rfl : c = ⟨2, 0⟩ := List.mem_singleton.1
      (show c ∈ [⟨2, 0⟩] from (by cbv : pointed.childList ⟨1, 0⟩ = [⟨2, 0⟩]) ▸ hc)
    exact refFree_of_isClosed [⟨2, 0⟩] (by cbv) (by cbv) (by simp)
  · exact escapes_of_changes ⟨0, 0⟩ [⟨1, 0⟩, ⟨2, 0⟩] (by cbv) (by cbv) (by decide)
      (by decide) (by cbv)
  · have hresolve : (Store.ofDocs relayed).resolve ⟨9, 0⟩ = .ok [.node ⟨1, 0⟩, .node ⟨7, 0⟩] := by
      cbv
    exact unreferenced_of_isClosed (firstHandles 10) (by cbv) (by cbv) hresolve (by cbv) (by cbv)
  · exact escapes_of_changes ⟨0, 0⟩ [⟨9, 0⟩] (by cbv) (by cbv) (by decide)
      (by decide) (by cbv)

end TreeScript
