import TreeScript.Keyword.Widgets
import TreeScript.Proofs.Keyword.Arguments

/-!
# TreeScript — keywords for widgets keep a store in order

Reading, setting and deleting properties looks at the store and changes the widgets. Only
what has been read is put into the store in the end, below the keyword's node.

* `ensures_findWidget`, `ensures_propertyNames`, `ensures_assignments` — looking at the store;
* `ensures_findOrAdd`, `ensures_addAll` — what has been read;
* `keeps_getProperty`, `keeps_listProperties`, `keeps_setProperty`, `keeps_deleteProperty`.
-/

namespace TreeScript.Keyword

open Store Engine

variable {F : Fence} {b s : Store} {T : Set Handle} {P : Store → Prop}

-- ---------------------------------------------------------------------------
-- Looking at the store
-- ---------------------------------------------------------------------------

/-- What follows is given the widgets, whatever they are. -/
theorem bind_widgets {α : Type} {k : WidgetStore → Engine α} {Q : α → Store → Prop}
    {E : Store → Prop} (hk : ∀ w, Ensures P (k w) Q E) : Ensures P (widgets >>= k) Q E :=
  ⟨fun σ => (hk σ.widgets).evolves σ, fun σ hu hσ => (hk σ.widgets).ended σ hu hσ⟩

theorem ensures_findWidget (hP : ∀ {t}, P t → Held F b s T t) (h : Handle) (id : String) :
    Ensures P (findWidget h id) (fun _ => P) (Held F b s T) := by
  unfold findWidget
  refine bind_widgets fun ws => ?_
  split
  next w _ => exact Ensures.skip w
  next => exact Ensures.fail h _ fun t _ ht => ⟨(hP ht).live, hP ht⟩

theorem ensures_setWidgets (w : WidgetStore) {E : Store → Prop} :
    Ensures P (setWidgets w) (fun _ => P) E := Ensures.aside fun _ => rfl

theorem ensures_propertyNames {args : List Handle}
    (hP : ∀ {t}, P t → ∀ a ∈ args, t.isAlive a = true) {E : Store → Prop} :
    Ensures P (propertyNames args) (fun _ => P) E := by
  refine Ensures.bind_nodes fun m => ?_
  refine Ensures.bind (Q := fun _ => P) ?_ fun names => Ensures.skip _
  refine (Ensures.mapM (I := fun _ t => t = m ∧ P t) (fun a ha done => ?_) []).weaken
    (fun _ _ ht => ht) (fun _ _ _ ht => ht.2) fun _ _ ht => ht
  refine Ensures.lookup ?_
  rintro t - ⟨rfl, ht⟩
  exact (ends_name (hP ht a ha)).mono (fun _ _ => trivial) fun _ he => he

/-- The assignments are read from arguments that are there, or there is a failure. -/
theorem ensures_assignments {args : List Handle}
    (hP : ∀ {t}, P t → Held F b s T t ∧ ∀ a ∈ args, t.isAlive a = true) :
    Ensures P (assignments args) (fun _ => P) (Held F b s T) := by
  induction args with
  | nil => exact Ensures.skip []
  | cons arg rest ih =>
    have hrest := ih fun ht => ⟨(hP ht).1, fun a ha => (hP ht).2 a (List.mem_cons_of_mem _ ha)⟩
    rw [assignments]
    refine Ensures.bind_nodes fun m => ?_
    refine Ensures.bind_liftFault (R := fun _ _ => True) ?_ fun name _ => ?_
    · rintro t - ⟨rfl, ht⟩
      exact (ends_name ((hP ht).2 arg (by simp))).mono (fun _ _ => trivial) fun _ he => he
    refine Ensures.ite (fun _ => hrest.before fun _ _ ht => ht.1.2) fun _ => ?_
    refine Ensures.bind_nodes fun m' => ?_
    refine Ensures.bind_lift (R := fun _ _ => True) ?_ (fun t _ ht => (hP ht.2.1.2).1)
      fun v _ => ?_
    · rintro t - ⟨rfl, ⟨-, ht⟩, -⟩
      exact (ends_singleValue (hP ht).1.disciplined ((hP ht).2 arg (by simp))).mono
        (fun _ _ => trivial) fun _ he => he
    · exact Ensures.bind (hrest.before fun _ _ ht => ht.1.2.1.2) fun _ => Ensures.skip _

-- ---------------------------------------------------------------------------
-- Setting and deleting
-- ---------------------------------------------------------------------------

theorem ensures_renderTypeFor (hP : ∀ {t}, P t → Held F b s T t) (a : Assignment) (text : String) :
    Ensures P (renderTypeFor a text) (fun _ => P) (Held F b s T) := by
  refine Ensures.ite (fun _ => ?_) fun _ => Ensures.skip _
  split
  next => exact Ensures.skip _
  next => exact Ensures.fail _ _ fun t _ ht => ⟨(hP ht).live, hP ht⟩

theorem ensures_assignAll (hP : ∀ {t}, P t → Held F b s T t) (h : Handle) (id : String)
    (todo : List Assignment) : Ensures P (assignAll h id todo) (fun _ => P) (Held F b s T) := by
  induction todo generalizing id with
  | nil => exact Ensures.skip ()
  | cons a rest ih =>
    rw [assignAll]
    refine Ensures.bind_nodes fun m => ?_
    extract_lets flag jp
    -- once the text of the value is known
    have hset : ∀ text, Ensures P (jp text) (fun _ => P) (Held F b s T) := by
      intro text
      refine Ensures.ite (fun _ => bind_widgets fun w => ?_) fun _ => ?_
      · split
        next w' _ => exact (ensures_setWidgets w').bind fun _ => ih text
        next => exact Ensures.fail _ _ fun t _ ht => ⟨(hP ht).live, hP ht⟩
      · refine (ensures_renderTypeFor hP a text).bind fun _ => ?_
        refine (ensures_findWidget hP h id).bind fun _ => bind_widgets fun w => ?_
        exact (ensures_setWidgets _).bind fun _ => ih id
    split
    next v _ =>
      refine Ensures.bind_lift (R := fun _ _ => True) ?_ (fun t _ ht => hP ht.2)
        fun text _ => (hset text).before fun _ _ ht => ht.1.2
      rintro t - ⟨rfl, ht⟩
      exact (ends_display (hP ht).live v false).ofFault
    next => exact (hset "").before fun _ _ ht => ht.2

theorem keeps_setProperty : Handler.Keeps F b setProperty := by
  intro scope _ s T h
  refine bind_strings (fun ht => ⟨ht.1, ht.2.1⟩) fun ids => bind_arguments fun args => ?_
  refine (ensures_assignments fun ht => ⟨ht.1, fun a ha => ht.isAlive ha⟩).bind fun todo => ?_
  refine (Ensures.forM (I := fun _ => Called F b s T h args) (fun id _ => ?_) ids).weaken
    (fun _ _ ht => ht) (fun _ _ _ ht => ht.1) fun _ _ ht => ht
  exact (ensures_findWidget (fun ht => ht.1) h id).bind fun _ =>
    ensures_assignAll (fun ht => ht.1) h id todo

theorem keeps_deleteProperty : Handler.Keeps F b deleteProperty := by
  intro scope _ s T h
  refine Ensures.bind_nodes fun m => ?_
  refine Ensures.bind_liftFault (R := fun t n => t.node? h = some n) ?_ fun n _ => ?_
  · rintro t - ⟨rfl, -, hh⟩
    exact ends_node hh.1
  refine Ensures.ite (fun _ => ?_) fun _ => (Ensures.skip ()).before fun _ _ ht => ht.1.2.1
  refine Ensures.bind_lift (R := fun _ _ => True) ?_ (fun t _ ht => ht.1.2.1) fun ids _ => ?_
  · rintro t - ⟨⟨rfl, ht, hh⟩, -⟩
    exact ends_strings ht.disciplined hh.1
  refine Ensures.bind ((ensures_propertyNames (P := Called F b s T h n.children)
    fun ht a ha => ht.isAlive ha).before fun t _ ht => ?_) fun names => ?_
  · exact ⟨ht.1.1.2.1, ht.1.1.2.2, fun a ha => by rwa [childList_eq ht.1.2]⟩
  split
  next name _ => exact Ensures.fail h _ fun t _ ht => ⟨ht.1.live, ht.1⟩
  next =>
    refine (Ensures.forM (I := fun _ => Called F b s T h n.children) (fun id _ => ?_) ids).weaken
      (fun _ _ ht => ht) (fun _ _ _ ht => ht.1) fun _ _ ht => ht
    exact (ensures_findWidget (fun ht => ht.1) h id).bind fun _ => bind_widgets fun w =>
      ensures_setWidgets _

-- ---------------------------------------------------------------------------
-- What has been read
-- ---------------------------------------------------------------------------

/-- Properties are added below a node that is there. -/
theorem ensures_addAll (h p : Handle) (found : List (String × Scalar)) {E : Store → Prop} :
    Ensures (fun t => Target F b s T h t ∧ F.Present t p) (addAll p found)
      (fun _ => Target F b s T h) E := by
  refine (Ensures.forM (I := fun _ t => Target F b s T h t ∧ F.Present t p) (fun a _ => ?_)
    found).weaken (fun _ _ ht => ht) (fun _ _ _ ht => ht.1) fun _ _ ht => ht
  exact ((ensures_addScalar h p a.1 (Or.inr ⟨a.2, rfl⟩)).weaken (fun _ _ ht => ht)
    (fun _ _ _ ht => ht.1) fun _ _ ht => ht).bind fun _ => Ensures.skip _

/-- The child that is found or added is there. -/
theorem ensures_findOrAdd (h : Handle) (name : String) {E : Store → Prop} :
    Ensures (Target F b s T h) (findOrAdd h name)
      (fun c t => Target F b s T h t ∧ F.Present t c) E := by
  refine Ensures.bind_nodes fun m => ?_
  refine Ensures.bind_liftFault (R := fun t found => ∀ c, found = some c → t.isAlive c = true)
    ?_ fun found hfound => ?_
  · rintro t - ⟨rfl, ht⟩
    exact ends_childNamed? ht.2.1.live h name
  · cases found with
    | some c =>
      refine (Ensures.pure c).before ?_
      rintro t - ⟨⟨rfl, ht⟩, halive⟩
      exact ⟨ht, halive c rfl, ht.2.1.fenced.childNamed? ht.1.1 hfound⟩
    | none =>
      exact (ensures_addScalar h h name (Or.inl rfl)).weaken
        (fun t _ ht => ⟨ht.1.2, ht.1.2.2.2, ht.1.2.1⟩) (fun _ _ _ ht => ⟨ht.1.1, ht.2⟩)
        fun _ _ ht => ht

/-- The properties of each widget are read while the arguments are still there. -/
theorem ensures_readEach {α : Type} {h : Handle} {args : List Handle} (ids : List String)
    (f : String → Widget → α) :
    Ensures (Called F b s T h args)
      (ids.mapM fun id => do
        let w ← findWidget h id
        return f id w)
      (fun _ => Called F b s T h args) (Held F b s T) :=
  (Ensures.mapM (I := fun _ => Called F b s T h args) (fun id _ _ =>
    (ensures_findWidget (fun ht => ht.1) h id).bind fun _ => Ensures.skip _) [])

theorem keeps_getProperty : Handler.Keeps F b getProperty := by
  intro scope _ s T h
  refine bind_strings (fun ht => ⟨ht.1, ht.2.1⟩) fun ids => bind_arguments fun args => ?_
  refine (ensures_propertyNames fun ht a ha => ht.isAlive ha).bind fun names => ?_
  refine (ensures_readEach ids _).bind fun found => ?_
  refine (ensures_removeArguments h args).bind fun _ => ?_
  refine (Ensures.forM (I := fun _ => Target F b s T h) (fun x _ => ?_) found.flatten).weaken
    (fun _ _ ht => ht) (fun _ _ _ ht => ht.2.1) fun _ _ ht => ht
  exact (ensures_findOrAdd h x.1).bind fun holder => ensures_addAll h holder _

theorem keeps_listProperties : Handler.Keeps F b listProperties := by
  intro scope _ s T h
  refine bind_strings (fun ht => ⟨ht.1, ht.2.1⟩) fun ids => bind_arguments fun args => ?_
  refine (ensures_readEach ids _).bind fun found => ?_
  refine (ensures_removeArguments h args).bind fun _ => ?_
  refine (Ensures.forM (I := fun _ => Target F b s T h) (fun x _ => ?_) found).weaken
    (fun _ _ ht => ht) (fun _ _ _ ht => ht.2.1) fun _ _ ht => ht
  refine Ensures.bind ((ensures_addScalar h h x.1 (Or.inl rfl)).weaken
    (fun t _ ht => ⟨ht, ht.2.2, ht.1⟩) (fun _ _ _ ht => ⟨ht.1.1, ht.2⟩) fun _ _ ht => ht)
    fun holder => ensures_addAll h holder _

end TreeScript.Keyword
