import TreeScript.Proofs.Engine.Preserve
import TreeScript.Proofs.Engine.Program
import TreeScript.Proofs.Keyword.Steady
import TreeScript.Proofs.Outcome

/-!
# TreeScript — setting and deleting properties stops at the first failure

What the keywords for setting and deleting properties will do is known before they change
anything: for each id they visit the widget, and then they set one property after the other, or
delete the attributes. A failure before that leaves the session as it was. Later each step either
does all of its change or none, and nothing comes after the first one that fails, but what the
steps before it have done stays done.

* `WidgetStep`, `perform`, `performAll` — the steps, on the widgets alone;
* `setPlan`, `deletePlan` — the steps that a keyword will take;
* `setProperty_eq`, `deleteProperty_eq` — that is all that the keywords do;
* `Halted`, `widget_writes_halt` — what a failure leaves behind.
-/

namespace TreeScript.Keyword

open Engine

-- ---------------------------------------------------------------------------
-- Steps
-- ---------------------------------------------------------------------------

/-- What the keywords do with widgets, one after the other. -/
inductive WidgetStep where
  | visit (id : String)
  | set (a : Assignment)
  | drop (names : List String)

/-- Whether a step only looks whether a widget is there. -/
def WidgetStep.isVisit : WidgetStep → Bool
  | .visit _ => true
  | _ => false

/-- The text of the value that a property is set to. -/
def assignedText (s : Store) (a : Assignment) : Except Halt String :=
  match a.value with
  | some v => Halt.ofFault (s.display v false)
  | none => .ok ""

/-- The render type that a property is set to. -/
def assignedRenderType (s : Store) (a : Assignment) (text : String) : Except Halt RenderType :=
  if a.name = "render-type" then
    match RenderType.ofWord? text with
    | some r => .ok r
    | none => s.fail a.node (.execution (.unknownRenderType text))
  else .ok .normal

/-- A property is set to a text: the present widget gets another id, or is changed. -/
def write (s : Store) (h : Handle) (a : Assignment) (text : String) :
    WidgetStore × String → Except Halt (WidgetStore × String)
  | (w, id) =>
    if a.name = "id" then
      match w.rename id text with
      | .ok w' => .ok (w', text)
      | .error e => s.fail a.node (.execution (.rename e))
    else do
      let renderType ← assignedRenderType s a text
      match w.widget? id with
      | some _ =>
        .ok (w.update id fun x => setOn x a.name text (a.value.any Value.toBool) renderType, id)
      | none => s.fail h (.execution (.noWidget id))

/-- A step on the widgets, and on the id by which the present widget goes. -/
def perform (s : Store) (h : Handle) : WidgetStep → WidgetStore × String →
    Except Halt (WidgetStore × String)
  | .visit id, (w, _) =>
    match w.widget? id with
    | some _ => .ok (w, id)
    | none => s.fail h (.execution (.noWidget id))
  | .set a, w => do
    let text ← assignedText s a
    write s h a text w
  | .drop names, (w, id) =>
    .ok (w.update id fun x => names.foldl (fun x name => x.removeAttribute (bareName name)) x, id)

/-- Some steps one after the other. -/
def performAll (s : Store) (h : Handle) (steps : List WidgetStep) (w : WidgetStore × String) :
    Except Halt (WidgetStore × String) :=
  steps.foldlM (fun w step => perform s h step w) w

/-- Goes on with other widgets, or halts. -/
def follow (r : Except Halt (WidgetStore × String)) (k : String → Engine Unit) : Engine Unit :=
  fun σ =>
    match r with
    | .ok (w, id) => k id { σ with widgets := w }
    | .error e => .error e σ

/-- The steps in a session, up to the first that fails. -/
def carryOut (h : Handle) : List WidgetStep → (id : String) → Engine Unit
  | [], _ => pure ()
  | step :: rest, id => fun σ =>
    follow (perform σ.nodes h step (σ.widgets, id)) (carryOut h rest) σ

/-- The steps of setting properties. -/
def setPlan (h : Handle) : Engine (List WidgetStep) := do
  let ids ← (← Engine.nodes).strings h
  let todo ← assignments (← (← Engine.nodes).children h)
  return ids.flatMap fun id => .visit id :: todo.map .set

/-- The steps of deleting properties; built-in ones are found before the first step. -/
def deletePlan (h : Handle) : Engine (List WidgetStep) := do
  let s ← Engine.nodes
  let n ← s.node h
  if n.value.isSome ∧ n.children ≠ [] then
    let ids ← s.strings h
    let names ← propertyNames n.children
    match names.find? builtInProperties.contains with
    | some name => Engine.fail h (.execution (.builtInProperty name))
    | none => return ids.flatMap fun id => [.visit id, .drop names]
  else return []

-- ---------------------------------------------------------------------------
-- The keywords take these steps
-- ---------------------------------------------------------------------------

/-- A step that fails with the context of a node does so as a computation. -/
theorem follow_fail (h : Handle) (c : NodeContext → Failure) (k : String → Engine Unit)
    (σ : Session) : follow (σ.nodes.fail h c) k σ = (Engine.fail h c : Engine Unit) σ := by
  show _ = (liftM (σ.nodes.fail h c) : Engine Unit) σ
  unfold Store.fail
  cases σ.nodes.describe h <;> rfl

/-- The first step is performed on the widgets, and the others follow. -/
theorem carryOut_cons (h : Handle) (step : WidgetStep) (rest : List WidgetStep) (id : String)
    (σ : Session) : carryOut h (step :: rest) id σ =
      follow (perform σ.nodes h step (σ.widgets, id)) (carryOut h rest) σ := rfl

theorem widgets_bind_apply {α : Type} (k : WidgetStore → Engine α) (σ : Session) :
    (widgets >>= k) σ = k σ.widgets σ := rfl

/-- A visit or an assignment goes on only if the widget is there. -/
theorem findWidget_bind_apply {α : Type} (h : Handle) (id : String) (k : Engine α) (σ : Session) :
    (findWidget h id >>= fun _ => k) σ =
      match σ.widgets.widget? id with
      | some _ => k σ
      | none => (Engine.fail h (.execution (.noWidget id)) : Engine α) σ := by
  have hfind : findWidget h id σ = match σ.widgets.widget? id with
      | some w => .ok w σ
      | none => (Engine.fail h (.execution (.noWidget id)) : Engine Widget) σ := by
    rw [findWidget, widgets_bind_apply]
    cases σ.widgets.widget? id <;> rfl
  cases hw : σ.widgets.widget? id with
  | some w => rw [bind_of_ok (by rw [hfind, hw])]
  | none => rw [bind_apply, hfind, hw, ← bind_apply _ fun _ => k, fail_bind]

/-- The text is found by looking at the store. -/
theorem textToAssign_eq (s : Store) (a : Assignment) :
    textToAssign s a.value = liftM (assignedText s a) := by
  unfold textToAssign assignedText
  cases a.value <;> rfl

/-- An assignment is one step on the widgets, followed by what comes after it. -/
theorem assignTo_apply (h : Handle) (a : Assignment) (text id : String) (k : String → Engine Unit)
    (σ : Session) :
    assignTo h id a text k σ = follow (write σ.nodes h a text (σ.widgets, id)) k σ := by
  rw [assignTo, write]
  by_cases hid : a.name = "id"
  · rw [if_pos hid, if_pos hid, widgets_bind_apply]
    cases σ.widgets.rename id text with
    | ok w => rfl
    | error e => exact (follow_fail a.node _ k σ).symm
  · rw [if_neg hid, if_neg hid]
    -- reading the render type fails as the step does, or hands it on unchanged
    have hrender : ∀ k' : RenderType → Engine Unit, (renderTypeFor a text >>= k') σ =
        match assignedRenderType σ.nodes a text with
        | .ok r => k' r σ
        | .error e => .error e σ := by
      intro k'
      rw [renderTypeFor, assignedRenderType]
      by_cases hname : a.name = "render-type"
      · rw [if_pos hname, if_pos hname]
        cases RenderType.ofWord? text with
        | some r => rfl
        | none =>
          rw [fail_bind]
          unfold Engine.fail Store.fail
          rw [nodes_bind_apply]
          cases σ.nodes.describe a.node <;> rfl
      · rw [if_neg hname, if_neg hname]
        rfl
    rw [hrender]
    cases assignedRenderType σ.nodes a text with
    | error e => rfl
    | ok r =>
      show (findWidget h id >>= fun _ => _) σ = _
      rw [findWidget_bind_apply]
      cases hw : σ.widgets.widget? id with
      | some w => rfl
      | none => exact (follow_fail h _ k σ).symm

theorem assignAll_eq (h : Handle) (id : String) (todo : List Assignment) :
    assignAll h id todo = carryOut h (todo.map .set) id := by
  induction todo generalizing id with
  | nil => rfl
  | cons a todo ih =>
    funext σ
    rw [List.map_cons, carryOut_cons, assignAll_cons, nodes_bind_apply, perform, textToAssign_eq]
    cases assignedText σ.nodes a with
    | error e => rfl
    | ok text =>
      have hlift : (liftM (.ok text : Except Halt String) : Engine String) σ = .ok text σ := rfl
      rw [bind_of_ok hlift, assignTo_apply, funext ih]
      rfl

/-- A visit takes another widget, whichever has been the present one. -/
theorem carryOut_visits (h : Handle) (ids : List String) (rest : String → List WidgetStep)
    (id id' : String) : carryOut h (ids.flatMap fun i => .visit i :: rest i) id =
      carryOut h (ids.flatMap fun i => .visit i :: rest i) id' := by
  cases ids <;> rfl

/-- Steps are carried out one part after the other, if the later ones begin with a visit, so that it
does not matter by which id the present widget goes. -/
theorem carryOut_append {h : Handle} {later : List WidgetStep}
    (hlater : ∀ id id', carryOut h later id = carryOut h later id') (steps : List WidgetStep)
    (id : String) :
    carryOut h (steps ++ later) id = carryOut h steps id >>= fun _ => carryOut h later id := by
  induction steps generalizing id with
  | nil => rfl
  | cons step steps ih =>
    funext σ
    rw [List.cons_append, bind_apply, carryOut_cons, carryOut_cons]
    cases perform σ.nodes h step (σ.widgets, id) with
    | error e => rfl
    | ok w =>
      show carryOut h (steps ++ later) w.2 _ = _
      rw [ih, bind_apply, hlater w.2 id]
      rfl

/-- One widget after the other is one list of steps. -/
theorem forM_carryOut (h : Handle) (ids : List String) (rest : String → List WidgetStep)
    (id : String) : (ids.forM fun i => carryOut h (.visit i :: rest i) id) =
      carryOut h (ids.flatMap fun i => .visit i :: rest i) id := by
  induction ids with
  | nil => rfl
  | cons i ids ih =>
    rw [List.flatMap_cons, carryOut_append (carryOut_visits h ids rest), ← ih]
    rfl

theorem visit_apply {h : Handle} {id : String} {k : Engine Unit} {steps : List WidgetStep}
    (hk : k = carryOut h steps id) :
    (findWidget h id >>= fun _ => k) = carryOut h (.visit id :: steps) "" := by
  funext σ
  rw [findWidget_bind_apply, carryOut_cons, perform]
  cases σ.widgets.widget? id with
  | some w => exact congrFun hk σ
  | none => exact (follow_fail h _ _ σ).symm

/-- Setting properties is taking the steps of the plan. -/
theorem setProperty_eq (scope : Scope) (h : Handle) :
    setProperty scope h = setPlan h >>= fun steps => carryOut h steps "" := by
  have hone : ∀ todo : List Assignment,
      (fun id => findWidget h id >>= fun _ => assignAll h id todo) =
      fun id => carryOut h (.visit id :: todo.map .set) "" := fun todo =>
    funext fun id => visit_apply (assignAll_eq h id todo)
  simp only [setProperty, setPlan, bind_assoc, pure_bind, hone, forM_carryOut]

/-- Deleting properties is taking the steps of the plan. -/
theorem deleteProperty_eq (scope : Scope) (h : Handle) :
    deleteProperty scope h = deletePlan h >>= fun steps => carryOut h steps "" := by
  have hone : ∀ names : List String,
      (fun id => findWidget h id >>= fun _ => widgets >>= fun w => setWidgets (w.update id fun x =>
        names.foldl (fun x name => x.removeAttribute (bareName name)) x)) =
      fun id => carryOut h [.visit id, .drop names] "" := fun names =>
    funext fun id => visit_apply rfl
  have hmany : ∀ (names ids : List String),
      (ids.forM fun id => carryOut h [.visit id, .drop names] "") =
        carryOut h (ids.flatMap fun id => [.visit id, .drop names]) "" := fun names ids =>
    forM_carryOut h ids (fun _ => [.drop names]) ""
  simp only [deleteProperty, deletePlan, bind_assoc, hone, hmany]
  refine bind_congr fun s => bind_congr fun n => ?_
  split
  next =>
    simp only [bind_assoc]
    refine bind_congr fun ids => bind_congr fun names => ?_
    cases names.find? builtInProperties.contains with
    | some name => exact (fail_bind h _ _).symm
    | none => rfl
  next => rfl

-- ---------------------------------------------------------------------------
-- Failures
-- ---------------------------------------------------------------------------

section

variable {γ : Type} {f : Session → γ}

theorem preserves_propertyNames (args : List Handle) : Preserves f (propertyNames args) := by
  refine preserves_nodes.bind fun s => ?_
  refine (Preserves.mapM (fun a => preserves_lift (s.name a)) args).bind fun _ => ?_
  exact preserves_pure _

theorem preserves_assignments (args : List Handle) : Preserves f (assignments args) := by
  induction args with
  | nil => exact preserves_pure []
  | cons arg rest ih =>
    rw [assignments]
    refine preserves_nodes.bind fun s => (preserves_lift _).bind fun name => ?_
    split
    · exact ih
    · refine preserves_nodes.bind fun s => (preserves_lift_halt _).bind fun v => ?_
      exact ih.bind fun _ => preserves_pure _

theorem preserves_setPlan (h : Handle) : Preserves f (setPlan h) := by
  refine preserves_nodes.bind fun _ => (preserves_lift_halt _).bind fun _ => ?_
  refine preserves_nodes.bind fun _ => (preserves_lift _).bind fun args => ?_
  exact (preserves_assignments args).bind fun _ => preserves_pure _

theorem preserves_deletePlan (h : Handle) : Preserves f (deletePlan h) := by
  refine preserves_nodes.bind fun s => (preserves_lift _).bind fun n => ?_
  split
  · refine (preserves_lift_halt _).bind fun ids => (preserves_propertyNames _).bind fun names => ?_
    split
    · exact preserves_fail h _
    · exact preserves_pure _
  · exact preserves_pure []

end

/-- Steps that only look leave the widgets as they are. -/
theorem performAll_visits {s : Store} {h : Handle} {steps : List WidgetStep}
    {w w' : WidgetStore × String} (hvisits : ∀ step ∈ steps, step.isVisit = true)
    (hok : performAll s h steps w = .ok w') : w'.1 = w.1 := by
  induction steps generalizing w with
  | nil => rw [← Except.ok.inj hok]
  | cons step steps ih =>
    obtain ⟨hstep, hrest⟩ := List.forall_mem_cons.1 hvisits
    rw [performAll, List.foldlM_cons] at hok
    cases step with
    | visit id =>
      rw [perform] at hok
      cases hw : w.1.widget? id with
      | some x =>
        rw [hw] at hok
        exact ih (w := (w.1, id)) hrest hok
      | none =>
        rw [hw] at hok
        unfold Store.fail at hok
        cases hcontext : s.describe h <;> rw [hcontext] at hok <;> cases hok
    | set a => cases hstep
    | drop names => cases hstep

/-- Where steps halt, those before have been taken, and the one that fails has changed nothing. -/
theorem carryOut_error {h : Handle} {steps : List WidgetStep} {id : String} {σ σ' : Session}
    {e : Halt} (hrun : carryOut h steps id σ = .error e σ') :
    ∃ front step back id', steps = front ++ step :: back ∧
      performAll σ.nodes h front (σ.widgets, id) = .ok (σ'.widgets, id') ∧
      perform σ.nodes h step (σ'.widgets, id') = .error e ∧
      σ' = { σ with widgets := σ'.widgets } := by
  induction steps generalizing id σ with
  | nil => cases hrun
  | cons step steps ih =>
    rw [carryOut_cons] at hrun
    cases hstep : perform σ.nodes h step (σ.widgets, id) with
    | error e' =>
      rw [hstep] at hrun
      obtain ⟨rfl, rfl⟩ : e' = e ∧ σ = σ' := by simpa [follow] using hrun
      exact ⟨[], step, steps, id, rfl, rfl, hstep, rfl⟩
    | ok w =>
      rw [hstep] at hrun
      obtain ⟨front, last, back, id', hsteps, hfront, hlast, hσ⟩ := ih hrun
      refine ⟨step :: front, last, back, id', by rw [hsteps]; rfl, ?_, hlast, hσ⟩
      rw [performAll, List.foldlM_cons, hstep]
      exact hfront

/-- What a failure leaves behind, given the plan of the keyword. The plan itself may have failed,
and nothing has changed. Or its steps have been taken up to one that fails: that one and all later
ones have changed nothing, and nothing but the widgets has changed. -/
def Halted (plan : Engine (List WidgetStep)) (h : Handle) (σ σ' : Session) (f : Failure) : Prop :=
  plan σ = .error (.failure f) σ ∧ σ' = σ ∨
    ∃ front step back id, plan σ = .ok (front ++ step :: back) σ ∧
      performAll σ.nodes h front (σ.widgets, "") = .ok (σ'.widgets, id) ∧
      perform σ.nodes h step (σ'.widgets, id) = .error (.failure f) ∧
      σ' = { σ with widgets := σ'.widgets } ∧
      ((∀ step ∈ front, step.isVisit = true) → σ' = σ)

/-- A keyword that makes a plan without changing anything and then carries it out halts at a step,
or while it plans. -/
theorem halted_of_plan {plan : Engine (List WidgetStep)} {h : Handle} {σ σ' : Session}
    {f : Failure} (hplan : Preserves id plan)
    (hrun : (plan >>= fun steps => carryOut h steps "") σ = .error (.failure f) σ') :
    Halted plan h σ σ' f := by
  rcases bind_eq_error hrun with hfail | ⟨steps, σ₁, hok, hsteps⟩
  · have hσ : σ' = σ := hplan.of_error hfail
    rw [hσ] at hfail
    exact Or.inl ⟨hfail, hσ⟩
  · obtain rfl : σ₁ = σ := hplan.of_ok hok
    obtain ⟨front, step, back, id, rfl, hfront, hstep, hσ⟩ := carryOut_error hsteps
    refine Or.inr ⟨front, step, back, id, hok, hfront, hstep, hσ, fun hvisits => ?_⟩
    have hwidgets : σ'.widgets = σ₁.widgets := performAll_visits hvisits hfront
    rw [hσ, hwidgets]

/-- A failure to set or delete properties leaves the widgets as the steps in front of it made them.
In particular nothing has changed if no property has been set or deleted before. -/
theorem widget_writes_halt (scope : Scope) (h : Handle) (σ σ' : Session) (f : Failure) :
    (setProperty scope h σ = .error (.failure f) σ' → Halted (setPlan h) h σ σ' f) ∧
      (deleteProperty scope h σ = .error (.failure f) σ' → Halted (deletePlan h) h σ σ' f) := by
  rw [setProperty_eq, deleteProperty_eq]
  exact ⟨halted_of_plan (preserves_setPlan h), halted_of_plan (preserves_deletePlan h)⟩

/-- A button, and a keyword that gives it a class and then a render type that there is not. -/
def halfway : Session where
  nodes := (Store.empty.plant (.plain "set-widget-property" (some (.string "btn"))
    [.plain "class" (some (.string "small")) [],
      .plain "render-type" (some (.string "sideways")) []])).2
  widgets := WidgetStore.insert {} { id := "btn", element := "button" }

/-- A scope in which no name is handled. -/
def emptyScope : Scope := ⟨{}, 0, fun _ _ => pure ()⟩

/-- The class has been set when the render type fails. -/
theorem setProperty_leaves_class :
    ∃ f σ', setProperty emptyScope ⟨0, 0⟩ halfway = .error (.failure f) σ' ∧
      (halfway.widgets.widget? "btn").map Widget.attributes = some [] ∧
      (σ'.widgets.widget? "btn").map Widget.attributes = some [("class", "small")] ∧
      σ'.widgets ≠ halfway.widgets := by
  obtain ⟨f, σ', hrun, hafter⟩ := Outcome.of_isFailureWith
    (p := fun σ => decide ((σ.widgets.widget? "btn").map Widget.attributes =
      some [("class", "small")]))
    (r := setProperty emptyScope ⟨0, 0⟩ halfway) (by decide +kernel)
  have hbefore : (halfway.widgets.widget? "btn").map Widget.attributes = some [] := by
    decide +kernel
  replace hafter := of_decide_eq_true hafter
  refine ⟨f, σ', hrun, hbefore, hafter, fun hsame => ?_⟩
  rw [hsame, hbefore] at hafter
  cases hafter

/-- The steps taken there are a visit and the class. To delete the same properties fails before
the first step, since one of them is built in. -/
theorem widget_writes_halt_halfway :
    (∃ f σ', setProperty emptyScope ⟨0, 0⟩ halfway = .error (.failure f) σ' ∧
      Halted (setPlan ⟨0, 0⟩) ⟨0, 0⟩ halfway σ' f) ∧
    ∃ f σ', deleteProperty emptyScope ⟨0, 0⟩ halfway = .error (.failure f) σ' ∧
      Halted (deletePlan ⟨0, 0⟩) ⟨0, 0⟩ halfway σ' f := by
  obtain ⟨f, σ', hrun, -⟩ := Outcome.of_isFailureWith (p := fun _ => true)
    (r := setProperty emptyScope ⟨0, 0⟩ halfway) (by decide +kernel)
  obtain ⟨f', τ, hrun', -⟩ := Outcome.of_isFailureWith (p := fun _ => true)
    (r := deleteProperty emptyScope ⟨0, 0⟩ halfway) (by decide +kernel)
  exact ⟨⟨f, σ', hrun, (widget_writes_halt emptyScope ⟨0, 0⟩ halfway σ' f).1 hrun⟩,
    f', τ, hrun', (widget_writes_halt emptyScope ⟨0, 0⟩ halfway τ f').2 hrun'⟩

end TreeScript.Keyword
