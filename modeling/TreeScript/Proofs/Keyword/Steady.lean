import TreeScript.Proofs.Engine.Steady
import TreeScript.Proofs.Keyword.Confinement
import TreeScript.Proofs.Keyword.Standard

/-!
# TreeScript — steady keywords

The standard keywords are steady: those that execute nothing in all scopes, the others in scopes
that are steady.

* `textToAssign`, `assignTo` — the parts of setting properties;
* one instance for each step of a keyword, and for each keyword.
-/

namespace TreeScript

open Store Engine

namespace Keyword

/-- The text of a value that a property is set to. -/
def textToAssign (s : Store) : Option Value → Engine String
  | some v => Halt.ofFault (s.display v false)
  | none => pure ""

/-- Sets one property, and goes on with the id that the widget has then. -/
def assignTo (h : Handle) (id : String) (a : Assignment) (text : String)
    (next : String → Engine Unit) : Engine Unit := do
  if a.name = "id" then
    match (← widgets).rename id text with
    | .ok w =>
      setWidgets w
      next text
    | .error e => Engine.fail a.node (.execution (.rename e))
  else
    let renderType ← renderTypeFor a text
    let _ ← findWidget h id
    setWidgets ((← widgets).update id fun w =>
      setOn w a.name text (a.value.any Value.toBool) renderType)
    next id

theorem assignAll_cons (h : Handle) (id : String) (a : Assignment) (rest : List Assignment) :
    assignAll h id (a :: rest) = Engine.nodes >>= fun s => textToAssign s a.value >>= fun text =>
      assignTo h id a text fun id => assignAll h id rest := by
  rw [assignAll]
  refine bind_congr fun s => ?_
  unfold assignTo textToAssign
  cases a.value <;> rfl

section

variable (h : Handle) (args : List Handle) (path name id : String)

instance (v : Value) : Engine.Steady (ownValue v) := by
  unfold ownValue
  split <;> infer_instance

instance : Engine.Steady (removeArguments h args) := by
  unfold removeArguments
  infer_instance

instance (verdict : Except Denied Unit) : Engine.Steady (authorize h verdict) := by
  unfold authorize
  cases verdict <;> infer_instance

instance {α : Type} (r : Except FileError α) : Engine.Steady (ofDisk h path r) := by
  unfold ofDisk
  cases r <;> infer_instance

instance : Engine.Steady (contentToSave h) := by
  unfold contentToSave
  refine .bind inferInstance fun s => .bind inferInstance fun src => ?_
  cases src <;> infer_instance

instance (error : Option FileError) : Engine.Steady (conclude h path error) := by
  unfold conclude
  cases error <;> infer_instance

instance (scope : Scope) (text : String) : Engine.Steady (writeOut scope h path text) := by
  -- the disk is written first, and what follows is steady
  have hconclude : ∀ error, Engine.Steady (conclude h path error) := fun _ => inferInstance
  refine ⟨fun σ => ?_, fun σ => ?_⟩
  · unfold after
    rw [writeOut_apply]
    generalize σ.disk.save scope.settings.workFolder (diskPath scope.settings path)
      (Utf8.encode text.toList) = r
    exact (hconclude r.2).evolves (σ.withDisk r.1)
  · rw [writeOut_apply]
    generalize σ.disk.save scope.settings.workFolder (diskPath scope.settings path)
      (Utf8.encode text.toList) = r
    exact (hconclude r.2).level (σ.withDisk r.1)

instance (c : Control) : Engine.Steady (raiseSignal c h) := by
  unfold raiseSignal
  infer_instance

instance (item : Item) : Engine.Steady (itemValue item) := by
  unfold itemValue
  cases item <;> infer_instance

instance (v : Value) : Engine.Steady (prepareRound h args v) := by
  unfold prepareRound
  infer_instance

instance (scope : Scope) (rest : List Item) (c : Control)
    [Engine.Steady (rounds scope h args rest)] : Engine.Steady (endRound scope h args rest c) := by
  unfold endRound
  cases c <;> infer_instance

instance (scope : Scope) [scope.Steady] (items : List Item) :
    Engine.Steady (rounds scope h args items) := by
  induction items with
  | nil => unfold rounds; infer_instance
  | cons item rest ih =>
    have hround : Engine.Steady (itemValue item >>= fun
        | none => rounds scope h args rest
        | some current => prepareRound h args current >>= fun _ =>
          executeAll scope h >>= endRound scope h args rest) := by
      refine .bind inferInstance fun current => ?_
      cases current <;> infer_instance
    rw [rounds_cons]
    infer_instance

instance (root : Handle) : Engine.Steady (returnChildren root h) := by
  unfold returnChildren
  infer_instance

instance (root : Handle) : Engine.Steady (returnAll root h) := by
  unfold returnAll
  refine .bind inferInstance fun s => .bind inferInstance fun v => ?_
  split
  next =>
    refine .bind inferInstance fun s => .bind inferInstance fun w => ?_
    cases w <;> infer_instance
  next => infer_instance

instance : Engine.Steady (restoreBody h args) := by
  unfold restoreBody
  infer_instance

instance : Engine.Steady widgets := by
  unfold widgets
  infer_instance

instance (w : WidgetStore) : Engine.Steady (setWidgets w) := steady_modify (fun _ => rfl) fun _ => rfl

instance : Engine.Steady (findWidget h id) := by
  unfold findWidget
  refine .bind inferInstance fun w => ?_
  cases w.widget? id <;> infer_instance

instance : Engine.Steady (propertyNames args) := by
  unfold propertyNames
  infer_instance

instance : Engine.Steady (findOrAdd h name) := by
  unfold findOrAdd
  refine .bind inferInstance fun s => .bind inferInstance fun child => ?_
  cases child <;> infer_instance

instance (found : List (String × Scalar)) : Engine.Steady (addAll h found) := by
  unfold addAll
  infer_instance

instance : Engine.Steady (assignments args) := by
  induction args with
  | nil => unfold assignments; infer_instance
  | cons arg rest ih => unfold assignments; infer_instance

instance (a : Assignment) (text : String) : Engine.Steady (renderTypeFor a text) := by
  unfold renderTypeFor
  cases RenderType.ofWord? text <;> infer_instance

instance (a : Assignment) (text : String) (next : String → Engine Unit)
    [∀ id, Engine.Steady (next id)] : Engine.Steady (assignTo h id a text next) := by
  have hrename : Engine.Steady (widgets >>= fun w => match w.rename id text with
      | .ok w => setWidgets w >>= fun _ => next text
      | .error e => Engine.fail a.node (.execution (.rename e))) := by
    refine .bind inferInstance fun w => ?_
    cases w.rename id text <;> infer_instance
  unfold assignTo
  infer_instance

instance (v : Option Value) (s : Store) : Engine.Steady (textToAssign s v) := by
  unfold textToAssign
  cases v <;> infer_instance

instance (todo : List Assignment) : Engine.Steady (assignAll h id todo) := by
  induction todo generalizing id with
  | nil => unfold assignAll; infer_instance
  | cons a rest ih => rw [assignAll_cons]; infer_instance

end

-- ---------------------------------------------------------------------------
-- The keywords
-- ---------------------------------------------------------------------------

section

variable (scope : Scope) (h : Handle)

instance : Engine.Steady (returnValue scope h) := by
  rw [returnValue_eq]
  refine .bind inferInstance fun s => ?_
  cases s.root? h <;> infer_instance

instance : Engine.Steady (breakLoop scope h) :=
  inferInstanceAs (Engine.Steady (raiseSignal .break h))

instance : Engine.Steady (continueLoop scope h) :=
  inferInstanceAs (Engine.Steady (raiseSignal .continue h))

instance : Engine.Steady (getProperty scope h) := by
  unfold getProperty
  refine .bind inferInstance fun s => .bind inferInstance fun ids => ?_
  refine .bind inferInstance fun s => .bind inferInstance fun args => ?_
  refine .bind inferInstance fun names => .bind inferInstance fun found => ?_
  exact .bind inferInstance fun _ => .forM (fun _ => inferInstance) _

instance : Engine.Steady (listProperties scope h) := by
  unfold listProperties
  refine .bind inferInstance fun s => .bind inferInstance fun ids => ?_
  refine .bind inferInstance fun s => .bind inferInstance fun args => ?_
  exact .bind inferInstance fun found => .bind inferInstance fun _ =>
    .forM (fun _ => inferInstance) _

instance : Engine.Steady (setProperty scope h) := by
  unfold setProperty
  infer_instance

instance : Engine.Steady (deleteProperty scope h) := by
  unfold deleteProperty
  refine .bind inferInstance fun s => .bind inferInstance fun n => ?_
  split
  next =>
    refine .bind inferInstance fun ids => .bind inferInstance fun names => ?_
    cases names.find? builtInProperties.contains <;> infer_instance
  next => infer_instance

instance : Engine.Steady (loadFile scope h) := by
  unfold loadFile
  refine .bind inferInstance fun s => .bind inferInstance fun paths => ?_
  refine .bind inferInstance fun s => .bind inferInstance fun args => ?_
  exact .bind inferInstance fun loaded => .bind inferInstance fun _ =>
    .forM (fun _ => inferInstance) _

instance : Engine.Steady (saveFile scope h) := by
  rw [saveFile_eq]
  refine .bind inferInstance fun s => .bind inferInstance fun paths => ?_
  cases paths <;> infer_instance

variable [scope.Steady]

instance : Engine.Steady (eval scope h) := by
  unfold eval
  infer_instance

instance : Engine.Steady (evalMutable scope h) := by
  unfold evalMutable
  infer_instance

instance : Engine.Steady (forEach scope h) := by
  unfold forEach
  infer_instance

end

end Keyword

end TreeScript
