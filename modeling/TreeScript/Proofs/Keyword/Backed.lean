import TreeScript.Proofs.Keyword.Confinement
import TreeScript.Proofs.Keyword.Writes

/-!
# TreeScript — keywords for data fail before they change nodes

The keywords for widgets and for files resolve, look up, ask for leave and read before they change
a node. From then on they may still come to a fault, but they do not fail.

* `preserves_readEach`, `preserves_loadOne`, `preserves_contentToSave` — what is done first;
* `unfailing_removeArguments`, `unfailing_addAll`, `unfailing_findOrAdd` — what is done last;
* `backed_getProperty` and so on — a keyword that fails has left the nodes alone;
* `dataKeywords`, `backed_dataKeywords` — all of them.
-/

namespace TreeScript.Keyword

open Engine

variable {γ : Type} {f : Session → γ} {scope : Scope} {h : Handle}

-- ---------------------------------------------------------------------------
-- What is done first
-- ---------------------------------------------------------------------------

theorem preserves_findWidget (h : Handle) (id : String) : Preserves f (findWidget h id) := by
  refine (preserves_get.bind fun σ => preserves_pure σ.widgets).bind fun w => ?_
  split
  · exact preserves_pure _
  · exact preserves_fail h _

theorem preserves_readEach {α : Type} (k : String → Widget → α) (ids : List String) :
    Preserves f (ids.mapM fun id => do
      let w ← findWidget h id
      return k id w) :=
  .mapM (fun id => (preserves_findWidget h id).bind fun _ => preserves_pure _) ids

theorem preserves_authorize (h : Handle) (verdict : Except Denied Unit) :
    Preserves f (authorize h verdict) := by
  unfold authorize
  split
  · exact preserves_pure _
  · exact preserves_fail h _

theorem preserves_ofDisk {α : Type} (h : Handle) (path : String) (r : Except FileError α) :
    Preserves f (ofDisk h path r) := by
  unfold ofDisk
  split
  · exact preserves_pure _
  · exact preserves_fail h _

theorem preserves_contentToSave (h : Handle) : Preserves f (contentToSave h) := by
  refine preserves_nodes.bind fun s => (preserves_lift _).bind fun src => ?_
  split
  · exact (preserves_lift_halt _).bind fun _ => preserves_pure _
  · exact preserves_lift_halt _

theorem preserves_loadOne (path : String) : Preserves f (loadOne scope h path) := by
  refine preserves_get.bind fun _ => (preserves_authorize h _).bind fun _ => ?_
  refine preserves_get.bind fun _ => (preserves_ofDisk h path _).bind fun _ => ?_
  exact preserves_pure _

theorem preserves_carryOut (steps : List WidgetStep) (id : String) :
    Preserves Session.nodes (carryOut h steps id) := by
  induction steps generalizing id with
  | nil => exact preserves_pure ()
  | cons step steps ih =>
    intro σ
    rw [final, carryOut_cons]
    cases perform σ.nodes h step (σ.widgets, id) with
    | ok w => exact ih w.2 { σ with widgets := w.1 }
    | error e => rfl

-- ---------------------------------------------------------------------------
-- What is done last
-- ---------------------------------------------------------------------------

theorem unfailing_removeArguments (h : Handle) (args : List Handle) :
    Unfailing (removeArguments h args) :=
  (Unfailing.forM (fun _ => unfailing_edit _) args).bind fun _ => unfailing_edit _

theorem unfailing_addAll (p : Handle) (found : List (String × Scalar)) :
    Unfailing (addAll p found) :=
  .forM (fun _ => (unfailing_change _).bind fun _ => unfailing_pure _) found

theorem unfailing_findOrAdd (p : Handle) (name : String) : Unfailing (findOrAdd p name) := by
  refine unfailing_nodes.bind fun s => (unfailing_lift _).bind fun found => ?_
  split
  · exact unfailing_pure _
  · exact unfailing_change _

-- ---------------------------------------------------------------------------
-- The keywords
-- ---------------------------------------------------------------------------

/-- `get-widget-property` fails only before it changes a node. -/
theorem backed_getProperty : Backed Session.nodes (getProperty scope h) := by
  refine preserves_nodes.backed_bind fun s => (preserves_lift_halt _).backed_bind fun ids => ?_
  refine preserves_nodes.backed_bind fun s => (preserves_lift _).backed_bind fun args => ?_
  refine (preserves_propertyNames args).backed_bind fun names => ?_
  refine (preserves_readEach _ ids).backed_bind fun found => ?_
  refine ((unfailing_removeArguments h args).bind fun _ => .forM (fun x => ?_) _).backed
  exact (unfailing_findOrAdd h x.1).bind fun _ => unfailing_addAll _ _

/-- `list-widget-properties` fails only before it changes a node. -/
theorem backed_listProperties : Backed Session.nodes (listProperties scope h) := by
  refine preserves_nodes.backed_bind fun s => (preserves_lift_halt _).backed_bind fun ids => ?_
  refine preserves_nodes.backed_bind fun s => (preserves_lift _).backed_bind fun args => ?_
  refine (preserves_readEach _ ids).backed_bind fun found => ?_
  refine ((unfailing_removeArguments h args).bind fun _ => .forM (fun x => ?_) _).backed
  exact (unfailing_change _).bind fun _ => unfailing_addAll _ _

/-- `load-file` fails only before it changes a node. -/
theorem backed_loadFile : Backed Session.nodes (loadFile scope h) := by
  rw [loadFile_eq]
  refine preserves_nodes.backed_bind fun s => (preserves_lift_halt _).backed_bind fun paths => ?_
  refine preserves_nodes.backed_bind fun s => (preserves_lift _).backed_bind fun args => ?_
  refine (Preserves.mapM preserves_loadOne paths).backed_bind fun loaded => ?_
  refine ((unfailing_removeArguments h args).bind fun _ => .forM (fun x => ?_) _).backed
  exact (unfailing_change _).bind fun _ => unfailing_pure _

/-- Writing changes nothing but the disk before it may fail. -/
theorem backed_writeOut (path text : String) :
    Backed Session.nodes (writeOut scope h path text) := by
  intro σ e σ' hrun
  rw [writeOut_apply] at hrun
  generalize σ.disk.save scope.settings.workFolder (diskPath scope.settings path)
    (Utf8.encode text.toList) = saved at hrun
  obtain ⟨disk, _ | error⟩ := saved
  · have hlast : Unfailing (conclude h path none) :=
      unfailing_nodes.bind fun _ => (unfailing_lift _).bind fun args =>
        unfailing_removeArguments h args
    exact absurd hrun (hlast _ _ _)
  · have hfail : Preserves Session.nodes (Engine.fail h (.file path error) : Engine Unit) :=
      preserves_fail h _
    exact (hfail.of_error hrun : σ'.nodes = (σ.withDisk disk).nodes)

/-- `save-file` fails only before it changes a node: the file is written first. -/
theorem backed_saveFile : Backed Session.nodes (saveFile scope h) := by
  rw [saveFile_eq]
  refine preserves_nodes.backed_bind fun s => (preserves_lift_halt _).backed_bind fun paths => ?_
  split
  · exact (preserves_fail h _).backed
  · refine preserves_get.backed_bind fun σ => (preserves_authorize h _).backed_bind fun _ => ?_
    exact (preserves_contentToSave h).backed_bind fun text => backed_writeOut _ text

/-- `set-widget-property` fails only before it changes a node: widgets are not nodes. -/
theorem backed_setProperty : Backed Session.nodes (setProperty scope h) := by
  rw [setProperty_eq]
  exact ((preserves_setPlan h).bind fun steps => preserves_carryOut steps "").backed

/-- `delete-widget-property` fails only before it changes a node. -/
theorem backed_deleteProperty : Backed Session.nodes (deleteProperty scope h) := by
  rw [deleteProperty_eq]
  exact ((preserves_deletePlan h).bind fun steps => preserves_carryOut steps "").backed

/-- The keywords for widgets and for files. -/
def dataKeywords : List Handler :=
  [getProperty, setProperty, deleteProperty, listProperties, loadFile, saveFile]

/-- A keyword for data that fails leaves the nodes as they were. -/
theorem backed_dataKeywords {handler : Handler} (hmem : handler ∈ dataKeywords) :
    Backed Session.nodes (handler scope h) := by
  have hall : ∀ handler ∈ dataKeywords, Backed Session.nodes (handler scope h) := by
    simp only [dataKeywords, List.forall_mem_cons, List.not_mem_nil, false_implies, implies_true,
      and_true]
    exact ⟨backed_getProperty, backed_setProperty, backed_deleteProperty, backed_listProperties,
      backed_loadFile, backed_saveFile⟩
  exact hall handler hmem

end TreeScript.Keyword
