import TreeScript.Proofs.Engine.Interface
import TreeScript.Proofs.Keyword.Steady

/-!
# TreeScript — keywords are made of the parts of the engine

The standard keywords use the scope for its settings and through the engine only.

* `Handler.OfInterface.of_settings` — handlers that only need the settings;
* `Keyword.ofInterface_forEach` — loops;
* `Keyword.ofInterface_of_mem_standard` — all standard keywords.
-/

namespace TreeScript

open Engine

/-- A handler that uses nothing of the scope but the settings. -/
theorem Handler.OfInterface.of_settings {handler : Handler}
    (hsame : ∀ scope h, handler scope h = handler ⟨scope.settings, 0, fun _ _ => pure ()⟩ h)
    (hsteady : ∀ scope h, Steady (handler scope h)) : handler.OfInterface := by
  intro h
  have hfun : (fun scope => handler scope h) =
      fun scope => handler ⟨scope.settings, 0, fun _ _ => pure ()⟩ h := funext fun s => hsame s h
  rw [hfun]
  exact TreeScript.OfInterface.withSettings
    (f := fun settings _ => handler ⟨settings, 0, fun _ _ => pure ()⟩ h) fun _ => .steady

namespace Keyword

theorem ofInterface_eval : Handler.OfInterface eval := fun h =>
  .after fun _ => .after fun name => .execute h .copy (name != "eval")

theorem ofInterface_evalMutable : Handler.OfInterface evalMutable := fun h =>
  .after fun _ => .after fun name => .execute h .inPlace (name != "eval-mutable")

theorem ofInterface_rounds (h : Handle) (body : List Handle) (items : List Item) :
    OfInterface fun scope => rounds scope h body items := by
  induction items with
  | nil => exact .steady (z := pure ())
  | cons item rest ih =>
    have hend : ∀ c, OfInterface fun scope => endRound scope h body rest c := by
      intro c
      cases c with
      | none => exact ih
      | «return» => exact .steady (z := pure ())
      | «break» => exact .steady (z := Engine.change (fun s => s.clearSignal h) >>= fun _ => pure ())
      | «continue» => exact .after fun _ => ih
    simp only [rounds_cons]
    refine .after fun _ => .ite (.after fun current => ?_) .steady
    cases current with
    | none => exact ih
    | some current => exact .after fun _ => .bind (.executeAll h) hend

theorem ofInterface_forEach : Handler.OfInterface forEach := fun h =>
  .after fun _ => .after fun items => .after fun _ => .after fun body => .after fun _ =>
    .always (.nested h (ofInterface_rounds h body items))

theorem ofInterface_returnValue : Handler.OfInterface returnValue :=
  .of_settings (fun _ _ => rfl) fun _ _ => inferInstance

theorem ofInterface_breakLoop : Handler.OfInterface breakLoop :=
  .of_settings (fun _ _ => rfl) fun _ _ => inferInstance

theorem ofInterface_continueLoop : Handler.OfInterface continueLoop :=
  .of_settings (fun _ _ => rfl) fun _ _ => inferInstance

theorem ofInterface_getProperty : Handler.OfInterface getProperty :=
  .of_settings (fun _ _ => rfl) fun _ _ => inferInstance

theorem ofInterface_setProperty : Handler.OfInterface setProperty :=
  .of_settings (fun _ _ => rfl) fun _ _ => inferInstance

theorem ofInterface_deleteProperty : Handler.OfInterface deleteProperty :=
  .of_settings (fun _ _ => rfl) fun _ _ => inferInstance

theorem ofInterface_listProperties : Handler.OfInterface listProperties :=
  .of_settings (fun _ _ => rfl) fun _ _ => inferInstance

theorem ofInterface_loadFile : Handler.OfInterface loadFile :=
  .of_settings (fun _ _ => rfl) fun _ _ => inferInstance

theorem ofInterface_saveFile : Handler.OfInterface saveFile := by
  refine .of_settings (fun _ _ => ?_) fun _ _ => inferInstance
  simp only [saveFile]

/-- All standard keywords. -/
theorem ofInterface_of_mem_standard : ∀ x ∈ Keyword.standard, Handler.OfInterface x.2 := by
  unfold Keyword.standard
  simp only [List.forall_mem_cons, List.not_mem_nil, false_imp_iff, implies_true, and_true]
  exact ⟨ofInterface_eval, ofInterface_evalMutable, ofInterface_returnValue,
    ofInterface_breakLoop, ofInterface_continueLoop, ofInterface_forEach,
    ofInterface_getProperty, ofInterface_setProperty, ofInterface_deleteProperty,
    ofInterface_listProperties, ofInterface_loadFile, ofInterface_saveFile⟩

end Keyword

end TreeScript
