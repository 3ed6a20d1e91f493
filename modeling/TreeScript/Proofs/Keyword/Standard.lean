import TreeScript.Keyword.Standard
import TreeScript.Proofs.Keyword.Files
import TreeScript.Proofs.Keyword.Flow
import TreeScript.Proofs.Keyword.Widgets

/-!
# TreeScript — programs keep a store in order

Every standard keyword keeps the store in order, so a registry of such keywords does, by
induction on how much may be dispatched.

* `Registry.Keeps`, `Registry.Keeps.scope` — registries and their scopes;
* `Registry.All`, `Registry.all_ofList` — what holds of all handlers of a registry;
* `Registry.keeps_of_mem_standard`, `Registry.keeps_standard` — registries of standard keywords;
* `Registry.handlers_standard` — which handlers the standard keywords have.
-/

namespace TreeScript

open Store Engine

theorem Keyword.keeps_of_mem_standard {F : Fence} {b : Store} (hseal : F.Sealed) :
    ∀ x ∈ Keyword.standard, Handler.Keeps F b x.2 := by
  unfold Keyword.standard
  simp only [List.forall_mem_cons, List.not_mem_nil, false_imp_iff, implies_true, and_true]
  exact ⟨Keyword.keeps_eval hseal, Keyword.keeps_evalMutable hseal, Keyword.keeps_returnValue hseal,
    Keyword.keeps_breakLoop hseal, Keyword.keeps_continueLoop hseal, Keyword.keeps_forEach hseal,
    Keyword.keeps_getProperty, Keyword.keeps_setProperty, Keyword.keeps_deleteProperty,
    Keyword.keeps_listProperties, Keyword.keeps_loadFile, Keyword.keeps_saveFile⟩

/-- All handlers of a registry keep the store in order. -/
def Registry.Keeps (F : Fence) (b : Store) (r : Registry) : Prop :=
  ∀ (name : String) (handlers : List Handler), r.handlers[name]? = some handlers →
    ∀ handler ∈ handlers, Handler.Keeps F b handler

namespace Registry

variable {F : Fence} {b s : Store} {T : Set Handle}

theorem ensures_runAll {scope : Scope} (hscope : scope.Keeps F b) (h : Handle)
    {handlers : List Handler} (hall : ∀ handler ∈ handlers, Handler.Keeps F b handler) :
    Ensures (fun t => F.Inside h ∧ Held F b s T t) (runAll scope h handlers)
      (fun _ => Held F b s T) (Held F b s T) := by
  induction handlers with
  | nil => exact (Ensures.skip ()).before fun _ _ ht => ht.2
  | cons handler rest ih =>
    obtain ⟨hfirst, hrest⟩ := List.forall_mem_cons.1 hall
    refine Ensures.bind_isAlive (Ensures.ite (fun _ => ?_) (by simp)) (Ensures.ite (by simp)
      fun _ => (Ensures.skip ()).before fun _ _ ht => ht.1.2)
    exact Ensures.seq (F.Inside h) (hfirst scope hscope s T h)
      (fun _ _ ht => ⟨ht.1.1, ht.1.2, ht.2, ht.1.1⟩) fun _ => ih hrest

/-- Dispatching keeps the store in order, by induction on the bound. -/
theorem Keeps.scope {r : Registry} (hr : r.Keeps F b) (settings : Settings) (fuel : Nat) :
    (r.scope settings fuel).Keeps F b := by
  induction fuel with
  | zero => exact fun s T name h => Ensures.throw_endless
  | succ fuel ih =>
    intro s T name h
    show Ensures _ (dispatch r settings (fuel + 1) name h) _ _
    rw [dispatch]
    split
    next handlers hhandlers =>
      exact (ensures_runAll ih h (hr name handlers hhandlers)).before
        fun _ _ ht => ⟨ht.2.2, ht.1⟩
    next =>
      split
      next => exact Ensures.fail h _ fun _ _ ht => ⟨ht.1.live, ht.1⟩
      next => exact (Ensures.skip ()).before fun _ _ ht => ht.1

end Registry

/-- What holds of all handlers of a registry. -/
def Registry.All (P : Handler → Prop) (r : Registry) : Prop :=
  ∀ (name : String) (handlers : List Handler), r.handlers[name]? = some handlers →
    ∀ handler ∈ handlers, P handler

namespace Registry

variable {F : Fence} {b : Store} {P : Handler → Prop}

/-- A registry has good handlers only if it had them before and the new one is good. -/
theorem All.register {r : Registry} (hr : r.All P) (name : String) {handler : Handler}
    (hhandler : P handler) : (r.register name handler).All P := by
  intro name' handlers hlookup x hx
  unfold Registry.register at hlookup
  simp only [Std.TreeMap.getElem?_insert] at hlookup
  split at hlookup
  next =>
    obtain rfl := Option.some.inj hlookup
    rcases List.mem_append.1 hx with hx | hx
    · cases hold : r.handlers[name]? with
      | none => simp [hold] at hx
      | some old => exact hr name old hold x (by simpa [hold] using hx)
    · obtain rfl := List.mem_singleton.1 hx
      exact hhandler
  next => exact hr name' handlers hlookup x hx

/-- A registry of handlers of which something holds. -/
theorem all_ofList (unknown : UnknownEvents) {handlers : List (String × Handler)}
    (hall : ∀ x ∈ handlers, P x.2) : (ofList unknown handlers).All P := by
  have hfold : ∀ (handlers : List (String × Handler)) (r : Registry), r.All P →
      (∀ x ∈ handlers, P x.2) → (handlers.foldl (fun r x => r.register x.1 x.2) r).All P := by
    intro handlers
    induction handlers with
    | nil => exact fun r hr _ => hr
    | cons x rest ih =>
      intro r hr hall
      obtain ⟨hx, hrest⟩ := List.forall_mem_cons.1 hall
      exact ih _ (hr.register x.1 hx) hrest
  refine hfold handlers { unknown } ?_ hall
  intro name found hlookup
  simp at hlookup

/-- A registry of standard handlers, whatever names they have and however many share one. -/
theorem keeps_of_mem_standard (hseal : F.Sealed) (unknown : UnknownEvents)
    {handlers : List (String × Handler)}
    (hall : ∀ x ∈ handlers, ∃ name, (name, x.2) ∈ Keyword.standard) :
    (ofList unknown handlers).Keeps F b := by
  refine all_ofList unknown fun x hx => ?_
  obtain ⟨name, hmem⟩ := hall x hx
  exact Keyword.keeps_of_mem_standard hseal (name, x.2) hmem

/-- Every standard keyword has one handler. -/
theorem handlers_standard (unknown : UnknownEvents) :
    ∀ x ∈ Keyword.standard, (standard unknown).handlers[x.1]? = some [x.2] := by
  simp [standard, ofList, Keyword.standard, register, Std.TreeMap.getElem_insert]

theorem keeps_standard (hseal : F.Sealed) (unknown : UnknownEvents) :
    (standard unknown).Keeps F b :=
  keeps_of_mem_standard hseal unknown fun x hx => ⟨x.1, hx⟩

end Registry

end TreeScript
