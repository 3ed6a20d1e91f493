import TreeScript.Proofs.Engine.Depth
import TreeScript.Proofs.Engine.Program

/-!
# TreeScript — handlers with a check behind them

What a handler does to the store can be checked behind it: where the store does not stand in
a relation to the one in front, an alarm is raised. A check that never fails can be taken
away. That one never fails is shown with an alarm that an assertion would notice: it ends the
computation at a stale handle, in a store that has none.

* `silence` — such an alarm;
* `Muted`, `OfInterface.muted` — two computations that run alike unless that alarm is raised;
* `Engine.check`, `Handler.checked`, `Registry.checked` — handlers with a check behind them;
* `Registry.checked_run` — checks that never fail can be taken away.
-/

namespace TreeScript

open Store Engine

variable {α β : Type}

-- ---------------------------------------------------------------------------
-- An alarm that is noticed
-- ---------------------------------------------------------------------------

namespace Store

/-- The handle of the occupant of a slot. -/
def occupant (s : Store) (i : Nat) : Handle := ⟨i, UInt32.ofNat (s.freedAt i)⟩

/-- The occupants of the first slots lose their values. -/
def forget (s : Store) : (count : Nat) → Store
  | 0 => s
  | i + 1 => (s.forget i).modify ((s.forget i).occupant i) fun n => { n with value := none }

theorem evolves_forget (s : Store) : ∀ count, Evolves s (s.forget count)
  | 0 => .refl s
  | i + 1 => (evolves_forget s i).trans (.modify _ _ _)

theorem slots_size_forget (s : Store) : ∀ count, (s.forget count).slots.size = s.slots.size
  | 0 => rfl
  | i + 1 => by
    rw [forget, Store.modify]
    split
    · simpa using slots_size_forget s i
    · exact slots_size_forget s i

theorem freedAt_forget (s : Store) (count i : Nat) : (s.forget count).freedAt i = s.freedAt i := by
  induction count with
  | zero => rfl
  | succ j ih => rw [forget, freedAt_modify, ih]

/-- The nodes on the first slots have no values any more. -/
theorem value_of_forget {s : Store} {count : Nat} {h : Handle} {n : Node}
    (hn : (s.forget count).node? h = some n) (hh : h.index < count) : n.value = none := by
  induction count generalizing n with
  | zero => simp at hh
  | succ i ih =>
    rw [forget, node?_modify] at hn
    split at hn
    next =>
      obtain ⟨m, -, rfl⟩ := Option.map_eq_some_iff.1 hn
      rfl
    next hne =>
      refine ih hn (Nat.lt_of_le_of_ne (Nat.lt_succ_iff.1 hh) fun heq => hne ?_)
      obtain rfl := heq
      rw [occupant, (isAlive_iff_isOccupied.1 (isAlive_iff.2 ⟨n, hn⟩)).2]

/-- Where no node has a value, none points at a freed node. -/
theorem not_dangles_forget (s : Store) : ¬ (s.forget s.slots.size).Dangles := by
  rintro ⟨h, n, g, hn, hg, -⟩
  have hindex : h.index < s.slots.size := by
    rw [← slots_size_forget s s.slots.size]
    exact index_lt_size hn
  simp [value_of_forget hn hindex] at hg

end Store

/-- All nodes lose their values, and the computation ends at a stale handle. -/
def Engine.silence : Engine Unit := fun σ =>
  .error (.fault .stale) { σ with nodes := σ.nodes.forget σ.nodes.slots.size }

/-- A computation has ended at a stale handle in a store that has none. -/
def Silenced (r : EStateM.Result Halt Session α) : Prop :=
  ∃ τ, r = .error (.fault .stale) τ ∧ Unwrapped τ.nodes ∧ ¬ τ.nodes.Dangles

/-- Where no slot has been freed too often, silence is noticed: nothing can dangle in a store
without values. -/
theorem silenced_silence {σ : Session} (hu : Unwrapped σ.nodes) : Silenced (silence σ) :=
  ⟨_, rfl, fun i => by rw [freedAt_forget]; exact hu i, not_dangles_forget σ.nodes⟩

/-- An assertion notices. -/
theorem Engine.Ensures.not_silenced {P E : Store → Prop} {Q : α → Store → Prop} {x : Engine α}
    (hx : Ensures P x Q E) {σ : Session} (hσ : P σ.nodes) : ¬ Silenced (x σ) := by
  rintro ⟨τ, hrun, hu, hnot⟩
  exact hnot (hx.stale hrun hu hσ)

-- ---------------------------------------------------------------------------
-- Two computations, one of which may be silenced
-- ---------------------------------------------------------------------------

/-- The second computation runs like the first, unless it is silenced. -/
def Muted (x y : Engine α) : Prop := ∀ σ, y σ = x σ ∨ Silenced (y σ)

/-- Dispatching in the second scope runs like in the first, unless it is silenced. -/
structure Scope.Muted (scope scope' : Scope) : Prop where
  settings : scope.settings = scope'.settings
  fuel : scope.fuel = scope'.fuel
  dispatch (name : String) (h : Handle) :
    TreeScript.Muted (scope.dispatch name h) (scope'.dispatch name h)

namespace Muted

theorem refl (x : Engine α) : Muted x x := fun _ => Or.inl rfl

theorem bind {x y : Engine α} {f g : α → Engine β} (hxy : Muted x y)
    (hfg : ∀ a, Muted (f a) (g a)) : Muted (x >>= f) (y >>= g) := by
  intro σ
  rw [bind_apply, bind_apply]
  rcases hxy σ with heq | ⟨τ, hrun, hτ⟩
  · rw [heq]
    cases x σ with
    | ok a σ' => exact hfg a σ'
    | error e σ' => exact Or.inl rfl
  · rw [hrun]
    exact Or.inr ⟨τ, rfl, hτ⟩

/-- A silenced computation is not caught, since that is no failure. -/
theorem attempt {x y : Engine α} (hxy : Muted x y) :
    Muted (Engine.attempt x) (Engine.attempt y) := by
  intro σ
  unfold Engine.attempt
  rcases hxy σ with heq | ⟨τ, hrun, hτ⟩
  · rw [heq]
    exact Or.inl rfl
  · rw [hrun]
    exact Or.inr ⟨τ, rfl, hτ⟩

theorem nested (settings : Settings) (h : Handle) {x y : Engine α} (hxy : Muted x y) :
    Muted (Engine.nested settings h x) (Engine.nested settings h y) := by
  intro σ
  rw [nested_apply, nested_apply]
  split
  next => exact Or.inl rfl
  next =>
    rcases hxy { σ with depth := σ.depth + 1 } with heq | ⟨τ, hrun, hτ⟩
    · rw [heq]
      exact Or.inl rfl
    · rw [hrun]
      exact Or.inr ⟨τ, rfl, hτ⟩

theorem always {x y : Engine α} {last last' : Engine Unit} (hxy : Muted x y)
    (hlast : Muted last last') : Muted (Engine.always x last) (Engine.always y last') :=
  hxy.attempt.bind fun _ => hlast.bind fun _ => .refl _

end Muted

/-- What is made of the parts of the engine runs alike in scopes that do. -/
theorem OfInterface.muted {x : Scope → Engine α} (hx : OfInterface x) {scope scope' : Scope}
    (hscope : scope.Muted scope') : Muted (x scope) (x scope') := by
  induction hx with
  | step hx => exact .refl _
  | settings =>
    show Muted (pure scope.settings) (pure scope'.settings)
    rw [hscope.settings]
    exact .refl _
  | fuel =>
    show Muted (pure scope.fuel) (pure scope'.fuel)
    rw [hscope.fuel]
    exact .refl _
  | dispatch name h => exact hscope.dispatch name h
  | @nested _ y h _ ih =>
    show Muted (Engine.nested scope.settings h (y scope))
      (Engine.nested scope'.settings h (y scope'))
    rw [hscope.settings]
    exact ih.nested _ h
  | attempt _ ih => exact ih.attempt
  | bind _ _ ih ihf => exact .bind ih ihf

-- ---------------------------------------------------------------------------
-- Checks
-- ---------------------------------------------------------------------------

open Classical in
/-- Raises an alarm if the store does not stand in a relation to an earlier one. -/
noncomputable def Engine.check (R : Store → Handle → Store → Prop) (alarm : Engine Unit)
    (s : Store) (h : Handle) : Engine Unit := do
  if R s h (← Engine.nodes) then pure () else alarm

/-- A handler with a check behind it, whether it succeeds or fails, of the store in front and
the store behind. -/
noncomputable def Handler.checked (R : Store → Handle → Store → Prop) (alarm : Engine Unit)
    (handler : Handler) : Handler := fun scope h => do
  let s ← Engine.nodes
  Engine.always (handler scope h) (check R alarm s h)

/-- A registry with checks behind the handlers of one name. -/
noncomputable def Registry.checked (r : Registry) (name : String)
    (R : Store → Handle → Store → Prop) (alarm : Engine Unit) : Registry :=
  { r with handlers := r.handlers.map fun key handlers =>
      if key = name then handlers.map (Handler.checked R alarm) else handlers }

/-- Two handlers that run alike in scopes that do, unless the second is silenced. -/
def Handler.Muted (handler handler' : Handler) : Prop :=
  ∀ (scope scope' : Scope), scope.Muted scope' → ∀ h,
    TreeScript.Muted (handler scope h) (handler' scope' h)

variable {R : Store → Handle → Store → Prop}

/-- A check is failed only where no slot has been freed too often. -/
def Lasting (R : Store → Handle → Store → Prop) : Prop :=
  ∀ {s h t}, ¬ Unwrapped t → R s h t

theorem Engine.check_apply_of_pos {alarm : Engine Unit} {s : Store} {h : Handle} {σ : Session}
    (hR : R s h σ.nodes) : check R alarm s h σ = .ok () σ := by
  rw [check, nodes_bind_apply, if_pos hR]
  rfl

/-- A check that is failed raises the alarm. -/
theorem Engine.check_apply_of_neg {alarm : Engine Unit} {s : Store} {h : Handle} {σ : Session}
    (hR : ¬ R s h σ.nodes) : check R alarm s h σ = alarm σ := by
  rw [check, nodes_bind_apply, if_neg hR]

/-- Where the relation is ensured, the check does nothing. -/
theorem Engine.Ensures.check {P E : Store → Prop} {s : Store} {h : Handle}
    (hR : ∀ t, Unwrapped t → P t → R s h t) (hlasting : Lasting R) :
    Ensures P (Engine.check R silence s h) (fun _ => P) E := by
  have hpass : ∀ {σ : Session}, R s h σ.nodes → Engine.check R silence s h σ = .ok () σ :=
    check_apply_of_pos
  refine ⟨fun σ => ?_, fun σ hu hσ => ?_⟩
  · by_cases hcheck : R s h σ.nodes
    · rw [after, hpass hcheck]
    · rw [after, check_apply_of_neg hcheck]
      exact evolves_forget _ _
  · have hcheck : R s h σ.nodes := by
      by_contra hnot
      have huσ : Unwrapped σ.nodes := by_contra fun hw => hnot (hlasting hw)
      exact hnot (hR _ huσ hσ)
    rw [hpass hcheck]
    exact hσ

/-- A handler with any alarm behind it runs like one with silence behind it, unless the alarm goes
off. -/
theorem Handler.OfInterface.checked {handler : Handler} (hhandler : handler.OfInterface)
    (hR : Lasting R) (alarm : Engine Unit) :
    Handler.Muted (handler.checked R alarm) (handler.checked R silence) := by
  intro scope scope' hscope h
  refine (Muted.refl Engine.nodes).bind fun s => ((hhandler h).muted hscope).always fun σ => ?_
  by_cases hcheck : R s h σ.nodes
  · rw [check_apply_of_pos hcheck, check_apply_of_pos hcheck]
    exact Or.inl rfl
  · have halarm : Engine.check R silence s h σ = silence σ := check_apply_of_neg hcheck
    rw [halarm]
    exact Or.inr (silenced_silence (by_contra fun hu => hcheck (hR hu)))

theorem Engine.always_skip (x : Engine α) : Engine.always x (pure ()) = x := by
  funext σ
  rw [Engine.always, bind_apply]
  unfold Engine.attempt
  cases x σ with
  | ok a τ => rfl
  | error e τ => cases e <;> rfl

/-- An alarm that does nothing makes no difference. -/
theorem Handler.checked_skip (handler : Handler) : handler.checked R (pure ()) = handler := by
  have hcheck : ∀ s h, check R (pure ()) s h = pure () := by
    intro s h
    funext σ
    by_cases hR : R s h σ.nodes
    · exact check_apply_of_pos hR
    · exact check_apply_of_neg hR
  funext scope h σ
  rw [Handler.checked, nodes_bind_apply, hcheck, always_skip]

namespace Registry

variable {r : Registry} {name : String}

/-- Only the handlers of the one name have the check behind them. -/
theorem getElem?_checked (alarm : Engine Unit) (key : String) :
    (r.checked name R alarm).handlers[key]? = (r.handlers[key]?).map fun handlers =>
      if key = name then handlers.map (Handler.checked R alarm) else handlers :=
  Std.TreeMap.getElem?_map

/-- The handlers of an event run alike, one after another. -/
theorem muted_runAll {scope scope' : Scope} (hscope : scope.Muted scope') (h : Handle)
    {handlers handlers' : List Handler} (hall : List.Forall₂ Handler.Muted handlers handlers') :
    Muted (runAll scope h handlers) (runAll scope' h handlers') := by
  induction hall with
  | nil => exact .refl _
  | cons hfirst _ ih =>
    refine (Muted.refl (Engine.isAlive h)).bind fun alive => ?_
    cases alive with
    | false => exact .refl _
    | true => exact (hfirst scope scope' hscope h).bind fun _ => ih

/-- Whatever the alarm does, a registry with checks runs like one with another alarm, unless
that is silenced; by induction on the bound. -/
theorem muted_checked (hr : r.All Handler.OfInterface) (hR : Lasting R) (alarm : Engine Unit)
    (settings : Settings) (fuel : Nat) :
    ((r.checked name R alarm).scope settings fuel).Muted
      ((r.checked name R silence).scope settings fuel) := by
  induction fuel with
  | zero => exact ⟨rfl, rfl, fun _ _ => .refl _⟩
  | succ fuel ih =>
    refine ⟨rfl, rfl, fun key h => ?_⟩
    show Muted (dispatch (r.checked name R alarm) settings (fuel + 1) key h)
      (dispatch (r.checked name R silence) settings (fuel + 1) key h)
    -- the handlers of a key are the same on both sides up to the alarm
    rw [dispatch, dispatch, getElem?_checked, getElem?_checked]
    cases hhandlers : r.handlers[key]? with
    | none => exact .refl _
    | some handlers =>
      refine muted_runAll ih h ?_
      have hall := hr key handlers hhandlers
      split
      next =>
        rw [List.forall₂_map_left_iff, List.forall₂_map_right_iff, List.forall₂_same]
        exact fun handler hmem => (hall handler hmem).checked hR alarm
      next =>
        rw [List.forall₂_same]
        exact fun handler hmem scope scope' hscope h => (hall handler hmem h).muted hscope

/-- With an alarm that does nothing, the registry is what it was without checks. -/
theorem scope_checked_skip (settings : Settings) (fuel : Nat) :
    (r.checked name R (pure ())).scope settings fuel = r.scope settings fuel := by
  have hdispatch : dispatch (r.checked name R (pure ())) settings fuel =
      dispatch r settings fuel := by
    induction fuel with
    | zero => rfl
    | succ fuel ih =>
      funext key h
      rw [dispatch, dispatch, getElem?_checked, ih]
      have hsame : ∀ handlers : List Handler, (if key = name
          then handlers.map (Handler.checked R (pure ())) else handlers) = handlers := by
        intro handlers
        split
        · rw [List.map_congr_left fun handler _ => handler.checked_skip, List.map_id']
        · rfl
      cases r.handlers[key]? with
      | none => rfl
      | some handlers =>
        rw [Option.map_some, hsame]
  exact congrArg (Scope.mk settings fuel) hdispatch

/-- Where an assertion holds of a computation with checks that would silence it, the checks
never fail: whatever the alarm does, the computation runs as it does without them. -/
theorem checked_run (hr : r.All Handler.OfInterface) (hR : Lasting R) {settings : Settings}
    {fuel : Nat} {x : Scope → Engine α} (hx : OfInterface x) {P E : Store → Prop}
    {Q : α → Store → Prop}
    (hensures : Ensures P (x ((r.checked name R silence).scope settings fuel)) Q E)
    {σ : Session} (hσ : P σ.nodes) (alarm : Engine Unit) :
    x ((r.checked name R alarm).scope settings fuel) σ = x (r.scope settings fuel) σ := by
  have hsilent := hensures.not_silenced hσ
  have hsame : ∀ alarm, x ((r.checked name R silence).scope settings fuel) σ =
      x ((r.checked name R alarm).scope settings fuel) σ := fun alarm =>
    (hx.muted (muted_checked hr hR alarm settings fuel) σ).resolve_right hsilent
  rw [← hsame alarm, hsame (pure ()), scope_checked_skip]

end Registry

end TreeScript
