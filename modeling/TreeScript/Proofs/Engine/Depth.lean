import TreeScript.Proofs.Engine.Interface
import TreeScript.Proofs.Keyword.Standard

/-!
# TreeScript — the depth of executions

Every execution of a block begins one level deeper and comes back, and none begins beyond the
limit. Handlers cannot get at the depth but through the engine, so whatever they do, the depth
after a call is the depth before, and no handler ever runs beyond the limit: putting a check of
the depth around every handler changes nothing.

* `Level` — two computations that run alike up to a depth, and come back to theirs;
* `OfInterface.level` — what is made of the parts of the engine, in scopes that are level;
* `Handler.watched`, `Registry.watched` — handlers with a check of the depth around them;
* `Registry.level_scope` — such checks change nothing.
-/

namespace TreeScript

open Engine

variable {α β : Type}

/-- Two computations that run alike where the depth is at most `limit`. The first one comes back
to the depth that it began at. -/
structure Level (limit : Nat) (x y : Engine α) : Prop where
  same (σ : Session) : σ.depth ≤ limit → x σ = y σ
  back (σ : Session) : AtDepth σ.depth (x σ)

/-- Scopes that differ in their dispatching only, where it runs alike. -/
structure Scope.Level (limit : Nat) (scope scope' : Scope) : Prop where
  settings : scope.settings = scope'.settings
  fuel : scope.fuel = scope'.fuel
  dispatch (name : String) (h : Handle) :
    TreeScript.Level limit (scope.dispatch name h) (scope'.dispatch name h)

namespace Level

variable {limit : Nat}

/-- A computation that ends at the depth at which it began stands for itself. -/
theorem self {x : Engine α} (hx : ∀ σ, AtDepth σ.depth (x σ)) : Level limit x x :=
  ⟨fun _ _ => rfl, hx⟩

theorem bind {x y : Engine α} {f g : α → Engine β} (hxy : Level limit x y)
    (hfg : ∀ a, Level limit (f a) (g a)) : Level limit (x >>= f) (y >>= g) where
  same σ hσ := by
    rw [bind_apply, bind_apply, ← hxy.same σ hσ]
    have hback := hxy.back σ
    cases hrun : x σ with
    | ok a τ =>
      rw [hrun] at hback
      exact (hfg a).same τ ((show τ.depth = σ.depth from hback) ▸ hσ)
    | error e τ => rfl
  back σ := level_of_bind (hxy.back σ) fun a => (hfg a).back

theorem attempt {x y : Engine α} (hxy : Level limit x y) :
    Level limit (Engine.attempt x) (Engine.attempt y) :=
  ⟨fun σ hσ => attempt_congr (hxy.same σ hσ), fun σ => level_attempt (hxy.back σ)⟩

/-- An execution begins only where one level deeper is not beyond the limit. -/
theorem nested {settings : Settings} (hlimit : settings.maxDepth ≤ limit) (h : Handle)
    {x y : Engine α} (hxy : Level limit x y) :
    Level limit (Engine.nested settings h x) (Engine.nested settings h y) where
  same σ _ := by
    rw [nested_apply, nested_apply]
    split
    next => rfl
    next hdeep => rw [hxy.same _ (by simpa using by omega)]
  back := level_nested settings h hxy.back

end Level

/-- What is made of the parts of the engine runs alike in scopes that do. -/
theorem OfInterface.level {limit : Nat} {x : Scope → Engine α} (hx : OfInterface x)
    {scope scope' : Scope} (hscope : scope.Level limit scope')
    (hlimit : scope.settings.maxDepth ≤ limit) : Level limit (x scope) (x scope') := by
  induction hx with
  | step hx => exact .self hx
  | settings =>
    show Level limit (pure scope.settings) (pure scope'.settings)
    rw [← hscope.settings]
    exact .self fun _ => rfl
  | fuel =>
    show Level limit (pure scope.fuel) (pure scope'.fuel)
    rw [← hscope.fuel]
    exact .self fun _ => rfl
  | dispatch name h => exact hscope.dispatch name h
  | @nested _ y h _ ih =>
    show Level limit (Engine.nested scope.settings h (y scope))
      (Engine.nested scope'.settings h (y scope'))
    rw [← hscope.settings]
    exact .nested hlimit h ih
  | attempt _ ih => exact .attempt ih
  | bind _ _ ih ihf => exact .bind ih ihf

-- ---------------------------------------------------------------------------
-- Handlers that watch the depth
-- ---------------------------------------------------------------------------

/-- Raises an alarm if the depth is beyond a limit. -/
def checkDepth (limit : Nat) (alarm : Halt) : Engine Unit := do
  if limit < (← get).depth then throw alarm

/-- A handler with a check of the depth in front of it, and behind it whether it fails or not. -/
def Handler.watched (limit : Nat) (alarm : Halt) (handler : Handler) : Handler := fun scope h => do
  checkDepth limit alarm
  Engine.always (handler scope h) (checkDepth limit alarm)

/-- A registry of handlers with checks around them. -/
def Registry.watched (limit : Nat) (alarm : Halt) (r : Registry) : Registry :=
  { r with handlers := r.handlers.map fun _ handlers => handlers.map (Handler.watched limit alarm) }

variable {limit : Nat} {alarm : Halt}

/-- Up to the limit the check does nothing. -/
theorem checkDepth_apply {σ : Session} (hσ : σ.depth ≤ limit) :
    checkDepth limit alarm σ = .ok () σ := by
  rw [checkDepth, get_bind_apply, if_neg (Nat.not_lt.2 hσ)]
  rfl

/-- The checks around a computation that comes back to its depth change nothing. -/
theorem watched_apply {x : Engine Unit} {σ : Session} (hx : AtDepth σ.depth (x σ))
    (hσ : σ.depth ≤ limit) :
    (checkDepth limit alarm >>= fun _ => Engine.always x (checkDepth limit alarm)) σ = x σ := by
  rw [bind_of_ok (checkDepth_apply hσ), Engine.always, bind_apply]
  unfold Engine.attempt
  cases hrun : x σ with
  | ok a τ =>
    rw [hrun] at hx
    have hτ : τ.depth ≤ limit := (show τ.depth = σ.depth from hx) ▸ hσ
    simp only [bind_of_ok (checkDepth_apply hτ)]
    rfl
  | error e τ =>
    rw [hrun] at hx
    cases e with
    | failure f =>
      have hτ : τ.depth ≤ limit := (show τ.depth = σ.depth from hx) ▸ hσ
      simp only [bind_of_ok (checkDepth_apply hτ)]
      rfl
    | fault f => rfl

/-- A computation runs alike with the check in front of it and behind it. -/
theorem Level.watched {x y : Engine Unit} (hxy : Level limit x y) :
    Level limit x
      (checkDepth limit alarm >>= fun _ => Engine.always y (checkDepth limit alarm)) where
  same σ hσ := by
    have hy : AtDepth σ.depth (y σ) := hxy.same σ hσ ▸ hxy.back σ
    rw [watched_apply hy hσ, hxy.same σ hσ]
  back := hxy.back

namespace Registry

/-- The handlers of an event run alike with checks around them. -/
theorem level_runAll {scope scope' : Scope} (hscope : scope.Level limit scope')
    (hlimit : scope.settings.maxDepth ≤ limit) (h : Handle) {handlers : List Handler}
    (hall : ∀ handler ∈ handlers, handler.OfInterface) :
    Level limit (runAll scope h handlers)
      (runAll scope' h (handlers.map (Handler.watched limit alarm))) := by
  induction handlers with
  | nil => exact .self fun _ => rfl
  | cons handler rest ih =>
    obtain ⟨hfirst, hrest⟩ := List.forall_mem_cons.1 hall
    refine Level.bind (.self (Steady.level (x := Engine.isAlive h))) fun alive => ?_
    cases alive with
    | false => exact .self fun _ => rfl
    | true => exact ((hfirst h).level hscope hlimit).watched.bind fun _ => ih hrest

/-- Dispatching runs alike with the checks and without them, by induction on the bound. -/
theorem level_scope {r : Registry} (hr : r.All Handler.OfInterface) (settings : Settings)
    (hlimit : settings.maxDepth ≤ limit) (fuel : Nat) :
    (r.scope settings fuel).Level limit ((r.watched limit alarm).scope settings fuel) := by
  induction fuel with
  | zero => exact ⟨rfl, rfl, fun _ _ => .self fun _ => trivial⟩
  | succ fuel ih =>
    refine ⟨rfl, rfl, fun name h => ?_⟩
    show Level limit (dispatch r settings (fuel + 1) name h)
      (dispatch (r.watched limit alarm) settings (fuel + 1) name h)
    rw [dispatch, dispatch, show (r.watched limit alarm).handlers[name]? =
      (r.handlers[name]?).map (List.map (Handler.watched limit alarm)) from
        Std.TreeMap.getElem?_map]
    cases hhandlers : r.handlers[name]? with
    | some handlers => exact level_runAll ih hlimit h (hr name handlers hhandlers)
    | none =>
      rw [show (r.watched limit alarm).unknown = r.unknown from rfl]
      cases r.unknown with
      | error => exact .self (Steady.level (x := Engine.fail h (.unknownEvent name)))
      | ignore => exact .self fun _ => rfl

end Registry

end TreeScript
