import TreeScript.Proofs.Engine.Steady

/-!
# TreeScript — what handlers are made of

A handler may do whatever it likes to the session except changing the depth, and may use the
scope through the engine: dispatch nodes, and begin executions one level deeper. It goes on
after failures as it wants. What the engine itself does in a scope is of this kind as well.

* `OfInterface` — computations made of these parts;
* `OfInterface.executeAll`, `OfInterface.executeCopy`, `OfInterface.executeInPlace`,
  `OfInterface.execute`, `OfInterface.evaluate` — the functions of the engine;
* `Handler.OfInterface` — handlers made of these parts.
-/

namespace TreeScript

open Engine

/-- Computations in a scope that have no access to the depth but through the engine. -/
inductive OfInterface : {α : Type} → (Scope → Engine α) → Prop
  | step {α : Type} {x : Engine α} (hx : ∀ σ, AtDepth σ.depth (x σ)) : OfInterface fun _ => x
  | settings : OfInterface fun scope => pure scope.settings
  | fuel : OfInterface fun scope => pure scope.fuel
  | dispatch (name : String) (h : Handle) : OfInterface fun scope => scope.dispatch name h
  | nested {α : Type} {x : Scope → Engine α} (h : Handle) (hx : OfInterface x) :
      OfInterface fun scope => Engine.nested scope.settings h (x scope)
  | attempt {α : Type} {x : Scope → Engine α} (hx : OfInterface x) :
      OfInterface fun scope => Engine.attempt (x scope)
  | bind {α β : Type} {x : Scope → Engine α} {f : α → Scope → Engine β} (hx : OfInterface x)
      (hf : ∀ a, OfInterface (f a)) : OfInterface fun scope => x scope >>= fun a => f a scope

/-- A handler that has no access to the depth but through the engine. -/
def Handler.OfInterface (handler : Handler) : Prop :=
  ∀ h, TreeScript.OfInterface fun scope => handler scope h

namespace OfInterface

variable {α β : Type} {x y : Scope → Engine α}

/-- A computation of the engine that does not look at the scope. -/
theorem steady {z : Engine α} [hz : Steady z] : OfInterface fun _ => z := .step hz.level

/-- A test on what does not depend on the scope. -/
theorem ite {c : Prop} [Decidable c] (hx : OfInterface x) (hy : OfInterface y) :
    OfInterface fun scope => if c then x scope else y scope := by
  split
  next => exact hx
  next => exact hy

/-- A step that does not use the scope comes first. -/
theorem after {z : Engine β} [Steady z] {f : β → Scope → Engine α}
    (hf : ∀ b, OfInterface (f b)) : OfInterface fun scope => z >>= fun b => f b scope :=
  .bind .steady hf

theorem withSettings {f : Settings → Scope → Engine α}
    (hf : ∀ settings, OfInterface (f settings)) :
    OfInterface fun scope => f scope.settings scope := .bind .settings hf

theorem withFuel {f : Nat → Scope → Engine α} (hf : ∀ fuel, OfInterface (f fuel)) :
    OfInterface fun scope => f scope.fuel scope := .bind .fuel hf

theorem always (hx : OfInterface x) {last : Engine Unit} [Steady last] :
    OfInterface fun scope => Engine.always (x scope) last :=
  .bind (.attempt hx) fun outcome => steady (z := last >>= fun _ => ofOutcome outcome)

-- ---------------------------------------------------------------------------
-- The statement loop
-- ---------------------------------------------------------------------------

variable (block h : Handle) (marker : Option Handle)

/-- One node is executed through the engine. -/
theorem executeOne : OfInterface fun scope => TreeScript.executeOne scope marker h := by
  unfold TreeScript.executeOne
  exact .ite (.after fun _ => .after fun name => .ite (.dispatch name h) .steady) .steady

theorem loop (fuel : Nat) (current : Option Handle) :
    OfInterface fun scope => TreeScript.loop scope block marker fuel current := by
  induction fuel generalizing current with
  | zero => cases current <;> (simp only [TreeScript.loop]; exact .steady)
  | succ fuel ih =>
    cases current with
    | none =>
      simp only [TreeScript.loop]
      exact .steady
    | some h =>
      exact .after fun _ => .bind (executeOne h marker) fun _ => .after fun _ => .after fun _ =>
        .ite .steady (ih _)

theorem executeAll : OfInterface fun scope => TreeScript.executeAll scope block := by
  refine .after fun s => .after fun marker => .bind (withSettings (f := fun settings _ =>
    liftM (startPosition settings s block marker)) fun _ => .steady) fun start => ?_
  cases start with
  | none => exact steady (z := (pure .none : Engine Control))
  | some start => exact withFuel fun fuel => loop block marker fuel _

-- ---------------------------------------------------------------------------
-- Blocks
-- ---------------------------------------------------------------------------

variable (destination : Handle) (args : List Handle) (first : Bool) (mode : BlockMode)

theorem runCopy (copy : Handle) :
    OfInterface fun scope => TreeScript.runCopy scope copy destination args first := by
  simp only [runCopy_eq]
  exact .after fun _ => .after fun _ => .after fun _ => .bind (executeAll copy) fun _ => .steady

theorem executeCopy :
    OfInterface fun scope => TreeScript.executeCopy scope block destination args first :=
  .after fun copy => .always (runCopy destination args first copy)

theorem executeInPlace : OfInterface fun scope => TreeScript.executeInPlace scope block args :=
  .after fun _ => .bind (executeAll block) fun _ => .steady

theorem executeBlock :
    OfInterface fun scope => TreeScript.executeBlock mode scope block destination args first := by
  cases mode with
  | copy => exact executeCopy block destination args first
  | inPlace => exact .bind (executeInPlace block args) fun _ => .steady

-- ---------------------------------------------------------------------------
-- Nodes
-- ---------------------------------------------------------------------------

theorem runItem (item : Item) :
    OfInterface fun scope => TreeScript.runItem mode scope h args first item := by
  refine .after fun source => ?_
  cases source with
  | none => exact steady (z := pure false)
  | some source =>
    exact .bind (.always (executeBlock source.block h args first mode)) fun _ => .steady

theorem runSources (items : List Item) :
    OfInterface fun scope => TreeScript.runSources mode scope h args first items := by
  induction items generalizing first with
  | nil => exact steady (z := pure ())
  | cons item rest ih =>
    simp only [runSources_cons]
    exact .after fun _ => .ite (.bind (runItem h args first mode item) fun _ =>
      .ite (.after fun _ => .after fun _ => .ite .steady (ih false)) (ih first)) .steady

/-- The blocks that a node's value leads to. -/
theorem executeSources : OfInterface fun scope => TreeScript.executeSources mode scope h :=
  .after fun _ => .after fun items => .after fun _ => .after fun _ => .after fun templates =>
    .always (runSources h templates true mode items)

/-- A node, by its own children or by its value. -/
theorem execute (own : Bool) : OfInterface fun scope => TreeScript.execute mode scope h own := by
  refine .nested h (.ite (executeBlock h h [] true mode) (.after fun _ => .after fun v => ?_))
  cases v with
  | none => exact executeBlock h h [] true mode
  | some v => exact executeSources h mode

theorem evaluate : OfInterface fun scope => TreeScript.evaluate scope h :=
  .bind (execute h .inPlace true) fun _ => .steady

end OfInterface

end TreeScript
