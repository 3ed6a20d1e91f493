import TreeScript.Proofs.Engine.Execute

/-!
# TreeScript — steady computations

Whatever the engine does to the node store is a sequence of operations on slots, and when it
returns, with a result or with a failure, the depth is what it was before. Both are passed on
from step to step, so they are found by instances.

* `Steady` — the two together;
* `steady_change`, `steady_edit`, `steady_modify` — single steps;
* `Scope.Steady` — scopes whose dispatching is steady; all that the engine does in them is.
-/

namespace TreeScript

open Store

namespace Engine

variable {α β : Type}

/-- The depth where a computation returns. Nothing is said after a fault. -/
def AtDepth (n : Nat) : EStateM.Result Halt Session α → Prop
  | .ok _ σ => σ.depth = n
  | .error (.failure _) σ => σ.depth = n
  | .error (.fault _) _ => True

/-- A computation that does nothing but operations on slots to the node store, and returns at
the depth that it began at. -/
class Steady (x : Engine α) : Prop where
  evolves (σ : Session) : Evolves σ.nodes (x.after σ)
  level (σ : Session) : AtDepth σ.depth (x σ)

theorem level_of_bind {x : Engine α} {f : α → Engine β} {σ : Session}
    (hx : AtDepth σ.depth (x σ)) (hf : ∀ a τ, AtDepth τ.depth (f a τ)) :
    AtDepth σ.depth ((x >>= f) σ) := by
  rw [bind_apply]
  cases hrun : x σ with
  | ok a τ =>
    rw [hrun] at hx
    exact (show τ.depth = σ.depth from hx) ▸ hf a τ
  | error e τ =>
    rw [hrun] at hx
    cases e <;> exact hx

theorem Steady.evolves_of_ok {x : Engine α} [hx : Steady x] {σ τ : Session} {a : α}
    (hrun : x σ = .ok a τ) : Evolves σ.nodes τ.nodes := by
  have hevolves := hx.evolves σ
  rwa [after, hrun] at hevolves

/-- Operations on slots, by the rules for assertions that promise nothing. -/
theorem Steady.ensures (x : Engine α) [hx : Steady x] :
    Ensures (fun _ => False) x (fun _ _ => False) fun _ => False :=
  ⟨hx.evolves, fun _ _ h => h.elim⟩

instance (a : α) : Steady (pure a : Engine α) := ⟨fun _ => .refl _, fun _ => rfl⟩

instance (e : Halt) : Steady (throw e : Engine α) :=
  ⟨fun _ => .refl _, fun _ => by cases e <;> first | rfl | trivial⟩

theorem Steady.bind {x : Engine α} {f : α → Engine β} (hx : Steady x) (hf : ∀ a, Steady (f a)) :
    Steady (x >>= f) where
  evolves := ((Steady.ensures x).bind fun a =>
    (Steady.ensures (f a)).before fun _ _ h => h).evolves
  level σ := level_of_bind (hx.level σ) fun a => (hf a).level

instance (x : Engine α) (f : α → Engine β) [hx : Steady x] [hf : ∀ a, Steady (f a)] :
    Steady (x >>= f) := hx.bind hf

instance (c : Prop) [Decidable c] (x y : Engine α) [Steady x] [Steady y] :
    Steady (if c then x else y) := by split <;> infer_instance

instance : Steady Engine.nodes := ⟨fun _ => .refl _, fun _ => rfl⟩

instance : Steady (get : Engine Session) := ⟨fun _ => .refl _, fun _ => rfl⟩

instance (h : Handle) : Steady (Engine.isAlive h) := ⟨fun _ => .refl _, fun _ => rfl⟩

instance (r : Except Halt α) : Steady (liftM r : Engine α) := by
  cases r with
  | ok a => exact inferInstanceAs (Steady (pure a))
  | error e => exact inferInstanceAs (Steady (throw e))

instance (r : Except Fault α) : Steady (liftM r : Engine α) := by
  cases r with
  | ok a => exact inferInstanceAs (Steady (pure a))
  | error e => exact inferInstanceAs (Steady (throw (.fault e) : Engine α))

instance (h : Handle) (f : NodeContext → Failure) : Steady (Engine.fail h f : Engine α) :=
  inferInstanceAs (Steady (Engine.nodes >>= fun s => liftM (s.fail h f)))

/-- Catching a failure comes up to the same level. -/
theorem level_attempt {x : Engine α} {σ : Session} (hx : AtDepth σ.depth (x σ)) :
    AtDepth σ.depth (attempt x σ) := by
  unfold attempt
  cases hrun : x σ with
  | ok a τ =>
    rw [hrun] at hx
    exact hx
  | error e τ =>
    rw [hrun] at hx
    cases e <;> exact hx

instance (x : Engine α) [hx : Steady x] : Steady (attempt x) :=
  ⟨fun σ => by rw [after_attempt]; exact hx.evolves σ, fun σ => level_attempt (hx.level σ)⟩

instance (r : Except Failure α) : Steady (ofOutcome r) := by
  cases r with
  | ok a => exact inferInstanceAs (Steady (pure a))
  | error f => exact inferInstanceAs (Steady (throw (.failure f) : Engine α))

instance (x : Engine α) (last : Engine Unit) [Steady x] [Steady last] : Steady (always x last) :=
  inferInstanceAs (Steady (attempt x >>= fun outcome => last >>= fun _ => ofOutcome outcome))

/-- A change of what is neither a node nor the depth is steady. -/
theorem steady_modify {g : Session → Session} (hg : ∀ σ, (g σ).nodes = σ.nodes)
    (hdepth : ∀ σ, (g σ).depth = σ.depth) : Steady (modify g : Engine PUnit) :=
  ⟨fun σ => (hg σ ▸ .refl _ : Evolves σ.nodes (g σ).nodes), hdepth⟩

theorem steady_change {f : Store → Except Fault (α × Store)}
    (hf : ∀ {t a t'}, f t = .ok (a, t') → Evolves t t') : Steady (Engine.change f) where
  evolves := (Ensures.change (P := fun _ => False) (Q := fun _ _ => False) (E := fun _ => False)
    hf (fun _ h => h.elim) fun _ h => h.elim).evolves
  level σ := by
    unfold Engine.change
    cases f σ.nodes <;> first | rfl | trivial

theorem steady_edit {f : Store → Except Fault Store}
    (hf : ∀ {t t'}, f t = .ok t' → Evolves t t') : Steady (Engine.edit f) := by
  refine steady_change fun {t a t'} h => ?_
  cases hft : f t with
  | ok s =>
    rw [hft] at h
    obtain ⟨-, rfl⟩ := Prod.mk.inj (Except.ok.inj h)
    exact hf hft
  | error e => simp [hft, Except.map] at h

/-- One level deeper, and back. -/
theorem level_nested (settings : Settings) (h : Handle) {x : Engine α}
    (hx : ∀ σ, AtDepth σ.depth (x σ)) (σ : Session) :
    AtDepth σ.depth (nested settings h x σ) := by
  rw [nested_apply]
  split
  next => exact Steady.level σ
  next =>
    have hdeep := hx { σ with depth := σ.depth + 1 }
    cases hrun : x { σ with depth := σ.depth + 1 } with
    | ok a τ =>
      rw [hrun] at hdeep
      exact congrArg (· - 1) (show τ.depth = σ.depth + 1 from hdeep)
    | error e τ =>
      rw [hrun] at hdeep
      cases e with
      | failure f => exact congrArg (· - 1) (show τ.depth = σ.depth + 1 from hdeep)
      | fault f => trivial

instance (settings : Settings) (h : Handle) (x : Engine α) [hx : Steady x] :
    Steady (nested settings h x) where
  evolves := by
    have hnested := @Engine.Ensures.nested _ _ _ _ settings h _ (Steady.ensures x)
      fun _ _ hfalse => hfalse.elim
    exact hnested.evolves
  level := level_nested settings h hx.level

/-- One steady computation for each member of a list. -/
theorem Steady.forM {f : α → Engine Unit} (hf : ∀ a, Steady (f a)) (as : List α) :
    Steady (as.forM f) := by
  induction as with
  | nil => exact inferInstanceAs (Steady (pure ()))
  | cons a rest ih => exact (hf a).bind fun _ => ih

instance (f : α → Engine Unit) [hf : ∀ a, Steady (f a)] (as : List α) : Steady (as.forM f) :=
  .forM hf as

instance (f : α → Engine β) [∀ a, Steady (f a)] (as : List α) : Steady (as.mapM f) := by
  induction as with
  | nil =>
    rw [List.mapM_nil]
    infer_instance
  | cons a rest ih =>
    rw [List.mapM_cons]
    infer_instance

-- ---------------------------------------------------------------------------
-- Edits
-- ---------------------------------------------------------------------------

theorem steady_edit_ok {f : Store → Store} (hf : ∀ t, Evolves t (f t)) :
    Steady (Engine.edit fun s => .ok (f s)) := by
  refine steady_edit fun {t t'} h => ?_
  obtain rfl := Except.ok.inj h
  exact hf t

variable (h : Handle) (name : String) (v : Option Value) (c : Control)

instance : Steady (Engine.detach h) := steady_edit_ok fun _ => .detach _ _

instance : Steady (Engine.remove h) := steady_edit_ok fun _ => .remove _ _

instance : Steady (Engine.clear h) := steady_edit fun hok => .clear hok

instance : Steady (Engine.setValue h v) := steady_edit fun hok => by
  obtain ⟨-, rfl⟩ := setValue_eq_ok hok
  exact .assign _ _ _

instance : Steady (Engine.edit fun s => s.stripReturn h) := steady_edit fun hok => .stripReturn hok

instance : Steady (Engine.edit fun s => s.signal h c) := steady_edit fun hok => .signal hok

instance : Steady (Engine.change fun s => s.clearSignal h) := steady_change fun hok =>
  .clearSignal hok

instance : Steady (Engine.takeValue h) := steady_change fun hok => by
  obtain ⟨-, -, -, rfl⟩ := takeValue_eq_ok hok
  exact .modify _ _ _

instance : Steady (Engine.add h name v) := steady_change fun hok => .add hok

instance : Steady (Engine.deepClone h) := steady_change fun hok => .deepClone hok

instance (text : String) : Steady (Engine.load text) := steady_change fun {t a t'} hok => by
  have hload := Evolves.load t text
  rwa [Except.ok.inj hok] at hload

instance (i : Nat) (child : Handle) : Steady (Engine.insert h i child) := by
  have hmove : Steady (Engine.edit fun s => s.moveBelow h i child) :=
    steady_edit fun hok => .moveBelow hok
  rw [insert_eq]
  infer_instance

instance (child : Handle) : Steady (Engine.append h child) := by
  rw [append_eq]
  infer_instance

end Engine

-- ---------------------------------------------------------------------------
-- Scopes
-- ---------------------------------------------------------------------------

/-- A scope whose dispatching is steady. -/
class Scope.Steady (scope : Scope) : Prop where
  dispatch (name : String) (h : Handle) : Engine.Steady (scope.dispatch name h)

attribute [instance] Scope.Steady.dispatch

section

variable (target destination h : Handle) (args known : List Handle) (first : Bool) (text : String)

instance : Engine.Steady (cloneInFront target args) := by
  induction args with
  | nil => unfold cloneInFront; infer_instance
  | cons arg rest ih => unfold cloneInFront; infer_instance

instance : Engine.Steady (cloneBehind target args) := by
  induction args with
  | nil => unfold cloneBehind; infer_instance
  | cons arg rest ih => unfold cloneBehind; infer_instance

instance : Engine.Steady (handOver target destination known) := by
  unfold handOver
  infer_instance

instance : Engine.Steady (deliver target destination known first) := by
  rw [deliver_eq]
  infer_instance

instance (c : Control) : Engine.Steady (settle target c) := by
  unfold settle
  infer_instance

instance : Engine.Steady (sourceOfText h text) := by
  unfold sourceOfText
  refine .bind inferInstance fun r => ?_
  cases r <;> infer_instance

instance (item : Item) : Engine.Steady (toSource h item) := by
  have hlive : ∀ block, Engine.Steady (toSource.live block) := fun block => by
    unfold toSource.live
    infer_instance
  unfold toSource
  split <;> infer_instance

variable (scope : Scope) [scope.Steady] (block : Handle) (marker : Option Handle) (mode : BlockMode)

instance : Engine.Steady (executeOne scope marker h) := by
  unfold executeOne
  infer_instance

instance (fuel : Nat) (x : Option Handle) : Engine.Steady (loop scope block marker fuel x) := by
  induction fuel generalizing x with
  | zero => cases x <;> (unfold loop; infer_instance)
  | succ fuel ih => cases x <;> (unfold loop; infer_instance)

instance : Engine.Steady (executeAll scope block) := by
  unfold executeAll
  refine .bind inferInstance fun s => .bind inferInstance fun marker => ?_
  refine .bind inferInstance fun start => ?_
  cases start <;> infer_instance

instance : Engine.Steady (workOn scope block args) := by
  unfold workOn
  infer_instance

instance : Engine.Steady (runCopy scope block destination args first) := by
  rw [runCopy_eq_workOn]
  infer_instance

instance : Engine.Steady (executeCopy scope block destination args first) := by
  unfold executeCopy
  infer_instance

instance : Engine.Steady (executeInPlace scope block args) := by
  unfold executeInPlace
  infer_instance

instance : Engine.Steady (executeBlock mode scope block destination args first) := by
  unfold executeBlock
  cases mode <;> infer_instance

instance (item : Item) : Engine.Steady (runItem mode scope h args first item) := by
  unfold runItem
  refine .bind inferInstance fun source => ?_
  cases source <;> infer_instance

instance (items : List Item) : Engine.Steady (runSources mode scope h args first items) := by
  induction items generalizing first with
  | nil => unfold runSources; infer_instance
  | cons item rest ih => rw [runSources_cons]; infer_instance

instance : Engine.Steady (executeSources mode scope h) := by
  unfold executeSources
  infer_instance

instance (own : Bool) : Engine.Steady (execute mode scope h own) := by
  have hrest : Engine.Steady (Engine.nodes >>= fun s => liftM (s.value h) >>= fun v => match v with
      | none => executeBlock mode scope h h [] true
      | some _ => executeSources mode scope h) := by
    refine .bind inferInstance fun s => .bind inferInstance fun v => ?_
    cases v <;> infer_instance
  unfold execute
  infer_instance

end

end TreeScript
