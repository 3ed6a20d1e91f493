import Mathlib.Data.List.Forall2
import TreeScript.Proofs.Engine.Run

/-!
# TreeScript — what a computation leaves alone

Much of what a keyword does only looks at the session, or changes one part of it. What is left
alone by each step of a computation is left alone by the whole, however it ends.

* `Preserves` — what a part of the session is at the end is what it was at the beginning;
* `Preserves.bind`, `Preserves.mapM` — compound steps;
* `Preserves.mapM_eq_ok` — what comes of steps that leave all alone;
* `preserves_lift`, `preserves_nodes`, `preserves_fail` — looking something up, and failing;
* `Unfailing` — a computation that does not fail;
* `Backed`, `Preserves.backed_bind` — nothing is lost where all failures come first.
-/

namespace TreeScript.Engine

variable {α β γ : Type} {f : Session → γ}

/-- The session at the end of a computation, however it ends. -/
def final (x : Engine α) (σ : Session) : Session :=
  match x σ with
  | .ok _ σ' => σ'
  | .error _ σ' => σ'

/-- A computation leaves alone what `f` tells of the session. -/
def Preserves (f : Session → γ) (x : Engine α) : Prop := ∀ σ, f (x.final σ) = f σ

/-- The session at the end of a computation that gives a result. -/
theorem final_of_ok {x : Engine α} {σ σ' : Session} {a : α} (h : x σ = .ok a σ') :
    x.final σ = σ' := by rw [final, h]

/-- The session at the end of a computation that halts. -/
theorem final_of_error {x : Engine α} {σ σ' : Session} {e : Halt} (h : x σ = .error e σ') :
    x.final σ = σ' := by rw [final, h]

namespace Preserves

/-- With a result, what is told of the session is as it was. -/
theorem of_ok {x : Engine α} (hx : Preserves f x) {σ σ' : Session} {a : α}
    (h : x σ = .ok a σ') : f σ' = f σ := by rw [← hx σ, final_of_ok h]

/-- With a failure, what is told of the session is as it was. -/
theorem of_error {x : Engine α} (hx : Preserves f x) {σ σ' : Session} {e : Halt}
    (h : x σ = .error e σ') : f σ' = f σ := by rw [← hx σ, final_of_error h]

theorem bind {x : Engine α} {k : α → Engine β} (hx : Preserves f x)
    (hk : ∀ a, Preserves f (k a)) : Preserves f (x >>= k) := by
  intro σ
  unfold final
  rw [bind_apply]
  cases h : x σ with
  | ok a σ' =>
    rw [← hx.of_ok h, ← hk a σ']
    rfl
  | error e σ' => exact hx.of_error h

/-- A first part that leaves all alone can be taken off. -/
theorem bind_eq_ok {x : Engine α} {k : α → Engine β} (hx : Preserves id x) {σ τ : Session} {b : β}
    (hrun : (x >>= k) σ = .ok b τ) : ∃ a, x σ = .ok a σ ∧ k a σ = .ok b τ := by
  obtain ⟨a, σ', hfirst, hrest⟩ := Engine.bind_eq_ok hrun
  obtain rfl : σ' = σ := hx.of_ok hfirst
  exact ⟨a, hfirst, hrest⟩

end Preserves

theorem preserves_pure (a : α) : Preserves f (pure a : Engine α) := fun _ => rfl

theorem preserves_get : Preserves f (get : Engine Session) := fun _ => rfl

theorem preserves_nodes : Preserves f Engine.nodes := fun _ => rfl

/-- Looking something up leaves all alone. -/
theorem preserves_lift (r : Except Fault α) : Preserves f (liftM r : Engine α) := by
  intro σ
  cases r <;> rfl

theorem preserves_lift_halt (r : Except Halt α) : Preserves f (liftM r : Engine α) := by
  intro σ
  cases r <;> rfl

theorem preserves_fail (h : Handle) (c : NodeContext → Failure) :
    Preserves f (Engine.fail h c : Engine α) :=
  preserves_nodes.bind fun s => preserves_lift_halt (s.fail h c)

namespace Preserves

theorem mapM {k : α → Engine β} (hk : ∀ a, Preserves f (k a)) (l : List α) :
    Preserves f (l.mapM k) := by
  induction l with
  | nil => exact preserves_pure []
  | cons a l ih =>
    rw [List.mapM_cons]
    exact (hk a).bind fun b => ih.bind fun bs => preserves_pure (b :: bs)

/-- Each result comes from the member in its place, in the session as it has been all the time. -/
theorem mapM_eq_ok {k : α → Engine β} (hk : ∀ a, Preserves id (k a)) {l : List α} {bs : List β}
    {σ τ : Session} (hrun : l.mapM k σ = .ok bs τ) :
    τ = σ ∧ List.Forall₂ (fun a b => k a σ = .ok b σ) l bs := by
  induction l generalizing bs τ with
  | nil =>
    cases hrun
    exact ⟨rfl, .nil⟩
  | cons a l ih =>
    rw [List.mapM_cons] at hrun
    obtain ⟨b, hone, hothers⟩ := (hk a).bind_eq_ok hrun
    obtain ⟨rest, σ₂, hall, hend⟩ := Engine.bind_eq_ok hothers
    obtain ⟨rfl, hrest⟩ := ih hall
    cases hend
    exact ⟨rfl, .cons hone hrest⟩

end Preserves

-- ---------------------------------------------------------------------------
-- Failures
-- ---------------------------------------------------------------------------

/-- A computation that may end at a fault but does not fail. -/
def Unfailing (x : Engine α) : Prop := ∀ σ e σ', x σ ≠ .error (.failure e) σ'

/-- A computation that has left alone what `f` tells of the session if it fails. -/
def Backed (f : Session → γ) (x : Engine α) : Prop :=
  ∀ σ e σ', x σ = .error (.failure e) σ' → f σ' = f σ

/-- What a computation never changes it has not changed when it fails. -/
theorem Preserves.backed {x : Engine α} (hx : Preserves f x) : Backed f x :=
  fun _ _ _ hrun => hx.of_error hrun

/-- A computation that changes nothing may stand in front of one that fails only before it changes
something. -/
theorem Preserves.backed_bind {x : Engine α} {k : α → Engine β} (hx : Preserves f x)
    (hk : ∀ a, Backed f (k a)) : Backed f (x >>= k) := by
  intro σ e σ' hrun
  rcases bind_eq_error hrun with hfail | ⟨a, σ₁, hok, hrest⟩
  · exact hx.of_error hfail
  · rw [hk a σ₁ e σ' hrest, hx.of_ok hok]

namespace Unfailing

theorem backed {x : Engine α} (hx : Unfailing x) : Backed f x :=
  fun σ e σ' hrun => absurd hrun (hx σ e σ')

theorem bind {x : Engine α} {k : α → Engine β} (hx : Unfailing x) (hk : ∀ a, Unfailing (k a)) :
    Unfailing (x >>= k) := by
  intro σ e σ' hrun
  rcases bind_eq_error hrun with hfail | ⟨a, σ₁, -, hrest⟩
  · exact hx σ e σ' hfail
  · exact hk a σ₁ e σ' hrest

theorem forM {k : α → Engine Unit} (hk : ∀ a, Unfailing (k a)) (l : List α) :
    Unfailing (l.forM k) := by
  induction l with
  | nil => exact fun _ _ _ => nofun
  | cons a l ih => exact (hk a).bind fun _ => ih

end Unfailing

theorem unfailing_pure (a : α) : Unfailing (pure a : Engine α) := fun _ _ _ => nofun

theorem unfailing_nodes : Unfailing Engine.nodes := fun _ _ _ => nofun

theorem unfailing_lift (r : Except Fault α) : Unfailing (liftM r : Engine α) := by
  intro σ e σ'
  cases r <;> exact nofun

theorem unfailing_change (g : Store → Except Fault (α × Store)) : Unfailing (Engine.change g) := by
  intro σ e σ'
  unfold Engine.change
  cases g σ.nodes <;> exact nofun

theorem unfailing_edit (g : Store → Except Fault Store) : Unfailing (Engine.edit g) :=
  unfailing_change _

end TreeScript.Engine
