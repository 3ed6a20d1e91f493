import Mathlib.Data.List.Forall2
import TreeScript.Failure

/-!
# TreeScript — steps that may fail

A sequence of steps succeeds exactly when each of them does. These lemmas take the
sequence apart.

* `bind_eq_ok_iff`, `liftM_eq_ok_iff` — one step, and one of the store;
* `mapM_eq_ok_iff`, `mem_of_mapM_eq_ok` — the results of a step for each member of a list;
* `Ends`, `Ends.bind`, `Ends.mapM` — what holds of the result and of the error;
* `Fault.Excused`, `Halt.Excused` — a stale handle only where there is a reason.
-/

namespace TreeScript

/-- The whole gives a result just if both parts do. -/
theorem bind_eq_ok_iff {ε α β : Type} {x : Except ε α} {f : α → Except ε β} {b : β} :
    x >>= f = .ok b ↔ ∃ a, x = .ok a ∧ f a = .ok b := by
  cases x <;> simp [bind, Except.bind]

/-- What may meet a fault gives the same result where it may also fail. -/
theorem ofFault_eq_ok_iff {α : Type} {r : Except Fault α} {a : α} :
    Halt.ofFault r = .ok a ↔ r = .ok a := by
  cases r with
  | ok b =>
    exact ⟨fun hb => congrArg _ (Except.ok.inj hb), fun hb => congrArg _ (Except.ok.inj hb)⟩
  | error e => exact ⟨nofun, nofun⟩

theorem liftM_eq_ok_iff {α : Type} {r : Except Fault α} {a : α} :
    (liftM r : Except Halt α) = .ok a ↔ r = .ok a := ofFault_eq_ok_iff

/-- Each result comes from the member in its place. -/
theorem mapM_eq_ok_iff {ε α β : Type} {f : α → Except ε β} {as : List α} {bs : List β} :
    as.mapM f = .ok bs ↔ List.Forall₂ (fun a b => f a = .ok b) as bs := by
  constructor
  · intro hok
    induction as generalizing bs with
    | nil =>
      obtain rfl : bs = [] := by simpa [pure, Except.pure, eq_comm] using hok
      exact .nil
    | cons a rest ih =>
      rw [List.mapM_cons] at hok
      obtain ⟨x, hx, hok⟩ := bind_eq_ok_iff.1 hok
      obtain ⟨ys, hrest, hok⟩ := bind_eq_ok_iff.1 hok
      obtain rfl : x :: ys = bs := by simpa [pure, Except.pure] using hok
      exact .cons hx (ih hrest)
  · intro hall
    induction hall with
    | nil => rfl
    | cons ha _ ih =>
      rw [List.mapM_cons, ha, ih]
      rfl

/-- Every result comes from a member of the list. -/
theorem mem_of_mapM_eq_ok {ε α β : Type} {f : α → Except ε β} {as : List α} {bs : List β}
    (hok : as.mapM f = .ok bs) {y : β} (hy : y ∈ bs) : ∃ a ∈ as, f a = .ok y := by
  have hall := mapM_eq_ok_iff.1 hok
  clear hok
  induction hall with
  | nil => simp at hy
  | @cons a x rest ys ha _ ih =>
    rcases List.mem_cons.1 hy with rfl | hy
    · exact ⟨a, List.mem_cons_self, ha⟩
    · obtain ⟨a', ha', hy'⟩ := ih hy
      exact ⟨a', List.mem_cons_of_mem _ ha', hy'⟩

/-- A list has partners if each member has one. -/
theorem exists_forall₂_iff {α β : Type} {R : α → β → Prop} {as : List α} :
    (∃ bs, List.Forall₂ R as bs) ↔ ∀ a ∈ as, ∃ b, R a b := by
  induction as with
  | nil => exact ⟨fun _ _ ha => absurd ha (by simp), fun _ => ⟨[], .nil⟩⟩
  | cons a rest ih =>
    rw [List.forall_mem_cons, ← ih]
    constructor
    · rintro ⟨_, hall⟩
      obtain ⟨b, bs, hb, hbs, -⟩ := List.forall₂_cons_left_iff.1 hall
      exact ⟨⟨b, hb⟩, bs, hbs⟩
    · rintro ⟨⟨b, hb⟩, bs, hbs⟩
      exact ⟨b :: bs, .cons hb hbs⟩

/-- All steps give a result exactly where each of them does. -/
theorem exists_mapM_eq_ok_iff {ε α β : Type} {f : α → Except ε β} {as : List α} :
    (∃ bs, as.mapM f = .ok bs) ↔ ∀ a ∈ as, ∃ b, f a = .ok b := by
  simp only [mapM_eq_ok_iff, exists_forall₂_iff]

/-- Where each member gives a result, the list gives the results. -/
theorem mapM_eq_ok_map {ε α β : Type} {f : α → Except ε β} {g : α → β} {as : List α}
    (h : ∀ a ∈ as, f a = .ok (g a)) : as.mapM f = .ok (as.map g) :=
  mapM_eq_ok_iff.2 (List.forall₂_map_right_iff.2 (List.forall₂_same.2 h))

-- ---------------------------------------------------------------------------
-- Results and errors
-- ---------------------------------------------------------------------------

/-- Steps that may fail end in a result with one property or in an error with another. -/
def Ends {ε α : Type} (r : Except ε α) (P : α → Prop) (E : ε → Prop) : Prop :=
  match r with
  | .ok a => P a
  | .error e => E e

namespace Ends

variable {ε α β : Type} {P : α → Prop} {Q : β → Prop} {E : ε → Prop}

theorem mono {P' : α → Prop} {E' : ε → Prop} {r : Except ε α} (hr : Ends r P E)
    (hP : ∀ a, P a → P' a) (hE : ∀ e, E e → E' e) : Ends r P' E' := by
  cases r with
  | ok a => exact hP a hr
  | error e => exact hE e hr

theorem bind {x : Except ε α} {f : α → Except ε β} (hx : Ends x P E)
    (hf : ∀ a, P a → Ends (f a) Q E) : Ends (x >>= f) Q E := by
  cases x with
  | ok a => exact hf a hx
  | error e => exact hx

/-- A result that is passed through a function. -/
theorem map {x : Except ε α} {f : α → β} (hx : Ends x P E) (hf : ∀ a, P a → Q (f a)) :
    Ends (x.map f) Q E := by
  cases x with
  | ok a => exact hf a hx
  | error e => exact hx

/-- A step for each member of a list. -/
theorem mapM {f : α → Except ε β} {as : List α} (hf : ∀ a ∈ as, Ends (f a) Q E) :
    Ends (as.mapM f) (fun bs => ∀ b ∈ bs, Q b) E := by
  induction as with
  | nil =>
    show ∀ b ∈ [], Q b
    simp
  | cons a rest ih =>
    obtain ⟨ha, hrest⟩ := List.forall_mem_cons.1 hf
    rw [List.mapM_cons]
    exact ha.bind fun b hb => (ih hrest).bind fun bs hbs => List.forall_mem_cons.2 ⟨hb, hbs⟩

end Ends

/-- A fault for which there is a reason: nothing is asked of a walk without end, but a
stale handle has to have one. -/
def Fault.Excused (reason : Prop) : Fault → Prop
  | .stale => reason
  | .endless => True

/-- The same for a halt; a failure needs no reason. -/
def Halt.Excused (reason : Prop) : Halt → Prop
  | .failure _ => True
  | .fault f => f.Excused reason

/-- A fault with an excuse has it as a halt. -/
theorem Ends.ofFault {α : Type} {P : α → Prop} {reason : Prop} {r : Except Fault α}
    (hr : Ends r P (Fault.Excused reason)) : Ends (Halt.ofFault r) P (Halt.Excused reason) := by
  cases r with
  | ok a => exact hr
  | error f => exact hr

end TreeScript
