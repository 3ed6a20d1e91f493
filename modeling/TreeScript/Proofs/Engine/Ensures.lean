import TreeScript.Proofs.Engine.Run
import TreeScript.Proofs.Path.Live
import TreeScript.Proofs.Store.Adopt

/-!
# TreeScript — assertions about computations

`Ensures P x Q E` says what a computation does to the node store: if `P` holds before it
and it gives a result, `Q` holds of the result and the store; if it fails, `E` holds; and
if it ends at a stale handle, then some live node has a value that points at a freed node.
Nothing is said of a computation that is too long.

All of this is asked only where no slot has been freed so often that handles come back. To
know this of the stores in between, a computation has to be a sequence of operations on
slots in any case, so this part has no condition.

* `Ensures` — the assertion;
* `Ensures.bind`, `Ensures.weaken`, `Ensures.seq`, `Ensures.start` — general rules;
* `Ensures.change`, `Ensures.bind_lift`, `Ensures.fail` — steps of the engine;
* `Ensures.always`, `Ensures.nested`, `Ensures.forM`, `Ensures.mapM` — compound steps.
-/

namespace TreeScript.Engine

open Store

variable {α β : Type}

/-- The node store at the end of a computation, however it ends. -/
def after (x : Engine α) (σ : Session) : Store :=
  match x σ with
  | .ok _ σ' => σ'.nodes
  | .error _ σ' => σ'.nodes

/-- Catching a failure leaves the store that the computation has left. -/
theorem after_attempt (x : Engine α) (σ : Session) : (attempt x).after σ = x.after σ := by
  unfold after attempt
  cases x σ with
  | ok a σ' => rfl
  | error e σ' => cases e <;> rfl

/-- At the limit of depth the failure is all that happens, and otherwise the body is run one level
deeper. -/
theorem after_nested (settings : Settings) (h : Handle) (x : Engine α) (σ : Session) :
    (nested settings h x).after σ =
      if settings.maxDepth ≤ σ.depth then
        (Engine.fail h (.depthExceeded settings.maxDepth) : Engine α).after σ
      else x.after { σ with depth := σ.depth + 1 } := by
  unfold after
  rw [nested_apply]
  by_cases hdeep : settings.maxDepth ≤ σ.depth
  · rw [if_pos hdeep, if_pos hdeep]
  · rw [if_neg hdeep, if_neg hdeep]
    cases x { σ with depth := σ.depth + 1 } with
    | ok a τ => rfl
    | error e τ => cases e <;> rfl

/-- What holds at the end of a computation, according to how it ends. -/
def Ended (Q : α → Store → Prop) (E : Store → Prop) : EStateM.Result Halt Session α → Prop
  | .ok a σ => Q a σ.nodes
  | .error (.failure _) σ => E σ.nodes
  | .error (.fault .stale) σ => σ.nodes.Dangles
  | .error (.fault .endless) _ => True

/-- A computation that begins with `P` ends with `Q`, or fails with `E`. -/
structure Ensures (P : Store → Prop) (x : Engine α) (Q : α → Store → Prop) (E : Store → Prop) :
    Prop where
  evolves (σ : Session) : Evolves σ.nodes (x.after σ)
  ended (σ : Session) : Unwrapped (x.after σ) → P σ.nodes → Ended Q E (x σ)

namespace Ensures

variable {P P' : Store → Prop} {Q Q' : α → Store → Prop} {R : β → Store → Prop}
  {E E' : Store → Prop}

-- ---------------------------------------------------------------------------
-- General rules
-- ---------------------------------------------------------------------------

theorem weaken {x : Engine α} (hx : Ensures P x Q E)
    (hP : ∀ t, Unwrapped t → P' t → P t) (hQ : ∀ a t, Unwrapped t → Q a t → Q' a t)
    (hE : ∀ t, Unwrapped t → E t → E' t) : Ensures P' x Q' E' := by
  refine ⟨hx.evolves, fun σ hu hσ => ?_⟩
  have hended := hx.ended σ hu (hP _ ((hx.evolves σ).unwrapped hu) hσ)
  unfold after at hu
  cases hr : x σ with
  | ok a σ' =>
    rw [hr] at hended hu
    exact hQ a _ hu hended
  | error e σ' =>
    rw [hr] at hended hu
    cases e with
    | failure f => exact hE _ hu hended
    | fault f => cases f <;> exact hended

/-- What an assertion says where a computation gives a result. -/
theorem gives {x : Engine α} (hx : Ensures P x Q E) {σ τ : Session} {a : α}
    (hrun : x σ = .ok a τ) (hu : Unwrapped τ.nodes) (hσ : P σ.nodes) : Q a τ.nodes := by
  have hended := hx.ended σ (by rwa [after, hrun]) hσ
  rwa [hrun] at hended

theorem evolves_of_ok {x : Engine α} (hx : Ensures P x Q E) {σ τ : Session} {a : α}
    (hrun : x σ = .ok a τ) : Evolves σ.nodes τ.nodes := by
  have hevolves := hx.evolves σ
  rwa [after, hrun] at hevolves

theorem before {x : Engine α} {I : Store → Prop} (hx : Ensures P x Q E)
    (hP : ∀ t, Unwrapped t → I t → P t) : Ensures I x Q E :=
  hx.weaken hP (fun _ _ _ h => h) fun _ _ h => h

/-- One computation after another. What the second begins with is known as long as the slots do not
wear out until the very end. -/
theorem bind {x : Engine α} {f : α → Engine β} (hx : Ensures P x Q E)
    (hf : ∀ a, Ensures (Q a) (f a) R E) : Ensures P (x >>= f) R E := by
  have hrun := bind_apply x f
  -- the store after the first step evolves into the one after both
  have hafter : ∀ σ, Evolves (x.after σ) ((x >>= f).after σ) := by
    intro σ
    unfold after
    rw [hrun]
    cases x σ with
    | ok a σ' => exact (hf a).evolves σ'
    | error e σ' => exact .refl _
  refine ⟨fun σ => (hx.evolves σ).trans (hafter σ), fun σ hu hσ => ?_⟩
  have hended := hx.ended σ ((hafter σ).unwrapped hu) hσ
  unfold after at hu
  rw [hrun] at hu ⊢
  -- a failure ends the run, so it has to be one that the second step may end with
  cases hr : x σ with
  | ok a σ' =>
    rw [hr] at hended hu
    exact (hf a).ended σ' hu hended
  | error e σ' =>
    rw [hr] at hended
    cases e with
    | failure f => exact hended
    | fault f => cases f <;> exact hended

theorem pure (a : α) : Ensures (Q a) (Pure.pure a) Q E :=
  ⟨fun _ => .refl _, fun _ _ h => h⟩

theorem skip (a : α) : Ensures P (Pure.pure a) (fun _ => P) E := pure (Q := fun _ => P) a

/-- What does not depend on the store stays true. -/
theorem frame {x : Engine α} (φ : Prop) (hx : Ensures P x Q E) :
    Ensures (fun t => φ ∧ P t) x (fun a t => φ ∧ Q a t) fun t => φ ∧ E t := by
  refine ⟨hx.evolves, fun σ hu hσ => ?_⟩
  have hended := hx.ended σ hu hσ.2
  cases hr : x σ with
  | ok a σ' =>
    rw [hr] at hended
    exact ⟨hσ.1, hended⟩
  | error e σ' =>
    rw [hr] at hended
    cases e with
    | failure f => exact ⟨hσ.1, hended⟩
    | fault f => cases f <;> exact hended

/-- A step in a sequence, with what does not depend on the store. -/
theorem seq {x : Engine α} {f : α → Engine β} (φ : Prop) (hx : Ensures P x Q E)
    (hP : ∀ t, Unwrapped t → P' t → φ ∧ P t) (hf : ∀ a, Ensures (fun t => φ ∧ Q a t) (f a) R E) :
    Ensures P' (x >>= f) R E :=
  ((hx.frame φ).weaken hP (fun _ _ _ ht => ht) fun _ _ ht => ht.2).bind hf

/-- The store in the beginning has a name. -/
theorem start {x : Engine α} (hx : ∀ m, Ensures (fun t => t = m ∧ P t) x Q E) :
    Ensures P x Q E :=
  ⟨fun σ => (hx σ.nodes).evolves σ, fun σ hu hσ => (hx σ.nodes).ended σ hu ⟨rfl, hσ⟩⟩

/-- What does not depend on the store may be assumed. -/
theorem assume {x : Engine α} (φ : Prop) (hev : ∀ σ, Evolves σ.nodes (x.after σ))
    (hx : φ → Ensures P x Q E) : Ensures (fun t => φ ∧ P t) x Q E :=
  ⟨hev, fun σ hu hσ => (hx hσ.1).ended σ hu hσ.2⟩

theorem ite {c : Prop} [Decidable c] {x y : Engine α} (hx : c → Ensures P x Q E)
    (hy : ¬ c → Ensures P y Q E) : Ensures P (if c then x else y) Q E := by
  split
  next hc => exact hx hc
  next hc => exact hy hc

-- ---------------------------------------------------------------------------
-- Single steps
-- ---------------------------------------------------------------------------

/-- An edit of the store. If it meets a stale handle, then something in the store must dangle. -/
theorem change {f : Store → Except Fault (α × Store)}
    (hev : ∀ {t a t'}, f t = .ok (a, t') → Evolves t t')
    (hok : ∀ {t a t'}, Unwrapped t' → P t → f t = .ok (a, t') → Q a t')
    (hstale : ∀ {t}, Unwrapped t → P t → f t = .error .stale → t.Dangles) :
    Ensures P (Engine.change f) Q E := by
  refine ⟨fun σ => ?_, fun σ hu hσ => ?_⟩
  · unfold after Engine.change
    cases hf : f σ.nodes with
    | ok r => exact hev hf
    | error e => exact .refl _
  · unfold after at hu
    unfold Engine.change at hu ⊢
    cases hf : f σ.nodes with
    | ok r =>
      rw [hf] at hu
      exact hok hu hσ hf
    | error e =>
      rw [hf] at hu
      cases e with
      | stale => exact hstale hu hσ hf
      | endless => trivial

/-- An edit of the store without a result. -/
theorem edit {f : Store → Except Fault Store} {Q : Unit → Store → Prop}
    (hev : ∀ {t t'}, f t = .ok t' → Evolves t t')
    (hok : ∀ {t t'}, Unwrapped t' → P t → f t = .ok t' → Q () t')
    (hstale : ∀ {t}, Unwrapped t → P t → f t = .error .stale → t.Dangles) :
    Ensures P (Engine.edit f) Q E := by
  have hinv : ∀ {t a t'}, (f t).map (fun s => ((), s)) = .ok (a, t') → f t = .ok t' := by
    intro t a t' hf
    cases hft : f t with
    | ok t₁ =>
      obtain ⟨-, rfl⟩ := Prod.mk.inj (Except.ok.inj (hft ▸ hf : Except.ok ((), t₁) = .ok (a, t')))
      rfl
    | error e => simp [hft, Except.map] at hf
  refine change (fun hf => hev (hinv hf)) (fun hu hP hf => hok hu hP (hinv hf)) fun hu hP hf => ?_
  refine hstale hu hP ?_
  rename_i t
  cases hft : f t with
  | ok t₁ => simp [hft, Except.map] at hf
  | error e => simpa [hft, Except.map] using hf

/-- An edit that always succeeds. -/
theorem edit_ok {f : Store → Store} {Q : Unit → Store → Prop} (hev : ∀ t, Evolves t (f t))
    (hok : ∀ {t}, Unwrapped (f t) → P t → Q () (f t)) :
    Ensures P (Engine.edit fun s => .ok (f s)) Q E := by
  refine edit (fun hf => ?_) (fun hu hP hf => ?_) fun _ _ hf => by simp at hf
  · obtain rfl := Except.ok.inj hf
    exact hev _
  · obtain rfl := Except.ok.inj hf
    exact hok hu hP

/-- What follows may use that the store it is given is the present one. -/
theorem bind_nodes {k : Store → Engine α} (hk : ∀ s, Ensures (fun t => t = s ∧ P t) (k s) Q E) :
    Ensures P (Engine.nodes >>= k) Q E :=
  ⟨fun σ => (hk σ.nodes).evolves σ, fun σ hu hσ => (hk σ.nodes).ended σ hu ⟨rfl, hσ⟩⟩

theorem bind_get {k : Session → Engine α} (hk : ∀ σ, Ensures P (k σ) Q E) :
    Ensures P (get >>= k) Q E :=
  ⟨fun σ => (hk σ).evolves σ, fun σ hu hσ => (hk σ).ended σ hu hσ⟩

/-- A step that leaves the node store alone. -/
theorem aside {g : Session → Session} (hg : ∀ σ, (g σ).nodes = σ.nodes) :
    Ensures P (modify g : Engine PUnit) (fun _ => P) E := by
  have hafter : ∀ σ, (modify g : Engine PUnit).after σ = σ.nodes := hg
  refine ⟨fun σ => by rw [hafter], fun σ _ hσ => ?_⟩
  show P (g σ).nodes
  rwa [hg]

/-- Looking something up in the store. -/
theorem bind_lift {r : Except Halt β} {k : β → Engine α} {R : Store → β → Prop}
    (hr : ∀ t, Unwrapped t → P t → Ends r (R t) (Halt.Excused t.Dangles))
    (hE : ∀ t, Unwrapped t → P t → E t)
    (hk : ∀ b, r = .ok b → Ensures (fun t => P t ∧ R t b) (k b) Q E) :
    Ensures P (liftM r >>= k) Q E := by
  cases r with
  | ok b =>
    have hb := hk b rfl
    exact hb.before fun t hu ht => ⟨ht, hr t hu ht⟩
  -- a question that has no answer fails in the store as it is
  | error e =>
    have hrun : ∀ σ, (liftM (Except.error e : Except Halt β) >>= k : Engine α) σ = .error e σ :=
      fun _ => rfl
    refine ⟨fun σ => ?_, fun σ hu hσ => ?_⟩
    · rw [after, hrun]
    · rw [after, hrun] at hu
      rw [hrun]
      have hexcused := hr σ.nodes hu hσ
      cases e with
      | failure f => exact hE _ hu hσ
      | fault f =>
        cases f with
        | stale => exact hexcused
        | endless => trivial

/-- What follows a look at the store is given what has been found there. -/
theorem bind_liftFault {r : Except Fault β} {k : β → Engine α} {R : Store → β → Prop}
    (hr : ∀ t, Unwrapped t → P t → Ends r (R t) (Fault.Excused t.Dangles))
    (hk : ∀ b, r = .ok b → Ensures (fun t => P t ∧ R t b) (k b) Q E) :
    Ensures P (liftM r >>= k) Q E := by
  cases r with
  | ok b =>
    have hb := hk b rfl
    exact hb.before fun t hu ht => ⟨ht, hr t hu ht⟩
  | error e =>
    have hrun : ∀ σ, (liftM (Except.error e : Except Fault β) >>= k : Engine α) σ =
        .error (.fault e) σ := fun _ => rfl
    refine ⟨fun σ => ?_, fun σ hu hσ => ?_⟩
    · rw [after, hrun]
    · rw [after, hrun] at hu
      rw [hrun]
      have hexcused := hr σ.nodes hu hσ
      cases e with
      | stale => exact hexcused
      | endless => trivial

/-- Looking something up as the last step. -/
theorem lookup {r : Except Fault α}
    (hr : ∀ t, Unwrapped t → P t → Ends r (fun _ => True) (Fault.Excused t.Dangles)) :
    Ensures P (liftM r : Engine α) (fun _ => P) E := by
  have hlift : (liftM r : Engine α) = liftM r >>= Pure.pure := by cases r <;> rfl
  rw [hlift]
  exact bind_liftFault hr fun a _ => (skip a).before fun _ _ ht => ht.1

/-- A failure of which the store is known. -/
theorem throw_failure (f : Failure) (hE : ∀ t, Unwrapped t → P t → E t) :
    Ensures P (throw (.failure f) : Engine α) Q E :=
  ⟨fun _ => .refl _, fun _ hu hσ => hE _ hu hσ⟩

/-- Nothing is said about a computation that does not end. -/
theorem throw_endless : Ensures P (throw (.fault .endless) : Engine α) Q E :=
  ⟨fun _ => .refl _, fun _ _ _ => trivial⟩

/-- A failure about a node. -/
theorem fail (h : Handle) (f : NodeContext → Failure)
    (hE : ∀ t, Unwrapped t → P t → LiveChildren t ∧ E t) :
    Ensures P (Engine.fail h f : Engine α) Q E := by
  refine bind_nodes fun s => ?_
  have hlift : ∀ r : Except Halt α, (liftM r : Engine α) = liftM r >>= Pure.pure := by
    intro r
    cases r <;> rfl
  show Ensures _ (liftM (s.fail h f)) _ _
  rw [hlift]
  refine bind_lift (R := fun _ _ => False) ?_ (fun t hu ht => (hE t hu ht.2).2)
    fun b _ => (pure b).before fun t _ ht => ht.2.elim
  rintro t hu ⟨rfl, ht⟩
  exact ends_fail (hE t hu ht).1 h f

/-- What follows the test whether a node is alive, each way. -/
theorem bind_isAlive {h : Handle} {k : Bool → Engine α}
    (hyes : Ensures (fun t => P t ∧ t.isAlive h = true) (k true) Q E)
    (hno : Ensures (fun t => P t ∧ t.isAlive h = false) (k false) Q E) :
    Ensures P (Engine.isAlive h >>= k) Q E := by
  have hrun : ∀ σ, (Engine.isAlive h >>= k) σ = k (σ.nodes.isAlive h) σ := fun _ => rfl
  refine ⟨fun σ => ?_, fun σ hu hσ => ?_⟩
  · rw [after, hrun]
    cases σ.nodes.isAlive h with
    | true => exact hyes.evolves σ
    | false => exact hno.evolves σ
  · rw [after, hrun] at hu
    rw [hrun]
    cases hh : σ.nodes.isAlive h with
    | true =>
      rw [hh] at hu
      exact hyes.ended σ hu ⟨hσ, hh⟩
    | false =>
      rw [hh] at hu
      exact hno.ended σ hu ⟨hσ, hh⟩

-- ---------------------------------------------------------------------------
-- Compound steps
-- ---------------------------------------------------------------------------

theorem attempt {x : Engine α} (hx : Ensures P x Q E) :
    Ensures P (Engine.attempt x) (fun r t => Ends r (fun a => Q a t) fun _ => E t) E' := by
  refine ⟨fun σ => by rw [after_attempt]; exact hx.evolves σ, fun σ hu hσ => ?_⟩
  rw [after_attempt] at hu
  have hended := hx.ended σ hu hσ
  unfold Engine.attempt
  cases hr : x σ with
  | ok a σ' =>
    rw [hr] at hended
    exact hended
  | error e σ' =>
    rw [hr] at hended
    cases e with
    | failure f => exact hended
    | fault f => cases f <;> exact hended

theorem always {x : Engine α} {last : Engine Unit} (hx : Ensures P x Q E)
    (hok : ∀ a, Ensures (Q a) last (fun _ => Q' a) E')
    (hfail : Ensures E last (fun _ => E') E') : Ensures P (Engine.always x last) Q' E' := by
  refine hx.attempt.bind fun outcome => ?_
  cases outcome with
  | ok a => exact (hok a).bind fun _ => pure a
  | error f => exact hfail.bind fun _ => throw_failure f fun _ _ h => h

/-- One level deeper. The failure at the limit tells where it happened, for which the children have
to be alive. -/
theorem nested {settings : Settings} {h : Handle} {body : Engine α} (hbody : Ensures P body Q E)
    (hE : ∀ t, Unwrapped t → P t → LiveChildren t ∧ E t) :
    Ensures P (Engine.nested settings h body) Q E := by
  refine bind_get fun σ => ite (fun _ => fail h _ hE) fun _ => ?_
  refine bind (Q := fun _ => P) (aside ?_) fun _ => ?_
  · exact fun _ => rfl
  · exact hbody.always (fun a => aside fun _ => rfl) (aside fun _ => rfl)

/-- One computation for each member of a list, with an invariant about those that are left. -/
theorem forM {f : α → Engine Unit} {I : List α → Store → Prop}
    (hf : ∀ a rest, Ensures (I (a :: rest)) (f a) (fun _ => I rest) E) (as : List α) :
    Ensures (I as) (as.forM f) (fun _ => I []) E := by
  induction as with
  | nil => exact pure (Q := fun _ => I []) PUnit.unit
  | cons a rest ih =>
    show Ensures _ (f a >>= fun _ => rest.forM f) _ _
    exact (hf a rest).bind fun _ => ih

/-- A step for each member of a list, with the results so far. -/
theorem mapM {f : α → Engine β} {I : List β → Store → Prop} {as : List α}
    (hf : ∀ a ∈ as, ∀ done, Ensures (I done) (f a) (fun b => I (done ++ [b])) E) (done : List β) :
    Ensures (I done) (as.mapM f) (fun bs => I (done ++ bs)) E := by
  induction as generalizing done with
  | nil =>
    rw [List.mapM_nil]
    exact (pure []).before fun t _ ht => by simpa using ht
  | cons a rest ih =>
    obtain ⟨ha, hrest⟩ := List.forall_mem_cons.1 hf
    rw [List.mapM_cons]
    refine (ha done).bind fun b => (ih hrest (done ++ [b])).bind fun bs => ?_
    exact (pure (b :: bs)).before fun t _ ht => by simpa using ht

end Ensures

end TreeScript.Engine
