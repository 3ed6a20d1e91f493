import TreeScript.Engine.Session

/-!
# TreeScript — runs of computations

What a sequence does from where its first part has come to, and what is done in any case.

* `bind_apply`, `bind_of_ok`, `bind_eq_ok` — sequences;
* `always_congr`, `always_of_ok`, `always_of_failure`, `always_eq_ok` — what is done in any case;
* `nested_apply` — a block execution, one level deeper;
* `insert_eq`, `append_eq` — moves, as they are gone through;
* `nested_eq_ok`, `change_eq_ok`, `edit_eq_ok`, `append_apply` — steps that give a result;
* `fail_bind` — failures.
-/

namespace TreeScript.Engine

variable {α β : Type}

/-- The run of a sequence. -/
theorem bind_apply (x : Engine α) (f : α → Engine β) (σ : Session) :
    (x >>= f) σ = match x σ with
      | .ok a σ' => f a σ'
      | .error e σ' => .error e σ' := by
  show EStateM.bind x f σ = _
  unfold EStateM.bind
  cases x σ <;> rfl

theorem get_bind_apply (k : Session → Engine α) (σ : Session) : (get >>= k) σ = k σ σ := rfl

theorem nodes_bind_apply (k : Store → Engine α) (σ : Session) :
    (Engine.nodes >>= k) σ = k σ.nodes σ := rfl

theorem isAlive_apply (h : Handle) (σ : Session) :
    Engine.isAlive h σ = .ok (σ.nodes.isAlive h) σ := rfl

theorem isAlive_bind_apply (h : Handle) (k : Bool → Engine α) (σ : Session) :
    (Engine.isAlive h >>= k) σ = k (σ.nodes.isAlive h) σ := rfl

theorem modify_bind_apply (f : Session → Session) (k : Unit → Engine α) (σ : Session) :
    (modify f >>= k) σ = k () (f σ) := rfl

/-- A move, with its two outcomes told apart: a node that would stand above itself, and any other. -/
theorem insert_eq (p : Handle) (i : Nat) (c : Handle) : Engine.insert p i c = (do
    if (← Engine.nodes).wouldCycle p c then
      let s ← Engine.nodes
      let child ← s.describe c
      let parent ← s.describe p
      throw (.failure (.cyclicInsertion child parent))
    else Engine.edit fun s => s.moveBelow p i c) := by
  funext σ
  rw [Engine.insert, nodes_bind_apply, nodes_bind_apply, Store.insert]
  cases σ.nodes.wouldCycle p c with
  -- a refusal describes both nodes first, the child before the parent
  | true =>
    simp only [if_true]
    rw [nodes_bind_apply, Store.refusal]
    cases σ.nodes.describe c with
    | error e => rfl
    | ok child =>
      cases σ.nodes.describe p with
      | error e => rfl
      | ok parent => rfl
  | false =>
    simp only [Bool.false_eq_true, if_false, Engine.edit, Engine.change]
    cases σ.nodes.moveBelow p i c with
    | error e => rfl
    | ok s => rfl

/-- Appending is moving behind the last child. -/
theorem append_eq (p c : Handle) : Engine.append p c = (do
    let count ← (← Engine.nodes).childCount p
    Engine.insert p count c) := by
  funext σ
  rw [Engine.append, nodes_bind_apply, nodes_bind_apply, Store.append]
  cases σ.nodes.childCount p with
  | error e => rfl
  | ok count => rfl

theorem throw_ne_ok {e : Halt} {σ τ : Session} {a : α} : (throw e : Engine α) σ ≠ .ok a τ := nofun

/-- The second computation goes on in the session that the first has left. -/
theorem bind_of_ok {x : Engine α} {f : α → Engine β} {σ σ' : Session} {a : α}
    (hx : x σ = .ok a σ') : (x >>= f) σ = f a σ' := by rw [bind_apply, hx]

/-- Where a sequence has come to, its first part has come before. -/
theorem bind_eq_ok {x : Engine α} {f : α → Engine β} {σ τ : Session} {b : β}
    (h : (x >>= f) σ = .ok b τ) : ∃ a σ', x σ = .ok a σ' ∧ f a σ' = .ok b τ := by
  rw [bind_apply] at h
  cases hx : x σ with
  | ok a σ' =>
    rw [hx] at h
    exact ⟨a, σ', rfl, h⟩
  | error e σ' => simp [hx] at h

/-- If the whole halts, one of its two parts has halted. -/
theorem bind_eq_error {x : Engine α} {f : α → Engine β} {σ τ : Session} {e : Halt}
    (h : (x >>= f) σ = .error e τ) :
    x σ = .error e τ ∨ ∃ a σ', x σ = .ok a σ' ∧ f a σ' = .error e τ := by
  rw [bind_apply] at h
  cases hx : x σ with
  | ok a σ' =>
    rw [hx] at h
    exact Or.inr ⟨a, σ', rfl, h⟩
  | error e' σ' =>
    rw [hx] at h
    injection h with he hτ
    exact Or.inl (by rw [he, hτ])

/-- Looking something up in the store leaves the session as it is. -/
theorem lift_eq_ok {r : Except Fault α} {σ τ : Session} {a : α}
    (h : (liftM r : Engine α) σ = .ok a τ) : r = .ok a ∧ σ = τ := by
  cases r with
  | ok a' =>
    injection h with ha hσ
    exact ⟨by rw [ha], hσ⟩
  | error e => exact absurd h throw_ne_ok

theorem lift_halt_eq_ok {r : Except Halt α} {σ τ : Session} {a : α}
    (h : (liftM r : Engine α) σ = .ok a τ) : r = .ok a ∧ σ = τ := by
  cases r with
  | ok a' =>
    injection h with ha hσ
    exact ⟨by rw [ha], hσ⟩
  | error e => exact absurd h throw_ne_ok

/-- Sequences that begin with equal runs. -/
theorem bind_congr_run {x y : Engine α} {σ τ : Session} (hxy : x σ = y τ) (f : α → Engine β) :
    (x >>= f) σ = (y >>= f) τ := by rw [bind_apply, bind_apply, hxy]

/-- What is caught depends on the run only. -/
theorem attempt_congr {x y : Engine α} {σ τ : Session} (hxy : x σ = y τ) :
    attempt x σ = attempt y τ := by
  unfold attempt
  rw [hxy]

/-- Only the run counts for what is done in any case afterwards. -/
theorem always_congr {x y : Engine α} {σ τ : Session} (hxy : x σ = y τ) (last : Engine Unit) :
    always x last σ = always y last τ := bind_congr_run (attempt_congr hxy) _

/-- After a result the rest is what is done in any case. -/
theorem always_of_ok {x last : Engine Unit} {σ σ' : Session} (hx : x σ = .ok () σ') :
    always x last σ = last σ' := by
  have hattempt : attempt x σ = .ok (.ok ()) σ' := by rw [attempt, hx]
  rw [always, bind_of_ok hattempt]
  exact congrFun (bind_pure last) σ'

/-- After a failure the rest is what is done in any case, and the failure. -/
theorem always_of_failure {x : Engine α} {last : Engine Unit} {σ σ' τ : Session} {f : Failure}
    (hx : x σ = .error (.failure f) σ') (hlast : last σ' = .ok () τ) :
    always x last σ = .error (.failure f) τ := by
  have hattempt : attempt x σ = .ok (.error f) σ' := by rw [attempt, hx]
  rw [always, bind_of_ok hattempt, bind_of_ok hlast]
  rfl

/-- A computation of which there is an outcome has given a result or failed. -/
theorem attempt_eq_ok {x : Engine α} {σ τ : Session} {o : Except Failure α}
    (h : attempt x σ = .ok o τ) : (∃ a, x σ = .ok a τ ∧ o = .ok a) ∨
      ∃ f, x σ = .error (.failure f) τ ∧ o = .error f := by
  unfold attempt at h
  cases hx : x σ with
  | ok a σ' =>
    rw [hx] at h
    injection h with ho hτ
    exact Or.inl ⟨a, by rw [hτ], ho.symm⟩
  | error e σ' =>
    rw [hx] at h
    cases e with
    | failure f =>
      injection h with ho hτ
      exact Or.inr ⟨f, by rw [hτ], ho.symm⟩
    | fault f => simp at h

/-- The outcome of a sequence is that of the second part, unless the first has failed. -/
theorem attempt_bind_eq_ok {x : Engine α} {f : α → Engine β} {σ τ : Session} {o : Except Failure β}
    (h : attempt (x >>= f) σ = .ok o τ) :
    (∃ a σ', x σ = .ok a σ' ∧ attempt (f a) σ' = .ok o τ) ∨
      ∃ e, x σ = .error (.failure e) τ ∧ o = .error e := by
  rcases attempt_eq_ok h with ⟨b, hrun, rfl⟩ | ⟨e, hrun, rfl⟩
  · obtain ⟨a, σ', hx, hf⟩ := bind_eq_ok hrun
    exact Or.inl ⟨a, σ', hx, by rw [attempt, hf]⟩
  · rcases bind_eq_error hrun with hx | ⟨a, σ', hx, hf⟩
    · exact Or.inr ⟨e, hx, rfl⟩
    · exact Or.inl ⟨a, σ', hx, by rw [attempt, hf]⟩

/-- Where failures are caught there are none. -/
theorem attempt_ne_failure (x : Engine α) {σ τ : Session} {f : Failure} :
    attempt x σ ≠ .error (.failure f) τ := by
  unfold attempt
  cases x σ with
  | ok a σ' => simp
  | error e σ' => cases e <;> simp

/-- Where a computation gives a result and something is done in any case, both have succeeded. -/
theorem always_eq_ok {x : Engine α} {last : Engine Unit} {σ τ : Session} {a : α}
    (h : always x last σ = .ok a τ) : ∃ σ', x σ = .ok a σ' ∧ last σ' = .ok () τ := by
  obtain ⟨outcome, σ₁, hx, h⟩ := bind_eq_ok h
  obtain ⟨⟨⟩, σ₂, hlast, hend⟩ := bind_eq_ok h
  rcases attempt_eq_ok hx with ⟨b, hrun, rfl⟩ | ⟨f, -, rfl⟩
  · have hpure : (EStateM.Result.ok b σ₂ : EStateM.Result Halt Session α) = .ok a τ := hend
    injection hpure with hb hτ
    subst hb hτ
    exact ⟨_, hrun, hlast⟩
  · exact absurd hend throw_ne_ok

/-- The outcome of a computation does not depend on what is done in any case, if that does not
fail. -/
theorem attempt_always_eq_ok {x : Engine α} (last : Engine Unit) {σ τ : Session}
    {o : Except Failure α} (hlast : ∀ σ₁ f τ₁, last σ₁ ≠ .error (.failure f) τ₁)
    (h : attempt (always x last) σ = .ok o τ) :
    ∃ σ', attempt x σ = .ok o σ' ∧ last σ' = .ok () τ := by
  rcases attempt_eq_ok h with ⟨a, hrun, rfl⟩ | ⟨f, hrun, rfl⟩
  · obtain ⟨σ', hx, hend⟩ := always_eq_ok hrun
    exact ⟨σ', by rw [attempt, hx], hend⟩
  · rcases bind_eq_error hrun with hx | ⟨outcome, σ', hx, hrun⟩
    · exact absurd hx (attempt_ne_failure x)
    · rcases bind_eq_error hrun with hend | ⟨⟨⟩, τ', hend, hrun⟩
      · exact absurd hend (hlast _ _ _)
      · cases outcome with
        | ok a => exact absurd hrun nofun
        | error f' =>
          injection hrun with he hτ
          injection he with hf
          subst hf hτ
          exact ⟨σ', hx, hend⟩

/-- Where a computation begun one level deeper returns, the depth is one less. -/
def oneUp : EStateM.Result Halt Session α → EStateM.Result Halt Session α
  | .ok a σ => .ok a { σ with depth := σ.depth - 1 }
  | .error (.failure f) σ => .error (.failure f) { σ with depth := σ.depth - 1 }
  | .error (.fault f) σ => .error (.fault f) σ

/-- The run of a block execution. -/
theorem nested_apply (settings : Settings) (h : Handle) (x : Engine α) (σ : Session) :
    nested settings h x σ =
      if settings.maxDepth ≤ σ.depth then Engine.fail h (.depthExceeded settings.maxDepth) σ
      else oneUp (x { σ with depth := σ.depth + 1 }) := by
  rw [nested, get_bind_apply]
  split
  next => rfl
  next =>
    rw [modify_bind_apply, always, bind_apply]
    unfold attempt
    cases x { σ with depth := σ.depth + 1 } with
    | ok a τ => rfl
    | error e τ => cases e <;> rfl

/-- A block execution one level deeper that gives a result. -/
theorem nested_eq_ok {settings : Settings} {h : Handle} {x : Engine α} {σ τ : Session} {a : α}
    (hx : nested settings h x σ = .ok a τ) : ∃ σ', x { σ with depth := σ.depth + 1 } = .ok a σ' ∧
      τ = { σ' with depth := σ'.depth - 1 } := by
  rw [nested, get_bind_apply] at hx
  split at hx
  next =>
    obtain ⟨s₁, σ₁, -, hfail⟩ := bind_eq_ok (x := Engine.nodes) hx
    obtain ⟨hok, -⟩ := lift_halt_eq_ok hfail
    unfold Store.fail at hok
    cases hc : s₁.describe h <;> simp [hc] at hok
  next =>
    rw [modify_bind_apply] at hx
    obtain ⟨σ', hrun, hlast⟩ := always_eq_ok hx
    injection hlast with _ hτ
    exact ⟨σ', hrun, hτ.symm⟩

/-- A change of the store that gives a result. -/
theorem change_eq_ok {f : Store → Except Fault (α × Store)} {σ τ : Session} {a : α}
    (h : Engine.change f σ = .ok a τ) :
    ∃ s, f σ.nodes = .ok (a, s) ∧ τ = { σ with nodes := s } := by
  unfold Engine.change at h
  cases hf : f σ.nodes with
  | ok r =>
    rw [hf] at h
    injection h with ha hτ
    exact ⟨r.2, by rw [← ha], hτ.symm⟩
  | error e => simp [hf] at h

/-- An edit changes the nodes and nothing else. -/
theorem edit_eq_ok {f : Store → Except Fault Store} {σ τ : Session}
    (h : Engine.edit f σ = .ok () τ) : ∃ s, f σ.nodes = .ok s ∧ τ = { σ with nodes := s } := by
  obtain ⟨s, hs, hτ⟩ := change_eq_ok h
  cases hf : f σ.nodes with
  | ok s' =>
    rw [hf] at hs
    obtain ⟨-, rfl⟩ := Prod.mk.inj (Except.ok.inj hs)
    exact ⟨_, rfl, hτ⟩
  | error e => simp [hf, Except.map] at hs

/-- A node is moved below another that it does not stand above. -/
theorem append_apply {p c : Handle} {n : Node} {t : Store} {σ : Session}
    (hn : σ.nodes.node? p = some n) (hcycle : σ.nodes.wouldCycle p c = false)
    (hok : σ.nodes.moveBelow p n.children.length c = .ok t) :
    Engine.append p c σ = .ok () { σ with nodes := t } := by
  have hcount : σ.nodes.childCount p = .ok n.children.length := by
    simp [Store.childCount, Store.node, hn, Except.map]
  rw [append_eq, nodes_bind_apply, hcount]
  show Engine.insert p n.children.length c σ = _
  rw [insert_eq, nodes_bind_apply, if_neg (by simp [hcycle])]
  simp [Engine.edit, Engine.change, hok, Except.map]

/-- Nothing follows a failure. -/
theorem fail_bind (h : Handle) (f : NodeContext → Failure) (k : α → Engine β) :
    Engine.fail h f >>= k = Engine.fail h f := by
  funext σ
  have hrun : ∀ {γ : Type}, (Engine.fail h f : Engine γ) σ =
      (liftM (σ.nodes.fail h f) : Engine γ) σ := rfl
  rw [bind_apply, hrun, hrun]
  unfold Store.fail
  cases σ.nodes.describe h <;> rfl

end TreeScript.Engine
