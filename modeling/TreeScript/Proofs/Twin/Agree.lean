import TreeScript.Proofs.Engine.Steady
import TreeScript.Proofs.Twin.Path

/-!
# TreeScript — two runs side by side

Two computations agree at a pairing if, begun in sessions that say the same, they come to the
same, as far as both come to an end: to results that say the same, or to the same failure, and
to sessions that say the same. Pairs are added on the way, for nodes that are made on both
sides.

* `Session.Alike` — sessions that say the same;
* `Agree` — the assertion about two computations;
* `Agree.bind`, `Agree.bind_nodes`, `Agree.bind_lift`, `Agree.always`, `Agree.nested`,
  `Agree.mapM` — its rules;
* `agree_create`, `agree_insert` and so on — one lemma for each edit.
-/

namespace TreeScript

open Store Paired

/-- Sessions that differ at most in their node stores and in the lines noted down. -/
structure Session.SameContext (σ τ : Session) : Prop where
  widgets : τ.widgets = σ.widgets
  disk : τ.disk = σ.disk
  ticket : τ.ticket = σ.ticket
  depth : τ.depth = σ.depth

/-- Sessions that say the same. -/
structure Session.Alike (ρ : Pairing) (σ τ : Session) : Prop extends SameContext σ τ where
  nodes : Store.Alike ρ σ.nodes τ.nodes

namespace Engine

variable {α β : Type}

-- ---------------------------------------------------------------------------
-- The assertion
-- ---------------------------------------------------------------------------

variable [Paired α] [Paired β] {ρ : Pairing}

/-- Two ends of computations that have come to the same, as far as both have come to an end. -/
inductive Agreed (ρ : Pairing) :
    EStateM.Result Halt Session α → EStateM.Result Halt Session α → Prop
  | left (σ : Session) (r : EStateM.Result Halt Session α) :
      Agreed ρ (.error (.fault .endless) σ) r
  | right (r : EStateM.Result Halt Session α) (τ : Session) :
      Agreed ρ r (.error (.fault .endless) τ)
  | ok {ρ' : Pairing} {a b : α} {σ τ : Session} : ρ ≤ ρ' → Matches ρ' a b →
      Session.Alike ρ' σ τ → Agreed ρ (.ok a σ) (.ok b τ)
  | error {ρ' : Pairing} {σ τ : Session} (e : Halt) : ρ ≤ ρ' → Session.Alike ρ' σ τ →
      Agreed ρ (.error e σ) (.error e τ)

/-- Ends that have come to the same from a larger pairing have from a smaller one. -/
theorem Agreed.weaken {ρ₀ : Pairing} (hle : ρ₀ ≤ ρ) {x y : EStateM.Result Halt Session α}
    (h : Agreed ρ x y) : Agreed ρ₀ x y := by
  cases h with
  | left => exact .left _ _
  | right => exact .right _ _
  | ok hle' hab hστ => exact .ok (hle.trans hle') hab hστ
  | error e hle' hστ => exact .error e (hle.trans hle') hστ

/-- Two computations that come to the same in two sessions, if these say the same. -/
def AgreeAt (ρ : Pairing) (σ τ : Session) (x y : Engine α) : Prop := Session.Alike ρ σ τ →
  Unwrapped (x.after σ) → Unwrapped (y.after τ) → Agreed ρ (x σ) (y τ)

/-- Two computations that come to the same in all sessions that say the same. -/
def Agree (ρ : Pairing) (x y : Engine α) : Prop := ∀ σ τ, AgreeAt ρ σ τ x y

/-- The rule for sequences, where it matters how the first part has ended. -/
theorem AgreeAt.bind {x y : Engine α} {f g : α → Engine β} {σ τ : Session}
    (h : AgreeAt ρ σ τ x y) (hf : ∀ a, Steady (f a)) (hg : ∀ b, Steady (g b))
    (hfg : ∀ ρ', ρ ≤ ρ' → ∀ a b σ' τ', Matches ρ' a b → x σ = .ok a σ' → y τ = .ok b τ' →
      Unwrapped σ'.nodes → Unwrapped τ'.nodes → AgreeAt ρ' σ' τ' (f a) (g b)) :
    AgreeAt ρ σ τ (x >>= f) (y >>= g) := by
  intro hστ hu hu'
  unfold after at hu hu'
  rw [bind_apply] at hu hu' ⊢
  rw [bind_apply]
  -- what the first steps leave is bounded, since what follows only evolves it
  have hends : Unwrapped (x.after σ) := by
    unfold after
    cases hx : x σ with
    | ok a σ₁ =>
      rw [hx] at hu
      exact ((hf a).evolves σ₁).unwrapped hu
    | error e σ₁ => rwa [hx] at hu
  have hends' : Unwrapped (y.after τ) := by
    unfold after
    cases hy : y τ with
    | ok b τ₁ =>
      rw [hy] at hu'
      exact ((hg b).evolves τ₁).unwrapped hu'
    | error e τ₁ => rwa [hy] at hu'
  have hagreed := h hστ hends hends'
  unfold after at hends hends'
  generalize x σ = r, y τ = r' at hu hu' hagreed hends hends' hfg
  -- the second steps start from a larger pairing, which the whole run ends with
  cases hagreed with
  | left σ₁ r => exact .left _ _
  | right r τ₁ => exact .right _ _
  | error e hle hστ₁ => exact .error e hle hστ₁
  | ok hle hab hστ₁ =>
    exact (hfg _ hle _ _ _ _ hab rfl rfl hends hends' hστ₁ hu hu').weaken hle

namespace Agree

-- ---------------------------------------------------------------------------
-- General rules
-- ---------------------------------------------------------------------------

/-- Results that say the same, with nothing done. -/
theorem pure {a b : α} (hab : Matches ρ a b) : Agree ρ (Pure.pure a) (Pure.pure b) := by
  intro σ τ hστ _ _
  exact .ok (le_refl ρ) hab hστ

theorem done : Agree ρ (Pure.pure () : Engine Unit) (Pure.pure ()) := .pure rfl

theorem throw_same (e : Halt) : Agree ρ (throw e : Engine α) (throw e) := by
  intro σ τ hστ _ _
  exact .error e (le_refl ρ) hστ

/-- A run that does not end agrees with every other. -/
theorem throw_left (y : Engine α) : Agree ρ (throw (.fault .endless)) y := by
  intro σ τ _ _ _
  exact .left σ (y τ)

/-- Every run agrees with one that does not end. -/
theorem throw_right (x : Engine α) : Agree ρ x (throw (.fault .endless)) := by
  intro σ τ _ _ _
  exact .right (x σ) τ

/-- The rule for sequences, where what follows may be found to be steady case by case. -/
theorem bind_of_steady {x y : Engine α} {f g : α → Engine β} (h : Agree ρ x y)
    (hf : ∀ a, Steady (f a)) (hg : ∀ b, Steady (g b))
    (hfg : ∀ ρ', ρ ≤ ρ' → ∀ a b, Matches ρ' a b → Agree ρ' (f a) (g b)) :
    Agree ρ (x >>= f) (y >>= g) := by
  intro σ τ
  refine (h σ τ).bind hf hg fun ρ' hle a b σ' τ' hab _ _ _ _ => ?_
  exact hfg ρ' hle a b hab σ' τ'

theorem bind {x y : Engine α} {f g : α → Engine β} [hf : ∀ a, Steady (f a)]
    [hg : ∀ b, Steady (g b)] (h : Agree ρ x y)
    (hfg : ∀ ρ', ρ ≤ ρ' → ∀ a b, Matches ρ' a b → Agree ρ' (f a) (g b)) :
    Agree ρ (x >>= f) (y >>= g) := h.bind_of_steady hf hg hfg

/-- Sessions say the same only where no handle stands for two. -/
theorem oneToOne {x y : Engine α} (h : ρ.OneToOne → Agree ρ x y) : Agree ρ x y := by
  intro σ τ hστ
  exact h hστ.nodes.oneToOne σ τ hστ

/-- What follows does not look at what has been given. -/
theorem seq {x y : Engine α} {f g : Engine β} [Steady f] [Steady g] (h : Agree ρ x y)
    (hfg : ∀ ρ', ρ ≤ ρ' → Agree ρ' f g) : Agree ρ (x >>= fun _ => f) (y >>= fun _ => g) :=
  h.bind fun ρ' hle _ _ _ => hfg ρ' hle

theorem ite {c : Prop} [Decidable c] {x y x' y' : Engine α} (hx : c → Agree ρ x x')
    (hy : ¬ c → Agree ρ y y') : Agree ρ (if c then x else y) (if c then x' else y') := by
  split
  next hc => exact hx hc
  next hc => exact hy hc

-- ---------------------------------------------------------------------------
-- Single steps
-- ---------------------------------------------------------------------------

/-- What follows may use that the sessions it is given say the same. -/
theorem bind_get {k l : Session → Engine α}
    (hkl : ∀ σ τ, Session.Alike ρ σ τ → Agree ρ (k σ) (l τ)) :
    Agree ρ (get >>= k) (get >>= l) := by
  intro σ τ hστ
  exact hkl σ τ hστ σ τ hστ

/-- What follows may use that the stores it is given say the same. -/
theorem bind_nodes {k l : Store → Engine α}
    (hkl : ∀ s t, Store.Alike ρ s t → Agree ρ (k s) (l t)) :
    Agree ρ (Engine.nodes >>= k) (Engine.nodes >>= l) := by
  intro σ τ hστ
  exact hkl σ.nodes τ.nodes hστ.nodes σ τ hστ

theorem bind_lift {r r' : Except Halt β} {k l : β → Engine α} (hr : Concur ρ r r')
    (hkl : ∀ a b, Matches ρ a b → Agree ρ (k a) (l b)) :
    Agree ρ (liftM r >>= k) (liftM r' >>= l) := by
  intro σ τ hστ hu hu'
  cases hr with
  | left r => exact .left _ _
  | right r => exact .right _ _
  | ok hab => exact hkl _ _ hab σ τ hστ hu hu'
  | error e => exact .error e (le_refl ρ) hστ

theorem bind_liftFault {r r' : Except Fault β} {k l : β → Engine α} (hr : Concur ρ r r')
    (hkl : ∀ a b, Matches ρ a b → Agree ρ (k a) (l b)) :
    Agree ρ (liftM r >>= k) (liftM r' >>= l) := bind_lift hr.ofFault hkl

theorem lift {r r' : Except Halt α} (hr : Concur ρ r r') :
    Agree ρ (liftM r : Engine α) (liftM r') := by
  intro σ τ hστ hu hu'
  cases hr with
  | left r => exact .left _ _
  | right r => exact .right _ _
  | ok hab => exact .ok (le_refl ρ) hab hστ
  | error e => exact .error e (le_refl ρ) hστ

/-- A failure tells where its node stands, and nodes that stand for each other are told in the same
way. -/
theorem fail {a b : Handle} (hab : ρ a b) (f : NodeContext → Failure) :
    Agree ρ (Engine.fail a f : Engine α) (Engine.fail b f) := by
  refine bind_nodes fun s t hst => ?_
  exact lift (hst.fail hab f)

/-- What follows a test whether a node is alive. -/
theorem bind_isAlive {a b : Handle} (hab : ρ a b) {k l : Bool → Engine α}
    (hkl : ∀ alive, Agree ρ (k alive) (l alive)) :
    Agree ρ (Engine.isAlive a >>= k) (Engine.isAlive b >>= l) := by
  intro σ τ hστ hu hu'
  have halive := hστ.nodes.isAlive hab
  unfold after at hu hu'
  rw [bind_apply, isAlive_apply] at hu hu' ⊢
  rw [bind_apply, isAlive_apply]
  simp only at hu hu' ⊢
  rw [halive] at hu ⊢
  exact hkl _ σ τ hστ hu hu'

theorem aside {g : Session → Session} (hg : ∀ σ τ, Session.Alike ρ σ τ → Session.Alike ρ (g σ) (g τ)) :
    Agree ρ (modify g : Engine PUnit) (modify g) := by
  intro σ τ hστ _ _
  exact .ok (le_refl ρ) (rfl : () = ()) (hg σ τ hστ)

/-- A change of two stores that say the same. -/
theorem change_at {σ τ : Session} {f g : Store → Except Fault (α × Store)}
    (hfg : Store.Alike ρ σ.nodes τ.nodes → Fits (f σ.nodes) → Fits (g τ.nodes) →
      Stepped ρ (f σ.nodes) (g τ.nodes)) :
    AgreeAt ρ σ τ (Engine.change f) (Engine.change g) := by
  intro hστ hu hu'
  -- what the step leaves is what the run leaves, so it is bounded
  have hfits : Fits (f σ.nodes) := fun x s heq => by
    unfold after Engine.change at hu
    rwa [heq] at hu
  have hfits' : Fits (g τ.nodes) := fun x s heq => by
    unfold after Engine.change at hu'
    rwa [heq] at hu'
  have hstep := hfg hστ.nodes hfits hfits'
  unfold Engine.change
  generalize f σ.nodes = r, g τ.nodes = r' at hstep
  cases hstep with
  | left r => exact .left _ _
  | right r => exact .right _ _
  | error e => exact .error _ (le_refl ρ) hστ
  | ok hle hab hst =>
    exact .ok hle hab ⟨⟨hστ.widgets, hστ.disk, hστ.ticket, hστ.depth⟩, hst⟩

/-- An edit of the store agrees if it takes stores that say the same to ones that do, as long as the
numbers do not run out. -/
theorem change {f g : Store → Except Fault (α × Store)}
    (hfg : ∀ s t, Store.Alike ρ s t → Fits (f s) → Fits (g t) → Stepped ρ (f s) (g t)) :
    Agree ρ (Engine.change f) (Engine.change g) := by
  intro σ τ
  exact change_at (hfg σ.nodes τ.nodes)

-- ---------------------------------------------------------------------------
-- Compound steps
-- ---------------------------------------------------------------------------

/-- A failure caught on one side is caught on the other. -/
theorem attempt {x y : Engine α} (h : Agree ρ x y) :
    Agree ρ (Engine.attempt x) (Engine.attempt y) := by
  intro σ τ hστ hu hu'
  rw [after_attempt] at hu hu'
  have hagreed := h σ τ hστ hu hu'
  unfold Engine.attempt
  generalize x σ = r, y τ = r' at hagreed
  cases hagreed with
  | left => exact .left _ _
  | right => exact .right _ _
  | ok hle hab hστ₁ => exact .ok hle (.ok hab) hστ₁
  | error e hle hστ₁ =>
    cases e with
    | failure f => exact .ok hle (.error f) hστ₁
    | fault f => exact .error _ hle hστ₁

/-- An outcome that says the same, as a computation. -/
theorem ofOutcome {r r' : Except Failure α} (h : Matches ρ r r') :
    Agree ρ (Engine.ofOutcome r) (Engine.ofOutcome r') := by
  cases h with
  | ok hab => exact .pure hab
  | error f => exact .throw_same _

theorem always {x y : Engine α} {last last' : Engine Unit} [Steady last] [Steady last']
    (h : Agree ρ x y) (hlast : ∀ ρ', ρ ≤ ρ' → Agree ρ' last last') :
    Agree ρ (Engine.always x last) (Engine.always y last') := by
  refine h.attempt.bind fun ρ₁ hle r r' hr => ?_
  exact (hlast ρ₁ hle).seq fun ρ₂ hle' => ofOutcome (mono hle' hr)

theorem nested {settings : Settings} {a b : Handle} (hab : ρ a b) {x y : Engine α}
    (h : Agree ρ x y) : Agree ρ (Engine.nested settings a x) (Engine.nested settings b y) := by
  intro σ τ hστ hu hu'
  rw [after_nested] at hu hu'
  rw [nested_apply, nested_apply]
  rw [hστ.depth] at hu' ⊢
  split
  next hdeep =>
    rw [if_pos hdeep] at hu hu'
    exact fail hab _ σ τ hστ hu hu'
  next hdeep =>
    rw [if_neg hdeep] at hu hu'
    -- leaving a level changes nothing but the depth, which is the same on both sides
    have hback : ∀ {ρ' : Pairing} {σ' τ' : Session}, Session.Alike ρ' σ' τ' →
        Session.Alike ρ' { σ' with depth := σ'.depth - 1 } { τ' with depth := τ'.depth - 1 } :=
      fun h' => ⟨⟨h'.widgets, h'.disk, h'.ticket, congrArg (· - 1) h'.depth⟩, h'.nodes⟩
    have hagreed := h { σ with depth := σ.depth + 1 } { τ with depth := σ.depth + 1 }
      ⟨⟨hστ.widgets, hστ.disk, hστ.ticket, rfl⟩, hστ.nodes⟩ hu hu'
    generalize x { σ with depth := σ.depth + 1 } = r, y { τ with depth := σ.depth + 1 } = r'
      at hagreed ⊢
    cases hagreed with
    | left => exact .left _ _
    | right => exact .right _ _
    | ok hle hab hστ₁ => exact .ok hle hab (hback hστ₁)
    | error e hle hστ₁ =>
      cases e with
      | failure f => exact .error _ hle (hback hστ₁)
      | fault f => exact .error _ hle hστ₁

/-- One computation for each member of two lists, the pairing growing from one to the next. -/
theorem forM {xs ys : List α} {f g : α → Engine Unit} [∀ a, Steady (f a)] [∀ b, Steady (g b)]
    (hxs : Matches ρ xs ys) (hfg : ∀ ρ', ρ ≤ ρ' → ∀ a b, Matches ρ' a b → Agree ρ' (f a) (g b)) :
    Agree ρ (xs.forM f) (ys.forM g) := by
  induction xs generalizing ys ρ with
  | nil =>
    cases hxs
    exact done
  | cons a xs ih =>
    cases hxs with
    | cons hab hrest =>
      exact (hfg ρ (le_refl ρ) _ _ hab).seq fun ρ' hle =>
        ih (mono hle hrest) fun ρ'' hle' => hfg ρ'' (hle.trans hle')

theorem mapM {xs ys : List α} {f g : α → Engine β} [∀ a, Steady (f a)] [∀ b, Steady (g b)]
    (hxs : Matches ρ xs ys) (hfg : ∀ ρ', ρ ≤ ρ' → ∀ a b, Matches ρ a b → Agree ρ' (f a) (g b)) :
    Agree ρ (xs.mapM f) (ys.mapM g) := by
  have hall : ∀ ρ', ρ ≤ ρ' → Agree ρ' (xs.mapM f) (ys.mapM g) := by
    induction hxs with
    | nil => exact fun ρ' _ => pure .nil
    | cons hab _ ih =>
      intro ρ₁ hle
      rw [List.mapM_cons, List.mapM_cons]
      refine (hfg ρ₁ hle _ _ hab).bind fun ρ₂ hle₂ c d hcd => ?_
      exact (ih ρ₂ (hle.trans hle₂)).bind fun ρ₃ hle₃ cs ds hcs => pure (.cons (mono hle₃ hcd) hcs)
  exact hall ρ (le_refl ρ)

end Agree

end Engine

end TreeScript
