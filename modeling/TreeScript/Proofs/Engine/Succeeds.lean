import TreeScript.Proofs.Engine.Held

/-!
# TreeScript — computations that give a result

`Ensures` says nothing of a computation that ends at a stale handle or is too long. On the
way out of a block nothing of the kind can happen. `Succeeds i P x Q` says of a family of
computations, one for each way to dispatch, that where `P` holds before all of them give
the same result in the same session, and `Q` holds of it. So none of them has dispatched
anything that would tell the ways apart. That no slot has been freed too often is known of
the end of one of them, `x i`.

* `Succeeds` — the assertion;
* `Succeeds.bind`, `Succeeds.before`, `Succeeds.weaken` — general rules;
* `Succeeds.edit`, `Succeeds.append`, `Succeeds.bind_lift` — steps of the engine;
* `Succeeds.always`, `Succeeds.forM` — compound steps.
-/

namespace TreeScript.Engine

open Store

variable {α β ι : Type}

/-- All computations of a family that begin with `P` give one result, and end with `Q`. -/
structure Succeeds (i : ι) (P : Store → Prop) (x : ι → Engine α) (Q : α → Store → Prop) :
    Prop where
  evolves (σ : Session) : Evolves σ.nodes ((x i).after σ)
  ended (σ : Session) : Unwrapped ((x i).after σ) → P σ.nodes →
    ∃ a σ', (∀ j, x j σ = .ok a σ') ∧ Q a σ'.nodes

/-- What is done first in a sequence comes before the end. -/
theorem evolves_after_bind {x : Engine α} {f : α → Engine β}
    (hf : ∀ a σ, Evolves σ.nodes ((f a).after σ)) (σ : Session) :
    Evolves (x.after σ) ((x >>= f).after σ) := by
  unfold after
  rw [bind_apply]
  cases x σ with
  | ok a σ' => exact hf a σ'
  | error e σ' => exact .refl _

theorem evolves_after_always {x : Engine α} {last : Engine Unit}
    (hlast : ∀ σ, Evolves σ.nodes (last.after σ)) (σ : Session) :
    Evolves (x.after σ) ((Engine.always x last).after σ) := by
  have hattempt : (attempt x).after σ = x.after σ := by
    unfold after attempt
    cases x σ with
    | ok a σ' => rfl
    | error e σ' => cases e <;> rfl
  rw [← hattempt]
  refine evolves_after_bind (fun outcome σ => (hlast σ).trans ?_) σ
  refine evolves_after_bind (fun _ σ => ?_) σ
  cases outcome <;> exact .refl _

namespace Succeeds

variable {i : ι} {P P' : Store → Prop} {Q Q' : α → Store → Prop} {R : β → Store → Prop}

-- ---------------------------------------------------------------------------
-- General rules
-- ---------------------------------------------------------------------------

theorem weaken {x : ι → Engine α} (hx : Succeeds i P x Q) (hP : ∀ t, Unwrapped t → P' t → P t)
    (hQ : ∀ a t, Unwrapped t → Q a t → Q' a t) : Succeeds i P' x Q' := by
  refine ⟨hx.evolves, fun σ hu hσ => ?_⟩
  obtain ⟨a, σ', hrun, hQa⟩ := hx.ended σ hu (hP _ ((hx.evolves σ).unwrapped hu) hσ)
  rw [after, hrun i] at hu
  exact ⟨a, σ', hrun, hQ a _ hu hQa⟩

theorem before {x : ι → Engine α} (hx : Succeeds i P x Q) (hP : ∀ t, Unwrapped t → P' t → P t) :
    Succeeds i P' x Q := hx.weaken hP fun _ _ _ h => h

theorem pure (a : α) : Succeeds i (Q a) (fun _ => Pure.pure a) Q :=
  ⟨fun _ => .refl _, fun σ _ h => ⟨a, σ, fun _ => rfl, h⟩⟩

theorem skip (a : α) : Succeeds i P (fun _ => Pure.pure a) fun _ => P := pure (Q := fun _ => P) a

theorem bind {x : ι → Engine α} {f : α → ι → Engine β} (hx : Succeeds i P x Q)
    (hf : ∀ a, Succeeds i (Q a) (f a) R) : Succeeds i P (fun j => x j >>= fun a => f a j) R := by
  have hafter := fun σ => evolves_after_bind (x := x i) (f := fun a => f a i)
    (fun a => (hf a).evolves) σ
  refine ⟨fun σ => (hx.evolves σ).trans (hafter σ), fun σ hu hσ => ?_⟩
  obtain ⟨a, σ', hrun, hQ⟩ := hx.ended σ ((hafter σ).unwrapped hu) hσ
  have hlast : ∀ j, (x j >>= fun a => f a j) σ = f a j σ' := fun j => bind_of_ok (hrun j)
  rw [after, hlast] at hu
  obtain ⟨b, σ'', hrun', hR⟩ := (hf a).ended σ' hu hQ
  exact ⟨b, σ'', fun j => (hlast j).trans (hrun' j), hR⟩

theorem ite {c : Prop} [Decidable c] {x y : ι → Engine α} (hx : c → Succeeds i P x Q)
    (hy : ¬ c → Succeeds i P y Q) : Succeeds i P (fun j => if c then x j else y j) Q := by
  split
  next hc => simpa [hc] using hx hc
  next hc => simpa [hc] using hy hc

/-- What cannot happen may do anything. -/
theorem absurd {x : ι → Engine α} (hx : ∀ σ, Evolves σ.nodes ((x i).after σ))
    (hP : ∀ t, Unwrapped t → ¬ P t) : Succeeds i P x Q :=
  ⟨hx, fun σ hu hσ => (hP _ ((hx σ).unwrapped hu) hσ).elim⟩

-- ---------------------------------------------------------------------------
-- Single steps
-- ---------------------------------------------------------------------------

theorem edit {f : Store → Except Fault Store} {Q : Unit → Store → Prop}
    (hev : ∀ {t t'}, f t = .ok t' → Evolves t t')
    (hok : ∀ {t}, P t → (∀ t', f t = .ok t' → Unwrapped t') → ∃ t', f t = .ok t' ∧ Q () t') :
    Succeeds i P (fun _ => Engine.edit f) Q := by
  have hrun : ∀ {σ : Session} {t'}, f σ.nodes = .ok t' →
      Engine.edit f σ = .ok () { σ with nodes := t' } := by
    intro σ t' hf
    simp [Engine.edit, Engine.change, hf, Except.map]
  refine ⟨fun σ => ?_, fun σ hu hσ => ?_⟩
  · unfold after
    cases hf : f σ.nodes with
    | ok t' =>
      rw [hrun hf]
      exact hev hf
    | error e =>
      simp only [Engine.edit, Engine.change, hf, Except.map]
      exact .refl _
  · obtain ⟨t', hf, hQ⟩ := hok hσ fun t' hf => by rwa [after, hrun hf] at hu
    exact ⟨(), _, fun _ => hrun hf, hQ⟩

/-- What follows may use that the store it is given is the present one. -/
theorem bind_nodes {k : Store → ι → Engine α}
    (hk : ∀ s, Succeeds i (fun t => t = s ∧ P t) (k s) Q) :
    Succeeds i P (fun j => Engine.nodes >>= fun s => k s j) Q :=
  ⟨fun σ => (hk σ.nodes).evolves σ, fun σ hu hσ => (hk σ.nodes).ended σ hu ⟨rfl, hσ⟩⟩

/-- Looking something up in the store, which is there. -/
theorem bind_lift {r : Except Fault β} {k : β → ι → Engine α} {R : Store → β → Prop}
    (hr : ∀ t, P t → ∃ b, r = .ok b ∧ R t b)
    (hk : ∀ b, r = .ok b → Succeeds i (fun t => P t ∧ R t b) (k b) Q) :
    Succeeds i P (fun j => liftM r >>= fun b => k b j) Q := by
  cases r with
  | ok b =>
    refine (hk b rfl).before fun t _ ht => ?_
    obtain ⟨b', heq, hR⟩ := hr t ht
    obtain rfl := Except.ok.inj heq
    exact ⟨ht, hR⟩
  | error e =>
    refine absurd (fun σ => ?_) fun t _ ht => ?_
    · show Evolves σ.nodes σ.nodes
      exact .refl _
    · obtain ⟨b, heq, -⟩ := hr t ht
      simp at heq

/-- A step that leaves the node store alone. -/
theorem aside {g : Session → Session} (hg : ∀ σ, (g σ).nodes = σ.nodes) :
    Succeeds i P (fun _ => (modify g : Engine PUnit)) (fun _ => P) := by
  refine ⟨fun σ => ?_, fun σ _ hσ => ⟨(), g σ, fun _ => rfl, by rwa [hg]⟩⟩
  show Evolves σ.nodes (g σ).nodes
  rw [hg]

/-- What follows the test whether a node is alive, each way. -/
theorem bind_isAlive {h : Handle} {k : Bool → ι → Engine α}
    (hyes : Succeeds i (fun t => P t ∧ t.isAlive h = true) (k true) Q)
    (hno : Succeeds i (fun t => P t ∧ t.isAlive h = false) (k false) Q) :
    Succeeds i P (fun j => Engine.isAlive h >>= fun b => k b j) Q := by
  have hrun : ∀ j σ, (Engine.isAlive h >>= fun b => k b j) σ = k (σ.nodes.isAlive h) j σ :=
    fun _ _ => rfl
  refine ⟨fun σ => ?_, fun σ hu hσ => ?_⟩
  · rw [after, hrun]
    cases σ.nodes.isAlive h with
    | true => exact hyes.evolves σ
    | false => exact hno.evolves σ
  · rw [after, hrun] at hu
    simp only [hrun]
    cases hh : σ.nodes.isAlive h with
    | true =>
      rw [hh] at hu
      exact hyes.ended σ hu ⟨hσ, hh⟩
    | false =>
      rw [hh] at hu
      exact hno.ended σ hu ⟨hσ, hh⟩

theorem remove {h : Handle} {Q : Unit → Store → Prop}
    (hQ : ∀ {t}, P t → Unwrapped (t.remove h) → Q () (t.remove h)) :
    Succeeds i P (fun _ => Engine.remove h) Q :=
  edit (fun hf => Except.ok.inj hf ▸ .remove _ h) fun ht hu => ⟨_, rfl, hQ ht (hu _ rfl)⟩

/-- A node is moved below another that it does not lead to. -/
theorem append {p c : Handle} {Q : Unit → Store → Prop}
    (hP : ∀ {t}, P t → Disciplined t ∧ t.isAlive p = true ∧ t.isAlive c = true ∧ ¬ t.Reaches c p)
    (hQ : ∀ {t t' n}, P t → t.moveBelow p n c = .ok t' → Unwrapped t' → Q () t') :
    Succeeds i P (fun _ => Engine.append p c) Q := by
  have hensures := ensures_append (P := P) (E := fun _ => True) (p := p) (c := c) (Q := Q)
    (fun _ ht => hP ht) fun hu ht hok => hQ ht hok hu
  refine ⟨hensures.evolves, fun σ hu hσ => ?_⟩
  obtain ⟨hd, hp, hc, hback⟩ := hP hσ
  obtain ⟨n, hn⟩ := isAlive_iff.1 hp
  obtain ⟨t', hok⟩ := moveBelow_isOk hp hc n.children.length
  have hcycle : ¬ σ.nodes.wouldCycle p c = true := fun hcycle =>
    hback (reaches_of_up hd.linked (hd.linked.wouldCycle_iff.1 hcycle))
  have hrun := append_apply hn (Bool.eq_false_iff.2 hcycle) hok
  have hended := hensures.ended σ hu hσ
  rw [hrun] at hended
  exact ⟨(), _, fun _ => hrun, hended⟩

-- ---------------------------------------------------------------------------
-- Compound steps
-- ---------------------------------------------------------------------------

/-- What is done in any case is done after a result. -/
theorem always {x last : ι → Engine Unit} {M : Store → Prop} {Q : Unit → Store → Prop}
    (hx : Succeeds i P x fun _ => M) (hlast : Succeeds i M last Q) :
    Succeeds i P (fun j => Engine.always (x j) (last j)) Q := by
  have hafter := fun σ => evolves_after_always (x := x i) hlast.evolves σ
  refine ⟨fun σ => (hx.evolves σ).trans (hafter σ), fun σ hu hσ => ?_⟩
  obtain ⟨⟨⟩, σ', hrun, hQ⟩ := hx.ended σ ((hafter σ).unwrapped hu) hσ
  have hrest : ∀ j, Engine.always (x j) (last j) σ = last j σ' := fun j => always_of_ok (hrun j)
  rw [after, hrest] at hu
  obtain ⟨⟨⟩, σ'', hrun', hQ'⟩ := hlast.ended σ' hu hQ
  exact ⟨(), σ'', fun j => (hrest j).trans (hrun' j), hQ'⟩

/-- One computation for each member of a list, with an invariant about those that are left. -/
theorem forM {f : β → Engine Unit} {I : List β → Store → Prop}
    (hf : ∀ b rest, Succeeds i (I (b :: rest)) (fun _ => f b) fun _ => I rest) (bs : List β) :
    Succeeds i (I bs) (fun _ => bs.forM f) fun _ => I [] := by
  induction bs with
  | nil => exact pure (Q := fun _ => I []) PUnit.unit
  | cons b rest ih => exact (hf b rest).bind fun _ => ih

end Succeeds

end TreeScript.Engine
