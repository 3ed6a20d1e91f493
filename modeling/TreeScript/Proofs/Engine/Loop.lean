import TreeScript.Engine.Loop
import TreeScript.Proofs.Engine.Held

/-!
# TreeScript — the statement loop keeps a store in order

If all that a scope dispatches keeps the store in order, so does the statement loop. It
goes from live node to live node inside the fence, whatever the nodes do to each other.

* `executeOne_apply`, `loop_succ_of_ok`, `executeAll_apply` — the steps of the loop;
* `executeAll_preserves` — what every handler keeps;
* `Scope.Keeps` — the assumption about a scope;
* `Surroundings.advance_cases`, `present_advance` — where the loop goes on is there and
  inside;
* `ensures_loop`, `ensures_executeAll` — the loop.
-/

namespace TreeScript

open Store Engine

-- ---------------------------------------------------------------------------
-- One step
-- ---------------------------------------------------------------------------

section Step

variable {scope : Scope} {block h : Handle} {marker : Option Handle} {σ σ' : Session}

/-- A node of a known name is passed over or dispatched. -/
theorem executeOne_apply {name : String} (hname : σ.nodes.name h = .ok name) :
    executeOne scope marker h σ =
      if some h ≠ marker ∧ isExecutable name = true then scope.dispatch name h σ else .ok () σ := by
  have hread : (liftM (σ.nodes.name h) : Engine String) σ = .ok name σ := by
    rw [hname]
    rfl
  by_cases hmarker : some h = marker
  · rw [executeOne, if_neg (not_not_intro hmarker), if_neg fun hboth => hboth.1 hmarker]
    rfl
  · rw [executeOne, if_pos hmarker, nodes_bind_apply, bind_of_ok hread]
    by_cases hexec : isExecutable name = true
    · rw [if_pos hexec, if_pos ⟨hmarker, hexec⟩]
    · rw [if_neg hexec, if_neg fun hboth => hexec hboth.2]
      rfl

/-- After a node the loop ends at a signal, or goes on with the next node. -/
theorem loop_succ_of_ok {fuel : Nat} {c : Control}
    (hone : executeOne scope marker h σ = .ok () σ') (hc : σ'.nodes.pending block = .ok c) :
    loop scope block marker (fuel + 1) (some h) σ =
      if c.isActive = true then .ok c σ'
      else loop scope block marker fuel
        ((Surroundings.ofNode σ.nodes h).advance σ'.nodes h) σ' := by
  have hread : (liftM (σ'.nodes.pending block) : Engine Control) σ' = .ok c σ' := by
    rw [hc]
    rfl
  rw [loop, nodes_bind_apply, bind_of_ok hone, nodes_bind_apply, bind_of_ok hread]
  split
  next => rfl
  next => rfl

theorem loop_succ_of_error {fuel : Nat} {e : Halt}
    (hone : executeOne scope marker h σ = .error e σ') :
    loop scope block marker (fuel + 1) (some h) σ = .error e σ' := by
  rw [loop, nodes_bind_apply, bind_apply, hone]

/-- Executing a block is its loop from where the marker says. -/
theorem executeAll_apply (hmarker : σ.nodes.childNamed? block markerName = .ok marker) :
    executeAll scope block σ =
      match startPosition scope.settings σ.nodes block marker with
      | .ok (some start) =>
        loop scope block marker scope.fuel (σ.nodes.child? block start) σ
      | .ok none => .ok .none σ
      | .error e => .error e σ := by
  have hread : (liftM (σ.nodes.childNamed? block markerName) : Engine (Option Handle)) σ =
      .ok marker σ := by
    rw [hmarker]
    rfl
  rw [executeAll, nodes_bind_apply, bind_of_ok hread, bind_apply]
  cases startPosition scope.settings σ.nodes block marker with
  | ok start => cases start <;> rfl
  | error e => rfl

/-- Executing a node keeps what every dispatch keeps. -/
theorem executeOne_preserves {I : Session → Prop} {τ : Session}
    (hI : ∀ {name x σ τ}, I σ → scope.dispatch name x σ = .ok () τ → I τ) (hσ : I σ)
    (hrun : executeOne scope marker h σ = .ok () τ) : I τ := by
  rw [executeOne] at hrun
  split at hrun
  next =>
    rw [nodes_bind_apply] at hrun
    obtain ⟨name, σ₁, hlift, hrun⟩ := bind_eq_ok hrun
    obtain ⟨-, rfl⟩ := lift_eq_ok hlift
    split at hrun
    next => exact hI hσ hrun
    next =>
      injection hrun with _ hτ
      exact hτ ▸ hσ
  next =>
    injection hrun with _ hτ
    exact hτ ▸ hσ

/-- What every handler keeps, a loop that gives a result has kept. -/
theorem loop_preserves {I : Session → Prop} {τ : Session} {c : Control} {fuel : Nat}
    {current : Option Handle}
    (hI : ∀ {name x σ τ}, I σ → scope.dispatch name x σ = .ok () τ → I τ) (hσ : I σ)
    (hrun : loop scope block marker fuel current σ = .ok c τ) : I τ := by
  induction fuel generalizing current σ with
  | zero =>
    cases current with
    | none =>
      injection hrun with _ hτ
      exact hτ ▸ hσ
    | some x => exact absurd hrun throw_ne_ok
  | succ fuel ih =>
    cases current with
    | none =>
      injection hrun with _ hτ
      exact hτ ▸ hσ
    | some x =>
      rw [loop, nodes_bind_apply] at hrun
      obtain ⟨⟨⟩, σ₁, hone, hrun⟩ := bind_eq_ok hrun
      -- the statement keeps the invariant, then the signal is read and changes nothing
      have hσ₁ := executeOne_preserves hI hσ hone
      rw [nodes_bind_apply] at hrun
      obtain ⟨c₁, σ₂, hlift, hrun⟩ := bind_eq_ok hrun
      obtain ⟨-, rfl⟩ := lift_eq_ok hlift
      split at hrun
      next =>
        injection hrun with _ hτ
        exact hτ ▸ hσ₁
      next => exact ih hσ₁ hrun

/-- Executing a block keeps what every dispatch keeps. -/
theorem executeAll_preserves {I : Session → Prop} {τ : Session} {c : Control}
    (hI : ∀ {name x σ τ}, I σ → scope.dispatch name x σ = .ok () τ → I τ) (hσ : I σ)
    (hrun : executeAll scope block σ = .ok c τ) : I τ := by
  rw [executeAll, nodes_bind_apply] at hrun
  obtain ⟨marker, σ₁, hlift, hrun⟩ := bind_eq_ok hrun
  obtain ⟨-, rfl⟩ := lift_eq_ok hlift
  obtain ⟨start, σ₂, hlift, hrun⟩ := bind_eq_ok hrun
  obtain ⟨-, rfl⟩ := lift_halt_eq_ok hlift
  cases start with
  | none =>
    injection hrun with _ hτ
    exact hτ ▸ hσ
  | some start => exact loop_preserves hI hσ hrun

end Step

/-- Whatever a scope executes keeps the store in order. -/
def Scope.Keeps (F : Fence) (b : Store) (scope : Scope) : Prop :=
  ∀ (s : Store) (T : Set Handle) (name : String) (h : Handle),
    Ensures (fun t => Held F b s T t ∧ F.Present t h) (scope.dispatch name h)
      (fun _ => Held F b s T) (Held F b s T)

variable {F : Fence} {b s : Store} {T : Set Handle} {scope : Scope}

-- ---------------------------------------------------------------------------
-- The statement loop
-- ---------------------------------------------------------------------------

theorem ensures_executeOne (hscope : scope.Keeps F b) (marker : Option Handle) (h : Handle) :
    Ensures (fun t => Held F b s T t ∧ F.Present t h) (executeOne scope marker h)
      (fun _ => Held F b s T) (Held F b s T) := by
  refine Ensures.ite (fun _ => ?_) fun _ => (Ensures.pure _).before fun _ _ ht => ht.1
  refine Ensures.bind_nodes fun m => ?_
  refine Ensures.bind_liftFault (R := fun _ _ => True) ?_ fun name _ => ?_
  · rintro t - ⟨rfl, -, hh⟩
    exact (ends_name hh.1).mono (fun _ _ => trivial) fun _ he => he
  · refine Ensures.ite (fun _ => ?_) fun _ => (Ensures.pure _).before fun _ _ ht => ht.1.2.1
    exact (hscope s T name h).before fun _ _ ht => ht.1.2

/-- Where a loop goes on: at the next sibling of a node that has a parent; at the one that
followed, if that has a parent; or at another child of that parent. -/
theorem Surroundings.advance_cases {x : Surroundings} {t : Store} {h next : Handle}
    (hnext : x.advance t h = some next) :
    (t.parent? h).isSome = true ∧ t.nextSibling? h = some next ∨
      x.following = some next ∧ (t.parent? next).isSome = true ∨
      ∃ f p, x.following = some f ∧ t.parent? f = some p ∧ next ∈ t.childList p := by
  unfold advance at hnext
  simp only at hnext
  split at hnext
  -- a node that is still there is followed by its sibling
  next hparent =>
    rcases Option.or_eq_some_iff.1 hnext with hsibling | ⟨-, hf⟩
    · exact Or.inl ⟨hparent, hsibling⟩
    · exact Or.inr (Or.inl (Option.filter_eq_some_iff.1 hf))
  next =>
    split at hnext
    next => simp at hnext
    -- one that is gone: the search starts from the node that followed it
    next f hf =>
      obtain ⟨hfollow, hparent⟩ := Option.filter_eq_some_iff.1 hf
      split at hnext
      next => exact Or.inr (Or.inl (Option.some.inj hnext ▸ ⟨hfollow, hparent⟩))
      -- and goes back as far as the node that was in front
      next p hp =>
        split at hnext
        next =>
          obtain rfl := Option.some.inj hnext
          unfold firstAfter
          simp only
          cases hlast : (List.takeWhile (fun y => some y != x.previous)
              (List.takeWhile (· != f) (t.childList p)).reverse).getLast? with
          | none => exact Or.inr (Or.inl ⟨hfollow, hparent⟩)
          | some y =>
            have hmem := List.mem_of_getLast? hlast
            have hfront := List.mem_reverse.1 ((List.takeWhile_sublist _).subset hmem)
            exact Or.inr (Or.inr ⟨f, p, hfollow, hp, (List.takeWhile_sublist _).subset hfront⟩)
        next => exact Or.inr (Or.inl (Option.some.inj hnext ▸ ⟨hfollow, hparent⟩))

/-- The node to go on with is there and inside. -/
theorem present_advance {t m : Store} (ht : Held F b s T t) {h next : Handle} (hh : F.Inside h)
    (hfollow : ∀ f, (Surroundings.ofNode m h).following = some f → F.Inside f)
    (hnext : (Surroundings.ofNode m h).advance t h = some next) : F.Present t next := by
  rcases Surroundings.advance_cases hnext with ⟨-, hsibling⟩ | ⟨hf, hparent⟩ | ⟨f, p, hf, hp, hmem⟩
  · exact ⟨ht.live.handsOutLive.nextSibling hsibling, ht.fenced.nextSibling? hh hsibling⟩
  · -- a node with a parent is there
    refine ⟨?_, hfollow next hf⟩
    cases hn : t.node? next with
    | none => simp [parent?, hn] at hparent
    | some n => exact isAlive_iff.2 ⟨n, hn⟩
  · exact ⟨ht.live.of_mem_childList hmem,
      ht.fenced.childList (ht.fenced.parent? (hfollow f hf) hp) hmem⟩

/-- The loop goes from present node to present node. -/
theorem ensures_loop (hscope : scope.Keeps F b) (block : Handle) (marker : Option Handle)
    (fuel : Nat) (current : Option Handle) :
    Ensures (fun t => Held F b s T t ∧ ∀ h, current = some h → F.Present t h)
      (loop scope block marker fuel current) (fun _ => Held F b s T) (Held F b s T) := by
  induction fuel generalizing current with
  | zero =>
    cases current with
    | none => exact (Ensures.pure _).before fun _ _ ht => ht.1
    | some h => exact Ensures.throw_endless
  | succ fuel ih =>
    cases current with
    | none => exact (Ensures.pure _).before fun _ _ ht => ht.1
    | some h =>
      refine Ensures.bind_nodes fun m => ?_
      refine Ensures.seq
        (F.Inside h ∧ ∀ f, (Surroundings.ofNode m h).following = some f → F.Inside f)
        (ensures_executeOne (s := s) (T := T) hscope marker h) ?_ fun _ => ?_
      -- the following node is inside the fence too, since both have one parent
      · rintro t - ⟨rfl, ht, hcurrent⟩
        have hh := hcurrent h rfl
        exact ⟨⟨hh.2, fun f hf => ht.fenced.nextSibling? hh.2 hf⟩, ht, hh⟩
      -- a pending signal ends the loop, otherwise it goes on at the next statement
      · refine Ensures.bind_nodes fun m' => ?_
        refine Ensures.bind_liftFault (R := fun _ _ => True) ?_ fun c _ => ?_
        · rintro t - ⟨rfl, -, ht⟩
          exact ends_pending ht.live block
        · refine Ensures.ite (fun _ => (Ensures.pure _).before fun _ _ ht => ht.1.2.2) fun _ => ?_
          refine (ih _).before ?_
          rintro t - ⟨⟨rfl, ⟨hh, hfollow⟩, ht⟩, -⟩
          exact ⟨ht, fun next hnext => present_advance ht hh hfollow hnext⟩

/-- Where to start is found unless the marker's own value points at a freed node. -/
theorem ends_startPosition {t : Store} (ht : Coherent t) (settings : Settings) {block : Handle}
    (hblock : t.isAlive block = true) {marker : Option Handle}
    (hmarker : ∀ m, marker = some m → t.isAlive m = true) {reason : Prop}
    (hreason : ∀ m n g, marker = some m → t.node? m = some n →
      n.value.bind Value.target? = some g → t.isAlive g = false → reason) :
    Ends (startPosition settings t block marker) (fun _ => True) (Halt.Excused reason) := by
  unfold startPosition
  split
  next => trivial
  next m =>
    -- the marker is alive, so only its value may be read from a node that is gone
    refine (ht.ends_singleValue (hmarker m rfl) fun n g => hreason m n g rfl).bind fun v _ => ?_
    split
    next => trivial
    next v =>
      split
      next => exact ends_fail ht.live m _
      next offset _ =>
        refine (ends_childCount hblock).ofFault.bind fun count _ => ?_
        split
        next => exact ends_fail ht.live m _
        next =>
          split
          next => trivial
          next =>
            split
            next => exact ends_fail ht.live block _
            next => trivial

/-- In a disciplined store that means that a value dangles. -/
theorem Store.Disciplined.ends_startPosition {t : Store} (hd : Disciplined t)
    (settings : Settings) {block : Handle} (hblock : t.isAlive block = true)
    {marker : Option Handle} (hmarker : ∀ m, marker = some m → t.isAlive m = true) :
    Ends (startPosition settings t block marker) (fun _ => True) (Halt.Excused t.Dangles) := by
  refine TreeScript.ends_startPosition hd.coherent settings hblock hmarker ?_
  intro m n g _ hn hg hdead
  exact ⟨m, n, g, hn, hg, hdead⟩

/-- Executing the children of a block. -/
theorem ensures_executeAll (hscope : scope.Keeps F b) (block : Handle) :
    Ensures (fun t => Held F b s T t ∧ F.Present t block) (executeAll scope block)
      (fun _ => Held F b s T) (Held F b s T) := by
  refine Ensures.bind_nodes fun m => ?_
  refine Ensures.bind_liftFault (R := fun t marker => ∀ x, marker = some x → t.isAlive x = true)
    ?_ fun marker _ => ?_
  · rintro t - ⟨rfl, ht, -⟩
    exact ends_childNamed? ht.live block markerName
  · refine Ensures.bind_lift (R := fun _ _ => True) ?_ (fun _ _ ht => ht.1.2.1) fun start _ => ?_
    · rintro t - ⟨⟨rfl, ht, hblock⟩, hmarker⟩
      exact ht.disciplined.ends_startPosition _ hblock.1 hmarker
    · cases start with
      | none => exact (Ensures.pure _).before fun _ _ ht => ht.1.1.2.1
      | some start =>
        refine (ensures_loop hscope block marker scope.fuel (m.child? block start)).before ?_
        rintro t - ⟨⟨⟨rfl, ht, hblock⟩, -⟩, -⟩
        exact ⟨ht, fun h hh =>
          ⟨ht.live.handsOutLive.child hh, ht.fenced.child? hblock.2.1 hh⟩⟩

end TreeScript
