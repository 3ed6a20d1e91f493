import TreeScript.Proofs.Engine.Loop
import TreeScript.Proofs.Engine.Succeeds
import TreeScript.Proofs.Store.Signal

/-!
# TreeScript — a statement loop and a signal

While a block is executed, its loop comes to one node after the other. A moment of the loop
is all that it knows in front of a node. When that node has been executed and a signal is
raised at the root of the block's tree, the loop ends with the signal; if the block is gone,
the loop ends without one. In neither case does it execute another node.

* `Moment`, `Moment.goOn`, `Moment.run` — a loop in front of a node, and what it does then;
* `loopTo`, `blockTo` — how a loop comes there;
* `loop_eq_run`, `executeAll_eq_run` — the loop from there on;
* `Moment.Placed`, `ensures_blockTo` — the node is a child of the block;
* `Moment.goOn_of_raised`, `Moment.goOn_of_not_isAlive` — a raised signal ends the loop, and so
  does the end of its block.
-/

namespace TreeScript

open Store Engine

/-- A statement loop in front of a node: the block with its marker, the node, how many more
steps the loop may make, and the store. -/
structure Moment where
  block : Handle
  marker : Option Handle
  statement : Handle
  fuel : Nat
  nodes : Store

/-- What the loop does when the node has been executed. -/
def Moment.goOn (scope : Scope) (m : Moment) : Engine Control := do
  let s ← Engine.nodes
  let c ← s.pending m.block
  if c.isActive then return c
  loop scope m.block m.marker m.fuel
    ((Surroundings.ofNode m.nodes m.statement).advance s m.statement)

/-- What the loop does from this moment on. -/
def Moment.run (scope : Scope) (m : Moment) : Engine Control := do
  executeOne scope m.marker m.statement
  m.goOn scope

/-- Goes on with a loop until `count` more nodes are behind it. There may be no such moment. -/
def loopTo (scope : Scope) (block : Handle) (marker : Option Handle) :
    (count fuel : Nat) → Option Handle → Engine Moment
  | 0, fuel + 1, some h => return ⟨block, marker, h, fuel, ← Engine.nodes⟩
  | count + 1, fuel + 1, some h => do
    let around := Surroundings.ofNode (← Engine.nodes) h
    executeOne scope marker h
    let s ← Engine.nodes
    let c ← s.pending block
    if c.isActive then throw (.fault .endless)
    loopTo scope block marker count fuel (around.advance s h)
  | _, _, _ => throw (.fault .endless)

/-- Executes a block until `count` nodes are behind its loop. There may be no such moment. -/
def blockTo (scope : Scope) (block : Handle) (count : Nat) : Engine Moment := do
  let s ← Engine.nodes
  let marker ← s.childNamed? block markerName
  match ← startPosition scope.settings s block marker with
  | none => throw (.fault .endless)
  | some start => loopTo scope block marker count scope.fuel (s.child? block start)

-- ---------------------------------------------------------------------------
-- The loop from a moment on
-- ---------------------------------------------------------------------------

variable {scope : Scope} {block : Handle} {σ τ : Session} {m : Moment}

/-- The loop goes on from the moment that it has come to. -/
theorem loop_eq_run {marker : Option Handle} {count fuel : Nat} {current : Option Handle}
    (h : loopTo scope block marker count fuel current σ = .ok m τ) :
    loop scope block marker fuel current σ = m.run scope τ := by
  induction count generalizing fuel current σ with
  -- the moment asked for is the next statement
  | zero =>
    match fuel, current with
    | fuel + 1, some x =>
      obtain ⟨rfl, rfl⟩ : ⟨block, marker, x, fuel, σ.nodes⟩ = m ∧ σ = τ := by
        rw [loopTo, nodes_bind_apply] at h
        injection h with hm hτ
        exact ⟨hm, hτ⟩
      rfl
    | 0, _ => exact absurd h throw_ne_ok
    | _ + 1, none => exact absurd h throw_ne_ok
  -- one statement is run the same way in both, and it raises no signal
  | succ count ih =>
    match fuel, current with
    | fuel + 1, some x =>
      rw [loopTo, nodes_bind_apply] at h
      rw [loop, nodes_bind_apply]
      obtain ⟨⟨⟩, σ₁, hone, h⟩ := bind_eq_ok h
      rw [bind_of_ok hone]
      rw [nodes_bind_apply] at h ⊢
      obtain ⟨c, σ₂, hpending, h⟩ := bind_eq_ok h
      rw [bind_of_ok hpending]
      by_cases hc : c.isActive = true
      · rw [if_pos hc] at h
        exact absurd h throw_ne_ok
      · rw [if_neg hc] at h ⊢
        exact ih h
    | 0, _ => exact absurd h throw_ne_ok
    | _ + 1, none => exact absurd h throw_ne_ok

/-- A block is executed from the moment that its loop has come to. -/
theorem executeAll_eq_run {count : Nat} (h : blockTo scope block count σ = .ok m τ) :
    executeAll scope block σ = m.run scope τ := by
  rw [blockTo, nodes_bind_apply] at h
  rw [executeAll, nodes_bind_apply]
  obtain ⟨marker, σ₁, hmarker, h⟩ := bind_eq_ok h
  obtain ⟨start, σ₂, hstart, h⟩ := bind_eq_ok h
  rw [bind_of_ok hmarker, bind_of_ok hstart]
  cases start with
  | none => exact absurd h throw_ne_ok
  | some start => exact loop_eq_run h

-- ---------------------------------------------------------------------------
-- Where the loop comes to
-- ---------------------------------------------------------------------------

/-- The next sibling stands below the same node. -/
theorem Store.Disciplined.childOf_nextSibling {t : Store} (hd : Disciplined t) {x y p : Handle}
    (hx : t.ChildOf x p) (hy : t.nextSibling? x = some y) : t.ChildOf y p := by
  unfold nextSibling? at hy
  rw [show t.parent? x = some p from hx, Option.bind_some] at hy
  obtain ⟨i, -, hchild⟩ := Option.bind_eq_some_iff.1 hy
  exact hd.childOf_of_mem (List.mem_of_getElem? hchild)

/-- The loop goes from child to child of the block, whatever has become of the block. -/
theorem Store.Since.childOf_advance {s t : Store} {T : Set Handle} (h : Since s T t)
    (hd : Disciplined s) {x next : Handle} (hx : s.ChildOf x block)
    (hnext : (Surroundings.ofNode s x).advance t x = some next) : t.ChildOf next block := by
  have hkept : ∀ {f}, s.ChildOf f block → (t.parent? f).isSome = true → t.ChildOf f block := by
    intro f hf hparent
    obtain ⟨p, hp⟩ := Option.isSome_iff_exists.1 hparent
    obtain ⟨n, hn, -⟩ := childOf_iff.1 hf
    obtain ⟨m, hm, -⟩ := childOf_iff.1 hp
    have hholds := holds_of_childOf h.disciplined.linked hp
    exact (h.placed (isAlive_iff.2 ⟨n, hn⟩) (isAlive_iff.2 ⟨m, hm⟩) hholds).trans hf
  rcases Surroundings.advance_cases hnext with ⟨hparent, hy⟩ | ⟨hf, hparent⟩ | ⟨f, p, hf, hp, hmem⟩
  · exact h.disciplined.childOf_nextSibling (hkept hx hparent) hy
  · exact hkept (hd.childOf_nextSibling hx hf) hparent
  · -- nodes put between the two are children of the same node
    have hsame := hkept (hd.childOf_nextSibling hx hf) (by simp [hp])
    obtain rfl : p = block := Option.some.inj (hp.symm.trans hsame)
    exact h.disciplined.childOf_of_mem hmem

/-- In a moment the node is a child of the block. -/
structure Moment.Placed (m : Moment) (t : Store) : Prop where
  nodes : m.nodes = t
  childOf : t.ChildOf m.statement m.block

variable {F : Fence} {b s : Store} {T : Set Handle}

/-- A child of a node inside is a live node inside. -/
theorem Store.Held.present_of_childOf {t : Store} (ht : Held F b s T t) {x p : Handle}
    (hp : F.Inside p) (hx : t.ChildOf x p) : F.Present t x := by
  obtain ⟨m, hm, hup⟩ := childOf_iff.1 hx
  obtain ⟨n, hn, hmem⟩ := ht.disciplined.linked.lists hm hup
  exact ⟨isAlive_iff.2 ⟨m, hm⟩, (ht.fenced.nodes hp.1 hn).children x hmem⟩

theorem ensures_loopTo (hscope : scope.Keeps F b) (block : Handle) (marker : Option Handle)
    (count fuel : Nat) (current : Option Handle) :
    Ensures (fun t => F.Inside block ∧ Held F b s T t ∧ ∀ h, current = some h → t.ChildOf h block)
      (loopTo scope block marker count fuel current)
      (fun m t => m.block = block ∧ Held F b s T t ∧ m.Placed t) (Held F b s T) := by
  induction count generalizing fuel current with
  | zero =>
    match fuel, current with
    | fuel + 1, some h =>
      refine Ensures.bind_nodes fun u => (Ensures.pure _).before ?_
      rintro t - ⟨rfl, -, ht, hcurrent⟩
      exact ⟨rfl, ht, rfl, hcurrent h rfl⟩
    | 0, _ => exact Ensures.throw_endless
    | _ + 1, none => exact Ensures.throw_endless
  | succ count ih =>
    match fuel, current with
    | fuel + 1, some h =>
      refine Ensures.bind_nodes fun u => ?_
      -- the step is told from the store in front of the node
      have hstep : Ensures (fun t => t = u ∧ F.Inside block ∧ Held F b s T t ∧
            ∀ x, some h = some x → t.ChildOf x block) (executeOne scope marker h)
          (fun _ t => (F.Inside block ∧ Held F b s T u ∧ u.ChildOf h block) ∧ Held F b u T t)
          (Held F b s T) := by
        refine ((ensures_executeOne (s := u) (T := T) hscope marker h).frame
          (F.Inside block ∧ Held F b s T u ∧ u.ChildOf h block)).weaken ?_ (fun _ _ _ ht => ht)
          fun _ hu ht => ht.1.2.1.trans ht.2 hu
        rintro t - ⟨rfl, hblock, ht, hcurrent⟩
        have hh := hcurrent h rfl
        exact ⟨⟨hblock, ht, hh⟩, ht.rebase, ht.present_of_childOf hblock hh⟩
      refine hstep.bind fun _ => Ensures.bind_nodes fun u' => ?_
      refine Ensures.bind_liftFault (R := fun _ _ => True) ?_ fun c _ => ?_
      · rintro t - ⟨rfl, -, ht⟩
        exact ends_pending ht.live block
      · refine Ensures.ite (fun _ => Ensures.throw_endless) fun _ => (ih _ _).before ?_
        rintro t hu ⟨⟨rfl, ⟨hblock, hheld, hh⟩, ht⟩, -⟩
        exact ⟨hblock, hheld.trans ht hu, fun next hnext =>
          ht.since.childOf_advance hheld.disciplined hh hnext⟩
    | 0, _ => exact Ensures.throw_endless
    | _ + 1, none => exact Ensures.throw_endless

/-- A block that is executed up to a node. -/
theorem ensures_blockTo (hscope : scope.Keeps F b) (block : Handle) (count : Nat) :
    Ensures (fun t => Held F b s T t ∧ F.Present t block) (blockTo scope block count)
      (fun m t => m.block = block ∧ Held F b s T t ∧ m.Placed t) (Held F b s T) := by
  refine Ensures.bind_nodes fun u => ?_
  refine Ensures.bind_liftFault (R := fun t marker => ∀ x, marker = some x → t.isAlive x = true)
    ?_ fun marker _ => ?_
  · rintro t - ⟨rfl, ht, -⟩
    exact ends_childNamed? ht.live block markerName
  · refine Ensures.bind_lift (R := fun _ _ => True) ?_ (fun _ _ ht => ht.1.2.1) fun start _ => ?_
    · rintro t - ⟨⟨rfl, ht, hblock⟩, hmarker⟩
      exact ht.disciplined.ends_startPosition _ hblock.1 hmarker
    · cases start with
      | none => exact Ensures.throw_endless
      | some start =>
        refine (ensures_loopTo hscope block marker count scope.fuel (u.child? block start)).before ?_
        rintro t - ⟨⟨⟨rfl, ht, hblock⟩, -⟩, -⟩
        exact ⟨hblock.2, ht, fun h hh =>
          ht.disciplined.childOf_of_mem (List.mem_of_getElem? hh)⟩

-- ---------------------------------------------------------------------------
-- A raised signal
-- ---------------------------------------------------------------------------

/-- What the loop does afterwards is a sequence of operations on slots, too. -/
theorem Moment.evolves_goOn (hscope : scope.Keeps F b) (m : Moment) (σ : Session) :
    Evolves σ.nodes ((m.goOn scope).after σ) := by
  have hgo : Ensures (fun _ => False) (m.goOn scope) (fun _ _ => True) (fun _ => True) := by
    refine Ensures.bind_nodes fun u => ?_
    refine Ensures.bind_liftFault (R := fun _ _ => True) (fun _ _ h => h.2.elim) fun c _ => ?_
    refine Ensures.ite (fun _ => (Ensures.pure c).before fun _ _ _ => trivial) fun _ => ?_
    exact (ensures_loop (s := b) (T := ∅) hscope m.block m.marker m.fuel _).weaken
      (fun _ _ h => h.1.2.elim) (fun _ _ _ _ => trivial) fun _ _ _ => trivial
  exact hgo.evolves σ

/-- A scope that dispatches in another way. -/
def Scope.redirect (scope : Scope) (dispatch : String → Handle → Engine Unit) : Scope :=
  { scope with dispatch }

variable {r z : Handle} {c : Control}

/-- Once a signal is raised at the root of the block's tree, the loop ends with it. -/
theorem Moment.goOn_of_raised {m : Moment} (hd : Disciplined m.nodes)
    (hroot : m.nodes.root? m.block = some r) (hsince : Since m.nodes { x | m.nodes.Top x } σ.nodes)
    (hraised : Raised σ.nodes r z c) (hblock : σ.nodes.isAlive m.block = true) :
    σ.nodes.root? m.block = some r ∧ m.goOn scope σ = .ok c σ := by
  have hroot' := hsince.root?_eq hd.linked hroot (fun y hy _ _ => hy) hblock
  refine ⟨hroot', ?_⟩
  rw [goOn, nodes_bind_apply, hraised.pending hroot']
  show (if c.isActive = true then (pure c : Engine Control) else _) σ = _
  rw [if_pos hraised.isActive]
  rfl

/-- When the block is gone, so are its children, and there is none to go on with. -/
theorem Moment.goOn_of_not_isAlive {m : Moment} (hd : Disciplined m.nodes)
    (hplaced : m.nodes.ChildOf m.statement m.block)
    (hsince : Since m.nodes { x | m.nodes.Top x } σ.nodes)
    (hblock : σ.nodes.isAlive m.block = false) : m.goOn scope σ = .ok .none σ := by
  have hend : (Surroundings.ofNode m.nodes m.statement).advance σ.nodes m.statement = none := by
    cases hnext : (Surroundings.ofNode m.nodes m.statement).advance σ.nodes m.statement with
    | none => rfl
    | some next =>
      have hup := hsince.childOf_advance hd hplaced hnext
      rw [hsince.disciplined.linked.isAlive_parent hup] at hblock
      simp at hblock
  rw [goOn, nodes_bind_apply, pending_of_not_isAlive hblock, hend]
  show loop _ _ _ m.fuel none σ = _
  cases m.fuel <;> rfl

/-- In either case, and however nodes are dispatched, none is. -/
theorem Moment.succeeds_goOn (hscope : scope.Keeps F b) {m : Moment} (hd : Disciplined m.nodes)
    (hplaced : m.nodes.ChildOf m.statement m.block) (hroot : m.nodes.root? m.block = some r) :
    Succeeds scope.dispatch (fun t => Since m.nodes { x | m.nodes.Top x } t ∧ Raised t r z c)
      (fun d => m.goOn (scope.redirect d)) fun c' t =>
        (Since m.nodes { x | m.nodes.Top x } t ∧ Raised t r z c) ∧
          (c' = c ∧ t.root? m.block = some r ∨ c' = .none ∧ t.isAlive m.block = false) := by
  refine ⟨m.evolves_goOn hscope, fun σ _ hσ => ?_⟩
  obtain ⟨hsince, hraised⟩ := hσ
  cases hblock : σ.nodes.isAlive m.block with
  | true =>
    have hgo : ∀ scope, σ.nodes.root? m.block = some r ∧ m.goOn scope σ = .ok c σ :=
      fun _ => goOn_of_raised hd hroot hsince hraised hblock
    exact ⟨c, σ, fun d => (hgo (scope.redirect d)).2, ⟨hsince, hraised⟩, Or.inl ⟨rfl, (hgo scope).1⟩⟩
  | false =>
    exact ⟨.none, σ, fun d => goOn_of_not_isAlive hd hplaced hsince hblock, ⟨hsince, hraised⟩,
      Or.inr ⟨rfl, hblock⟩⟩

end TreeScript
