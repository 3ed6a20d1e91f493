import TreeScript.Proofs.Keyword.Leave

/-!
# TreeScript — signals unwind nested blocks

From a block, keywords lead to blocks inside of it, and from there to further blocks. If a
signal is raised at the root of the tree when the innermost node is executed, it passes all
keywords up to the one that it is meant for: the scope that executes the root for `_return`,
and the next `for-each` for `_break` and `_continue`.

* `Level`, `descend`, `unwind` — the way into nested blocks, and what is left of them;
* `keyword_of_raised` — a signal passes one keyword;
* `unwinds_of_raised` — and all of them, by induction on the way;
* `Receives` — what becomes of the block in which the signal arrives;
* `Stage`, `raised_signal_unwinds` — the whole, with a program in which it happens.
-/

namespace TreeScript

open Store Engine

namespace Keyword

variable {b t : Store} {r z h : Handle} {c : Control} {scope : Scope}

-- ---------------------------------------------------------------------------
-- Nested blocks
-- ---------------------------------------------------------------------------

/-- A keyword that executes a block in place: its scope, what it does around the block, where
the loop of the block has come to, and the session there. -/
structure Level where
  scope : Scope
  frame : Frame
  moment : Moment
  session : Session

/-- A level that dispatches in another way. -/
def Level.redirect (l : Level) (dispatch : String → Handle → Engine Unit) : Level :=
  { l with scope := l.scope.redirect dispatch }

/-- Executes the node of a moment, which calls one of the two keywords, until that has come
to a node of a block; and then that node in the same way. There may be no such way. -/
def descend (unknown : UnknownEvents) (settings : Settings) :
    (fuel : Nat) → List Way → Moment → Engine (List Level × Moment)
  | _, [], m => return ([], m)
  | 0, _ :: _, _ => throw (.fault .endless)
  | fuel + 1, way :: rest, m => do
    let scope := standardScope unknown settings fuel
    let name ← (← Engine.nodes).name m.statement
    if some m.statement ≠ m.marker ∧ name = way.name then
      let (frame, next) ← enter scope m.statement way
      let session ← get
      let (levels, last) ← descend unknown settings fuel rest next
      return (⟨scope, frame, next, session⟩ :: levels, last)
    else throw (.fault .endless)

/-- What is left of nested blocks, when the innermost node has been executed. -/
def unwind : List Level → Engine Unit
  | [] => pure ()
  | l :: rest => l.frame.around l.scope do
    unwind rest
    l.moment.goOn l.scope

/-- Each way leads into the one handler that the standard registry has for its keyword. -/
theorem Way.handlers_standard (unknown : UnknownEvents) (way : Way) :
    (Registry.standard unknown).handlers[way.name]? = some [way.keyword] :=
  Registry.handlers_standard unknown (way.name, way.keyword) (by
    cases way <;> simp [Keyword.standard, Way.name, Way.keyword])

variable {unknown : UnknownEvents} {settings : Settings} {fuel : Nat} {way : Way} {σ τ : Session}

/-- To execute a node whose name has one handler is to run that handler. -/
theorem executeOne_eq_handler {r : Registry} {marker : Option Handle} {name : String}
    {handler : Handler} (hlookup : r.handlers[name]? = some [handler])
    (hexec : isExecutable name = true) (hmarker : some h ≠ marker)
    (hname : σ.nodes.name h = .ok name) :
    executeOne (r.scope settings (fuel + 1)) marker h σ = handler (r.scope settings fuel) h σ := by
  have halive : σ.nodes.isAlive h = true := by
    cases hn : σ.nodes.node? h with
    | none => simp [Store.name, Store.node, hn, Except.map] at hname
    | some n => exact isAlive_iff.2 ⟨n, hn⟩
  have hdispatch : r.dispatch settings (fuel + 1) name h =
      Registry.runAll (r.scope settings fuel) h [handler] := by
    rw [Registry.dispatch, hlookup]
    rfl
  rw [executeOne, if_pos hmarker, nodes_bind_apply, hname]
  show (if isExecutable name = true then r.dispatch settings (fuel + 1) name h else pure ()) σ = _
  rw [if_pos hexec, hdispatch, Registry.runAll, isAlive_bind_apply, halive, if_pos rfl]
  -- behind the only handler there is nothing to run
  have hlast : ∀ τ : Session, Registry.runAll (r.scope settings fuel) h [] τ = .ok () τ :=
    fun _ => rfl
  rw [bind_apply]
  cases handler (r.scope settings fuel) h σ with
  | ok a τ => exact hlast τ
  | error e τ => rfl

/-- A node with the name of one of the keywords is executed by it. -/
theorem executeOne_eq_keyword {marker : Option Handle} (hmarker : some h ≠ marker)
    (hname : σ.nodes.name h = .ok way.name) :
    executeOne (standardScope unknown settings (fuel + 1)) marker h σ =
      way.keyword (standardScope unknown settings fuel) h σ :=
  executeOne_eq_handler (way.handlers_standard unknown)
    (by cases way <;> simp [Way.name, isExecutable]) hmarker hname

/-- A signal that is raised when the innermost node has been executed is left where it is by
what is left of nested blocks. However nodes are dispatched on the way, none is. -/
structure Unwinds (r z : Handle) (c : Control) (levels : List Level) (σ τ : Session) : Prop where
  raised : Raised τ.nodes r z c
  idle (dispatch : Level → String → Handle → Engine Unit) :
    unwind (levels.map fun l => l.redirect (dispatch l)) σ = .ok () τ

variable {f : Frame} {m : Moment}

/-- What is known where a keyword has come to a node of a block. -/
theorem entered_of_enter (hd : Disciplined σ.nodes) (hh : σ.nodes.isAlive h = true)
    (hscope : scope.Keeps Fence.wide σ.nodes) (hto : enter scope h way σ = .ok (f, m) τ)
    (hu : Unwrapped τ.nodes) :
    Entered Fence.wide σ.nodes σ.nodes { x | σ.nodes.Top x } h (f, m) τ.nodes := by
  have hended := (ensures_enter (s := σ.nodes) (T := { x | σ.nodes.Top x }) Fence.wide_sealed
    hscope h way).ended σ (by rwa [after, hto]) ⟨rfl, hd.held, hh, Fence.inside_wide h⟩
  rwa [hto] at hended

/-- What has become of the store of a moment, when its node has been executed. -/
theorem since_of_executeOne {σ' : Session} (hscope : scope.Keeps Fence.wide b)
    (hd : Disciplined τ.nodes) (hplaced : m.Placed τ.nodes)
    (hone : executeOne scope m.marker m.statement τ = .ok () σ') (hu : Unwrapped σ'.nodes) :
    Since m.nodes { x | m.nodes.Top x } σ'.nodes := by
  have hheld : Held Fence.wide b m.nodes { x | m.nodes.Top x } τ.nodes := by
    rw [hplaced.nodes]
    exact ⟨.refl hd, hd.balanced.fenced_wide b⟩
  have hpresent := hheld.present_of_childOf (Fence.inside_wide m.block) hplaced.childOf
  have hended := (ensures_executeOne hscope m.marker m.statement).ended τ (by rwa [after, hone])
    ⟨hheld, hpresent⟩
  rw [hone] at hended
  exact hended.since

theorem evolves_of_executeOne {σ' : Session} (hscope : scope.Keeps Fence.wide b)
    (hone : executeOne scope m.marker m.statement τ = .ok () σ') : Evolves τ.nodes σ'.nodes := by
  have hevolves := (ensures_executeOne (s := b) (T := ∅) hscope m.marker m.statement).evolves τ
  rwa [after, hone] at hevolves

/-- The node in a block is executed before the keyword has come to its end. -/
theorem evolves_around_run (hscope : scope.Keeps Fence.wide b) (f : Frame) (m : Moment)
    (τ : Session) : Evolves ((executeOne scope m.marker m.statement).after τ)
      ((f.around scope (m.run scope)).after τ) :=
  (evolves_after_bind (fun _ => m.evolves_goOn hscope) τ).trans (f.evolves_around hscope _ τ)

/-- One keyword: when the signal is raised while a node of its block is executed, the keyword
returns, whatever else it could dispatch, and leaves the signal. -/
theorem keyword_of_raised {σ' : Session} (hd : Disciplined σ.nodes)
    (hscope : scope.Keeps Fence.wide σ.nodes) (hname : σ.nodes.name h = .ok way.name)
    (hroot : σ.nodes.root? h = some r) (hto : enter scope h way σ = .ok (f, m) τ)
    (hblock : m.nodes.root? m.block = some r) (hne : m.block ≠ r)
    (hloop : f.isRound = true → c = .return)
    (hone : executeOne scope m.marker m.statement τ = .ok () σ')
    (hnew : τ.nodes.isAlive z = false) (hraised : Raised σ'.nodes r z c)
    (hu : Unwrapped ((way.keyword scope h).after σ)) :
    σ.nodes.isAlive z = false ∧ ∃ σ'', way.keyword scope h σ = .ok () σ'' ∧
      Raised σ''.nodes r z c ∧ ∀ dispatch,
        f.around (scope.redirect dispatch) (m.goOn (scope.redirect dispatch)) σ' = .ok () σ'' := by
  have hrun : way.keyword scope h σ = f.around scope (m.goOn scope) σ' := by
    rw [enter_eq_around hname hto]
    exact around_congr (bind_of_ok hone)
  -- the stores one after the other
  have hafter : Unwrapped ((f.around scope (m.goOn scope)).after σ') := by
    rwa [after, hrun] at hu
  have hu' : Unwrapped σ'.nodes :=
    ((m.evolves_goOn hscope σ').trans (f.evolves_around hscope _ σ')).unwrapped hafter
  have heτ := evolves_of_executeOne hscope hone
  obtain ⟨⟨hapart, hsame⟩, hheld, hplaced⟩ :=
    entered_of_enter hd (root?_eq_some hroot).1 hscope hto (heτ.unwrapped hu')
  have hsince := since_of_executeOne hscope hheld.disciplined hplaced hone hu'
  have hold : σ.nodes.isAlive z = false := by
    by_contra hz
    rw [Bool.not_eq_false] at hz
    have hmid := hheld.since.evolves.isAlive_between heτ hu' hz hraised.isAlive
    simp [hnew] at hmid
  obtain ⟨hnodes, hchild⟩ := hplaced
  dsimp only at hapart hsame hheld hnodes hchild
  rw [← hnodes] at hheld hnew hchild
  have hf : f.Around σ.nodes h r z m.nodes :=
    ⟨hd, hroot, hapart, hheld.since, hsame ▸ hblock, hsame ▸ hne, hold, hnew⟩
  obtain ⟨⟨⟩, σ'', hend, hQ⟩ := (hf.succeeds_around hscope hsame hchild hloop).ended σ' hafter
    ⟨hsince, hraised⟩
  exact ⟨hold, σ'', hrun.trans (hend scope.dispatch), hQ, hend⟩

/-- Without a way to go, the innermost moment is the one at the start. -/
theorem descend_nil_eq_ok {levels : List Level} {last : Moment}
    (hways : descend unknown settings fuel [] m σ = .ok (levels, last) τ) :
    levels = [] ∧ last = m ∧ τ = σ := by
  rw [descend.eq_def] at hways
  injection hways with hpair hτ
  obtain ⟨rfl, rfl⟩ := Prod.mk.inj hpair
  exact ⟨rfl, rfl, hτ.symm⟩

/-- The first keyword on a way, and the way from its block on. -/
theorem descend_cons_eq_ok {ways : List Way} {levels : List Level} {last : Moment}
    (hways : descend unknown settings fuel (way :: ways) m σ = .ok (levels, last) τ) :
    ∃ fuel' f next σ₁ levels', fuel = fuel' + 1 ∧ some m.statement ≠ m.marker ∧
      σ.nodes.name m.statement = .ok way.name ∧
      enter (standardScope unknown settings fuel') m.statement way σ = .ok (f, next) σ₁ ∧
      descend unknown settings fuel' ways next σ₁ = .ok (levels', last) τ ∧
      levels = ⟨standardScope unknown settings fuel', f, next, σ₁⟩ :: levels' := by
  cases fuel with
  | zero => exact absurd hways throw_ne_ok
  | succ fuel =>
    rw [descend, nodes_bind_apply] at hways
    obtain ⟨name, σ₁, hlookup, hways⟩ := bind_eq_ok hways
    obtain ⟨hname, rfl⟩ := lift_eq_ok hlookup
    -- the descent goes on only at a keyword of the name that the way gives
    by_cases hcond : some m.statement ≠ m.marker ∧ name = way.name
    · rw [if_pos hcond] at hways
      obtain ⟨hmarker, rfl⟩ := hcond
      obtain ⟨⟨f, next⟩, σ₁, hto, hways⟩ := bind_eq_ok hways
      dsimp only at hways
      rw [get_bind_apply] at hways
      obtain ⟨⟨levels', last'⟩, τ', hrest, hdone⟩ := bind_eq_ok hways
      injection hdone with hpair hτ
      obtain ⟨rfl, rfl⟩ := Prod.mk.inj hpair
      subst hτ
      exact ⟨fuel, f, next, σ₁, levels', rfl, hmarker, hname, hto, hrest, rfl⟩
    · rw [if_neg hcond] at hways
      exact absurd hways throw_ne_ok

/-- If no generation wraps around in a keyword, none does up to the node in its block. -/
theorem unwrapped_of_enter (hscope : scope.Keeps Fence.wide b)
    (hname : σ.nodes.name h = .ok way.name) (hto : enter scope h way σ = .ok (f, m) τ)
    (hu : Unwrapped ((way.keyword scope h).after σ)) :
    Unwrapped ((executeOne scope m.marker m.statement).after τ) ∧ Unwrapped τ.nodes := by
  have hone : Unwrapped ((executeOne scope m.marker m.statement).after τ) := by
    refine (evolves_around_run hscope f m τ).unwrapped ?_
    have hrun := enter_eq_around hname hto
    rwa [after, hrun] at hu
  exact ⟨hone, ((ensures_executeOne (s := b) (T := ∅) hscope _ _).evolves τ).unwrapped hone⟩

/-- All keywords: by induction on the way from a block to the innermost node. -/
theorem unwinds_of_raised {ways : List Way} {levels : List Level} {m last : Moment}
    {σ τ σ' : Session} (hd : Disciplined σ.nodes) (hm : m.Placed σ.nodes)
    (hroot : σ.nodes.root? m.block = some r)
    (hways : descend unknown settings fuel ways m σ = .ok (levels, last) τ)
    (hlevels : ∀ l ∈ levels,
      l.moment.nodes.root? l.moment.block = some r ∧ l.moment.block ≠ r)
    (hloops : c = .return ∨ ∀ l ∈ levels, l.frame.isRound = false)
    (hlast : executeOne (standardScope unknown settings (fuel - ways.length)) last.marker
      last.statement τ = .ok () σ')
    (hnew : τ.nodes.isAlive z = false) (hraised : Raised σ'.nodes r z c)
    (hu : Unwrapped ((executeOne (standardScope unknown settings fuel) m.marker
      m.statement).after σ)) :
    σ.nodes.isAlive z = false ∧
      (∃ σ'', executeOne (standardScope unknown settings fuel) m.marker m.statement σ =
        .ok () σ'' ∧ Unwinds r z c levels σ' σ'') ∧
      ∀ outer l inner, levels = outer ++ l :: inner →
        ∃ σ'', executeOne l.scope l.moment.marker l.moment.statement l.session = .ok () σ'' ∧
          Unwinds r z c inner σ' σ'' := by
  induction ways generalizing fuel m levels σ with
  | nil =>
    obtain ⟨rfl, rfl, rfl⟩ := descend_nil_eq_ok hways
    exact ⟨hnew, ⟨σ', hlast, hraised, fun _ => rfl⟩, fun outer l inner hsplit => by simp at hsplit⟩
  | cons way rest ih =>
    obtain ⟨fuel, f, next, τ₁, levels', rfl, hmarker, hname, hto, hrest, rfl⟩ :=
      descend_cons_eq_ok hways
    have hscope := (Registry.keeps_standard (b := σ.nodes) Fence.wide_sealed unknown).scope
      settings fuel
    obtain ⟨⟨hblock, hne⟩, hlevels⟩ := List.forall_mem_cons.1 hlevels
    have hone : executeOne (standardScope unknown settings (fuel + 1)) m.marker m.statement σ =
        way.keyword (standardScope unknown settings fuel) m.statement σ :=
      executeOne_eq_keyword hmarker hname
    have hkeyword : Unwrapped ((way.keyword (standardScope unknown settings fuel)
        m.statement).after σ) := by rwa [after, hone] at hu
    obtain ⟨hnext, hstore⟩ := unwrapped_of_enter hscope hname hto hkeyword
    have hroot' := hd.linked.root?_of_childOf hm.childOf hroot
    obtain ⟨-, hheld, hplaced⟩ :=
      entered_of_enter hd (root?_eq_some hroot').1 hscope hto hstore
    -- the inner keywords first, then this one
    have hlast' : executeOne (standardScope unknown settings (fuel - rest.length)) last.marker
        last.statement τ = .ok () σ' := by
      rwa [List.length_cons, Nat.add_sub_add_right] at hlast
    obtain ⟨hnew', ⟨σ₁, hran, hunwinds⟩, hinner⟩ := ih hheld.disciplined hplaced
      (hplaced.nodes ▸ hblock) hrest hlevels
      (hloops.imp_right fun h => fun l hl => h l (List.mem_cons_of_mem _ hl)) hlast' hnext
    have hloop : f.isRound = true → c = .return := fun hround => hloops.elim id fun h => by
      simp [hround] at h
    obtain ⟨hnew₀, σ₂, hrun, hraised₂, haround⟩ := keyword_of_raised hd hscope hname hroot' hto
      hblock hne hloop hran hnew' hunwinds.raised hkeyword
    refine ⟨hnew₀, ⟨σ₂, hone.trans hrun, hraised₂, fun d => ?_⟩, fun outer l inner hsplit => ?_⟩
    · rw [← haround (d ⟨standardScope unknown settings fuel, f, next, τ₁⟩)]
      exact around_congr (bind_of_ok (hunwinds.idle d))
    · cases outer with
      | nil =>
        obtain ⟨rfl, rfl⟩ := List.cons.inj hsplit
        exact ⟨σ₁, hran, hunwinds⟩
      | cons l' outer =>
        obtain ⟨-, hsplit⟩ := List.cons.inj hsplit
        exact hinner outer l inner hsplit

-- ---------------------------------------------------------------------------
-- Where a signal ends
-- ---------------------------------------------------------------------------

variable {B : Handle} {count : Nat} {σ₀ σ₁ σ₂ : Session}

/-- The node to which the loop of a block has come stands below the block. -/
theorem placed_of_blockTo (hscope : scope.Keeps Fence.wide σ.nodes) (hd : Disciplined σ.nodes)
    (hB : σ.nodes.isAlive B = true) (hto : blockTo scope B count σ = .ok m σ₀)
    (hu : Unwrapped σ₀.nodes) : m.block = B ∧ Disciplined σ₀.nodes ∧ m.Placed σ₀.nodes := by
  have hended := (ensures_blockTo (s := σ.nodes) (T := { x | σ.nodes.Top x }) hscope B count).ended
    σ (by rwa [after, hto]) ⟨hd.held, hB, Fence.inside_wide B⟩
  rw [hto] at hended
  exact ⟨hended.1, hended.2.1.disciplined, hended.2.2⟩

/-- What becomes of a block when a signal has come to its loop: the loop ends without
dispatching anything more, and whoever executes the block removes the sentinel, and nothing
else, if the signal is meant for it. That is the scope of the root for `_return`; a `for-each`
for `_break`, which ends it, and for `_continue`, which goes on with the next item. -/
structure Receives (scope : Scope) (B : Handle) (m : Moment) (r z : Handle) (c : Control)
    (σ σ' : Session) : Prop where
  ended : executeAll scope B σ = .ok c σ'
  idle (dispatch : String → Handle → Engine Unit) :
    m.goOn (scope.redirect dispatch) σ' = .ok c σ'
  root : c = .return → B = r → ∃ t, FreedOnly σ'.nodes z t ∧
    (executeAll scope B >>= fun _ => Engine.edit fun t => t.stripReturn B) σ =
      .ok () { σ' with nodes := t }
  stop {body : List Handle} {item : Nat} {items rest : List Item} {τ : Session} : c = .break →
    roundTo scope B body item items τ = .ok rest σ → ∃ t, FreedOnly σ'.nodes z t ∧
      rounds scope B body items τ = .ok () { σ' with nodes := t }
  next {body : List Handle} {item : Nat} {items rest : List Item} {τ : Session} : c = .continue →
    roundTo scope B body item items τ = .ok rest σ → ∃ t, FreedOnly σ'.nodes z t ∧
      rounds scope B body items τ = rounds scope B body rest { σ' with nodes := t }

/-- What becomes of a block to which a signal has come: the loop ends, and the signal is taken by
whom it is meant for. -/
theorem receives_of_raised (hroot : σ₁.nodes.root? B = some r)
    (hrun : executeAll scope B σ = .ok c σ₁)
    (hidle : ∀ dispatch, m.goOn (scope.redirect dispatch) σ₁ = .ok c σ₁)
    (hd : Disciplined σ₁.nodes) (hraised : Raised σ₁.nodes r z c) :
    Receives scope B m r z c σ σ₁ := by
  have hfreed := hd.freedOnly_remove hraised.isAlive
  -- clearing the signal at the block frees the sentinel that raised it
  have hclear : (Engine.change fun t => t.clearSignal B) σ₁ =
      .ok c { σ₁ with nodes := σ₁.nodes.remove z } := by
    rw [Engine.change, hraised.clearSignal hroot]
  refine ⟨hrun, hidle, ?_, ?_, ?_⟩
  -- a return is stripped where the block is the root of the tree
  · intro hc hB
    subst hc hB
    refine ⟨_, hfreed, ?_⟩
    rw [bind_of_ok hrun]
    simp [Engine.edit, Engine.change, hraised.stripReturn_root, Except.map]
  -- a continue ends the round and frees its sentinel
  · intro body item items rest τ hc hto
    subst hc
    refine ⟨_, hfreed, ?_⟩
    rw [rounds_eq hto, bind_of_ok hrun, endRound, bind_of_ok hclear]
    rfl
  -- a break does the same and leaves the loop
  · intro body item items rest τ hc hto
    subst hc
    refine ⟨_, hfreed, ?_⟩
    rw [rounds_eq hto, bind_of_ok hrun, endRound, bind_of_ok hclear]

/-- A block whose loop has come to a node, with the session there; the keywords on a way from
it to a node of an inner block; and the loop of that block in front of the node. -/
structure Stage where
  outer : Moment
  before : Session
  levels : List Level
  inner : Moment
  reached : Session

/-- Executes a block until `count` nodes are behind its loop, the next one until it has come
along the ways to a node of an inner block, and that one altogether. -/
def stage (unknown : UnknownEvents) (settings : Settings) (fuel : Nat) (B : Handle) (count : Nat)
    (ways : List Way) : Engine Stage := do
  let outer ← blockTo (standardScope unknown settings fuel) B count
  let before ← get
  let (levels, inner) ← descend unknown settings fuel ways outer
  let reached ← get
  executeOne (standardScope unknown settings (fuel - ways.length)) inner.marker inner.statement
  return ⟨outer, before, levels, inner, reached⟩

/-- A signal is raised at the root `r` of a tree while the innermost node of a stage is executed.
The keywords on the way to that node execute other blocks of the tree than `r`. -/
structure Stage.Raises (x : Stage) (B r z : Handle) (c : Control) (τ : Session) : Prop where
  tree : x.before.nodes.root? B = some r
  levels : ∀ l ∈ x.levels,
    l.moment.nodes.root? l.moment.block = some r ∧ l.moment.block ≠ r
  new : x.reached.nodes.isAlive z = false
  raised : Raised τ.nodes r z c

instance (x : Stage) (B r z : Handle) (c : Control) (τ : Session) :
    Decidable (x.Raises B r z c τ) :=
  decidable_of_iff (x.before.nodes.root? B = some r ∧
    (∀ l ∈ x.levels, l.moment.nodes.root? l.moment.block = some r ∧ l.moment.block ≠ r) ∧
    x.reached.nodes.isAlive z = false ∧ Raised τ.nodes r z c)
    ⟨fun ⟨htree, hlevels, hnew, hraised⟩ => ⟨htree, hlevels, hnew, hraised⟩,
      fun h => ⟨h.tree, h.levels, h.new, h.raised⟩⟩

/-- **Signals unwind nested blocks.** A signal is raised while the innermost node is executed,
and unless it is `_return`, no loop stands between the block `B` and that node. Then all
keywords on the way return and leave the signal where it is, and dispatch nothing more. So
does the loop of `B`, if `B` is the root or is still there, and then `B` receives the signal. -/
theorem raised_signal_unwinds {ways : List Way} {x : Stage} (hd : Disciplined σ.nodes)
    (hB : σ.nodes.isAlive B = true)
    (hstage : stage unknown settings fuel B count ways σ = .ok x τ)
    (hraises : x.Raises B r z c τ)
    (hloops : c = .return ∨ ∀ l ∈ x.levels, l.frame.isRound = false)
    (hu : ∀ i, ((executeAll (standardScope unknown settings fuel) B).after σ).freedAt i < 2 ^ 32) :
    (∀ outer l inner, x.levels = outer ++ l :: inner →
        ∃ σ', executeOne l.scope l.moment.marker l.moment.statement l.session = .ok () σ' ∧
          Unwinds r z c inner τ σ') ∧
      ∃ σ', executeOne (standardScope unknown settings fuel) x.outer.marker x.outer.statement
          x.before = .ok () σ' ∧
        Unwinds r z c x.levels τ σ' ∧
        (B = r ∨ σ'.nodes.isAlive B = true →
          Receives (standardScope unknown settings fuel) B x.outer r z c σ σ') := by
  obtain ⟨htree, hlevels, hnew, hraised⟩ := hraises
  obtain ⟨m₀, σ₀, hblock, hstage⟩ := bind_eq_ok hstage
  rw [get_bind_apply] at hstage
  obtain ⟨⟨levels, m⟩, σ₁, hways, hstage⟩ := bind_eq_ok hstage
  dsimp only at hstage
  rw [get_bind_apply] at hstage
  obtain ⟨⟨⟩, σ₂, hlast, hdone⟩ := bind_eq_ok hstage
  injection hdone with hx hτ
  subst hx hτ
  have hscope := (Registry.keeps_standard (b := σ.nodes) Fence.wide_sealed unknown).scope
    settings fuel
  have hrun := executeAll_eq_run hblock
  -- the stores one after the other
  have hafter : Unwrapped ((m₀.run (standardScope unknown settings fuel)).after σ₀) := by
    rwa [after, hrun] at hu
  have hstatement := (evolves_after_bind (fun _ => m₀.evolves_goOn hscope) σ₀).unwrapped hafter
  have hu₀ := ((ensures_executeOne (s := σ.nodes) (T := ∅) hscope m₀.marker m₀.statement).evolves
    σ₀).unwrapped hstatement
  obtain ⟨rfl, hd₀, hplaced⟩ := placed_of_blockTo hscope hd hB hblock hu₀
  obtain ⟨-, ⟨σ₃, hone, hunwinds⟩, hinner⟩ := unwinds_of_raised hd₀ hplaced htree hways hlevels
    hloops hlast hnew hraised hstatement
  refine ⟨hinner, σ₃, hone, hunwinds, fun hthere => ?_⟩
  have hsince := since_of_executeOne hscope hd₀ hplaced hone (by rwa [after, hone] at hstatement)
  have hd₃ := hsince.disciplined
  have halive : σ₃.nodes.isAlive m₀.block = true := by
    rcases hthere with rfl | halive
    · exact hd₃.linked.isAlive_parent hunwinds.raised.childOf
    · exact halive
  dsimp only at htree
  rw [← hplaced.nodes] at hd₀ htree
  have hgo : ∀ scope, σ₃.nodes.root? m₀.block = some r ∧ m₀.goOn scope σ₃ = .ok c σ₃ :=
    fun _ => Moment.goOn_of_raised hd₀ htree hsince hunwinds.raised halive
  refine receives_of_raised (hgo (standardScope unknown settings fuel)).1 ?_ (fun d => (hgo _).2)
    hd₃ hunwinds.raised
  rw [hrun]
  exact (bind_of_ok hone).trans (hgo _).2

/-- A `return` in a block in a loop in a block. -/
def returning : Session :=
  { nodes := Store.ofDocs [.plain "eval-mutable" none [.plain "for-each" (some (.expr "/../*/_i"))
      [.plain "eval-mutable" none [.plain "return" none []]]], .plain "_i" none []] }

set_option maxRecDepth 100000 in
/-- A `_return` out of a loop in a block, which arrives at the root. -/
theorem raised_signal_unwinds_returning : ∃ x τ z σ',
    stage .error {} 6 ⟨0, 0⟩ 0 [.own 0, .round 0 1, .own 0] returning = .ok x τ ∧
      x.Raises ⟨0, 0⟩ ⟨0, 0⟩ z .return τ ∧ Unwinds ⟨0, 0⟩ z .return x.levels τ σ' ∧
      Receives (standardScope .error {} 6) ⟨0, 0⟩ x.outer ⟨0, 0⟩ z .return returning σ' := by
  have hrun : Outcome.isOkWith (fun x τ => (τ.nodes.firstChild? ⟨0, 0⟩).any fun z =>
      x.Raises ⟨0, 0⟩ ⟨0, 0⟩ z .return τ)
      (stage .error {} 6 ⟨0, 0⟩ 0 [.own 0, .round 0 1, .own 0] returning) = true := by cbv
  obtain ⟨x, τ, hstage, hraises⟩ := Outcome.of_isOkWith hrun
  obtain ⟨hsome, hraises⟩ := (Option.any_eq_true_iff_get _ _).1 hraises
  have hd : Disciplined returning.nodes := disciplined_ofDocs (unwrapped_of_isUnwrapped (by cbv))
  obtain ⟨-, σ', -, hunwinds, hreceives⟩ := raised_signal_unwinds hd (by cbv) hstage
    (of_decide_eq_true hraises) (Or.inl rfl) (unwrapped_of_isUnwrapped (by cbv))
  exact ⟨x, τ, _, σ', hstage, of_decide_eq_true hraises, hunwinds, hreceives (Or.inl rfl)⟩

/-- A loop in a data node `_return`, which is executed as a block. In a round of the loop the
block around that node is executed: it strips the node like a sentinel, and the loop is gone. -/
def breaking : Session :=
  { nodes := Store.ofDocs [.plain "eval-mutable" (some (.expr "/../*/_b/*/_return")) [],
      .plain "_b" none
        [.plain "_return" none [.plain "for-each" (some (.expr "/../*/_i"))
          [.plain "eval-mutable" (some (.expr "/../*/_b")) []]],
        .plain "offset" (some (.int 2)) [], .plain "break" none []],
      .plain "_i" none []] }

/-- A loop with a statement that executes a block of the tree from a copy, and then fails. -/
def failing : Session :=
  { nodes := Store.ofDocs [.plain "_l" none [.plain "return" none []],
      .plain "for-each" (some (.expr "/../*/_l")) [.plain "eval" (some (.expr "/."))
        [.plain "eval-mutable" (some (.expr "/./*/_dp?value")) [], .plain "boom" none []]]] }

set_option maxRecDepth 100000 in
/-- The `_break` is raised in the data node, and the innermost loop around it has returned while its
sentinel is still there. -/
theorem breaking_stays : Outcome.isOkWith (fun x τ => (τ.nodes.firstChild? ⟨0, 0⟩).any fun z =>
      decide (x.Raises ⟨0, 0⟩ ⟨0, 0⟩ z .break τ) &&
      decide ((x.levels.map fun l => l.frame.isRound) = [false, true, false]) &&
      x.levels.head?.any fun l => Outcome.isOkWith (fun _ σ' => Raised σ'.nodes ⟨0, 0⟩ z .break)
        (executeOne l.scope l.moment.marker l.moment.statement l.session))
    (stage .error {} 5 ⟨0, 0⟩ 0 [.source 0 0, .round 0 1, .source 0 0] breaking) = true := by cbv

set_option maxRecDepth 100000 in
/-- The `_return` is raised inside of the loop, and the statement that the loop belongs to fails
nevertheless. -/
theorem failing_fails : Outcome.isOkWith (fun outer σ₀ =>
      Outcome.isFailureWith (fun _ => true)
        (executeOne (standardScope .error {} 5) outer.marker outer.statement σ₀) &&
      Outcome.isOkWith (fun r σ₁ =>
        decide ((r.1.map fun l => l.frame.isRound) = [true]) &&
        decide (∀ l ∈ r.1, l.moment.nodes.root? l.moment.block = some ⟨0, 0⟩ ∧
          l.moment.block ≠ ⟨0, 0⟩) &&
        Outcome.isFailureWith (fun τ => (τ.nodes.firstChild? ⟨0, 0⟩).any fun z =>
            decide (σ₁.nodes.isAlive z = false) && decide (Raised τ.nodes ⟨0, 0⟩ z .return))
          (executeOne (standardScope .error {} 4) r.2.marker r.2.statement σ₁))
        (descend .error {} 5 [.round 0 1] outer σ₀))
    (blockTo (standardScope .error {} 5) ⟨0, 0⟩ 1 failing) = true := by cbv

/-- A `_break` is still there when the innermost loop around it has returned; and after a
`_return` has been raised, the loop around it may fail. -/
theorem signal_not_received :
    (∃ x τ z l σ', stage .error {} 5 ⟨0, 0⟩ 0 [.source 0 0, .round 0 1, .source 0 0] breaking =
        .ok x τ ∧ x.Raises ⟨0, 0⟩ ⟨0, 0⟩ z .break τ ∧
      (x.levels.map fun l => l.frame.isRound) = [false, true, false] ∧
      x.levels.head? = some l ∧
      executeOne l.scope l.moment.marker l.moment.statement l.session = .ok () σ' ∧
      Raised σ'.nodes ⟨0, 0⟩ z .break) ∧
    ∃ outer σ₀ levels inner σ₁ f τ z f' σ',
      blockTo (standardScope .error {} 5) ⟨0, 0⟩ 1 failing = .ok outer σ₀ ∧
      descend .error {} 5 [.round 0 1] outer σ₀ = .ok (levels, inner) σ₁ ∧
      (levels.map fun l => l.frame.isRound) = [true] ∧
      (∀ l ∈ levels, l.moment.nodes.root? l.moment.block = some ⟨0, 0⟩ ∧
        l.moment.block ≠ ⟨0, 0⟩) ∧
      executeOne (standardScope .error {} 4) inner.marker inner.statement σ₁ =
        .error (.failure f) τ ∧
      σ₁.nodes.isAlive z = false ∧ Raised τ.nodes ⟨0, 0⟩ z .return ∧
      executeOne (standardScope .error {} 5) outer.marker outer.statement σ₀ =
        .error (.failure f') σ' := by
  constructor
  -- a break that crosses two sources on its way to the loop
  · obtain ⟨x, τ, hstage, hx⟩ := Outcome.of_isOkWith breaking_stays
    obtain ⟨hsome, hx⟩ := (Option.any_eq_true_iff_get _ _).1 hx
    simp only [Bool.and_eq_true, decide_eq_true_eq] at hx
    obtain ⟨⟨hraises, hrounds⟩, hx⟩ := hx
    obtain ⟨hhead, hx⟩ := (Option.any_eq_true_iff_get _ _).1 hx
    obtain ⟨⟨⟩, σ', hone, hraised⟩ := Outcome.of_isOkWith hx
    exact ⟨x, τ, _, _, σ', hstage, hraises, hrounds, (Option.some_get hhead).symm, hone,
      of_decide_eq_true hraised⟩
  -- a keyword that raises and then fails: nothing receives its signal
  · obtain ⟨outer, σ₀, houter, hx⟩ := Outcome.of_isOkWith failing_fails
    simp only [Bool.and_eq_true] at hx
    obtain ⟨hfails, hx⟩ := hx
    obtain ⟨f', σ', hfails, -⟩ := Outcome.of_isFailureWith hfails
    obtain ⟨⟨levels, inner⟩, σ₁, hinner, hx⟩ := Outcome.of_isOkWith hx
    simp only [Bool.and_eq_true, decide_eq_true_eq] at hx
    obtain ⟨⟨hrounds, hlevels⟩, hx⟩ := hx
    obtain ⟨f, τ, hone, hx⟩ := Outcome.of_isFailureWith hx
    obtain ⟨hsome, hx⟩ := (Option.any_eq_true_iff_get _ _).1 hx
    simp only [Bool.and_eq_true, decide_eq_true_eq] at hx
    exact ⟨outer, σ₀, levels, inner, σ₁, f, τ, _, f', σ', houter, hinner, hrounds, hlevels, hone,
      hx.1, hx.2, hfails⟩

end Keyword

end TreeScript
