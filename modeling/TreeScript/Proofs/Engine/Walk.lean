import TreeScript.Proofs.Engine.Moment
import TreeScript.Proofs.Store.Calls
import TreeScript.Proofs.Store.Siblings

/-!
# TreeScript — the statement loop survives its handlers

After a handler has run, every handle that the loop keeps may be stale or may have been moved
to another tree. The loop reads data of a node only where it has just seen that the node is
there: it goes on with nodes that have a parent, and in a coherent store such a node is alive.

* `Ready` — a node as the loop dispatches it;
* `Scope.Coheres` — handlers that leave coherent stores;
* `executeOne_cases`, `Coherent.advance_parent?` — one step, and where it leads;
* `loop_ready`, `executeAll_ready` — only ready nodes are dispatched, and a stale handle is
  met only by a handler.
-/

namespace TreeScript

open Store Engine

/-- A node at the moment of its dispatch: it is alive, has a parent and a name that is neither
empty nor that of data or of a callback, and is not the marker of the block. -/
structure Ready (marker : Option Handle) (s : Store) (name : String) (h : Handle) : Prop where
  alive : s.isAlive h = true
  parent : ∃ p, s.parent? h = some p
  named : s.name h = .ok name
  executable : ∃ c rest, name.toList = c :: rest ∧ c ≠ '_' ∧ c ≠ '.'
  unmarked : some h ≠ marker

/-- Handlers that leave a coherent store when they return from one. -/
def Scope.Coheres (scope : Scope) : Prop :=
  ∀ name h σ τ, Coherent σ.nodes → scope.dispatch name h σ = .ok () τ → Coherent τ.nodes

/-- A name is executable if it begins with something else than an underscore or a dot. -/
theorem isExecutable_iff {name : String} :
    isExecutable name = true ↔ ∃ c rest, name.toList = c :: rest ∧ c ≠ '_' ∧ c ≠ '.' := by
  unfold isExecutable
  cases name.toList with
  | nil => simp
  | cons c rest => simp

variable {scope : Scope} {block h : Handle} {marker : Option Handle} {σ : Session}

/-- A step of the loop passes a node over or dispatches it, ready as it is. -/
theorem executeOne_cases (marker : Option Handle) (hparent : (σ.nodes.parent? h).isSome = true) :
    (∀ scope, executeOne scope marker h σ = .ok () σ) ∨
      ∃ name, Ready marker σ.nodes name h ∧
        ∀ scope, executeOne scope marker h σ = scope.dispatch name h σ := by
  obtain ⟨p, hp⟩ := Option.isSome_iff_exists.1 hparent
  have halive := isAlive_of_parent? hp
  obtain ⟨n, hn⟩ := isAlive_iff.1 halive
  have hname : σ.nodes.name h = .ok n.name := by simp [Store.name, Store.node, hn, Except.map]
  simp only [executeOne_apply hname]
  by_cases hdue : some h ≠ marker ∧ isExecutable n.name = true
  · refine Or.inr ⟨n.name, ⟨halive, ⟨p, hp⟩, hname, isExecutable_iff.1 hdue.2, hdue.1⟩, ?_⟩
    exact fun scope => if_pos hdue
  · exact Or.inl fun scope => if_neg hdue

/-- Where the loop goes on, in a coherent store, is a node with a parent. -/
theorem Store.Coherent.advance_parent? {t : Store} (ht : Coherent t) {x : Surroundings}
    {next : Handle} (hnext : x.advance t h = some next) : (t.parent? next).isSome = true := by
  have hlisted : ∀ {p}, next ∈ t.childList p → (t.parent? next).isSome = true :=
    fun hmem => by rw [ht.listed hmem]; rfl
  rcases Surroundings.advance_cases hnext with ⟨-, hsibling⟩ | ⟨-, hparent⟩ | ⟨f, p, -, -, hmem⟩
  · unfold nextSibling? at hsibling
    obtain ⟨p, -, hsibling⟩ := Option.bind_eq_some_iff.1 hsibling
    obtain ⟨i, -, hchild⟩ := Option.bind_eq_some_iff.1 hsibling
    exact hlisted (List.mem_of_getElem? hchild)
  · exact hparent
  · exact hlisted hmem

/-- The signal at the root of a tree is found. -/
theorem Store.Coherent.exists_pending {t : Store} (ht : Coherent t) (h : Handle) :
    ∃ c, t.pending h = .ok c := by
  have hends : Ends (t.pending h) (fun _ => True) fun _ => False := ends_pending ht.live h
  cases hpending : t.pending h with
  | ok c => exact ⟨c, rfl⟩
  | error e =>
    rw [hpending] at hends
    exact hends.elim

-- ---------------------------------------------------------------------------
-- The loop
-- ---------------------------------------------------------------------------

/-- Another way of dispatching, which is the same for nodes that are ready. -/
def Alike (marker : Option Handle) (scope : Scope) (dispatch : String → Handle → Engine Unit) :
    Prop :=
  ∀ σ name h, Coherent σ.nodes → Ready marker σ.nodes name h →
    dispatch name h σ = scope.dispatch name h σ

/-- A run that dispatches only nodes that are ready: it does not change when other nodes are
dispatched in another way, and if it meets a stale handle, it is inside a handler. -/
structure Survives (marker : Option Handle) (scope : Scope) (run : Scope → Engine Control)
    (σ : Session) : Prop where
  stale : ∀ τ, run scope σ = .error (.fault .stale) τ → ∃ σ' name h, Coherent σ'.nodes ∧
    Ready marker σ'.nodes name h ∧ scope.dispatch name h σ' = .error (.fault .stale) τ
  ready : ∀ dispatch, Alike marker scope dispatch →
    run (scope.redirect dispatch) σ = run scope σ

/-- A step that returns, in every scope alike, and the rest of the loop. -/
theorem Survives.loop_succ {fuel : Nat} {σ' : Session}
    (hone : executeOne scope marker h σ = .ok () σ')
    (hones : ∀ dispatch, Alike marker scope dispatch →
      executeOne (scope.redirect dispatch) marker h σ = .ok () σ')
    (hσ' : Coherent σ'.nodes)
    (hrest : Survives marker scope (fun scope => loop scope block marker fuel
      ((Surroundings.ofNode σ.nodes h).advance σ'.nodes h)) σ') :
    Survives marker scope (fun scope => loop scope block marker (fuel + 1) (some h)) σ := by
  obtain ⟨c, hc⟩ := hσ'.exists_pending block
  refine ⟨fun τ hτ => ?_, fun dispatch hd => ?_⟩
  · simp only [loop_succ_of_ok hone hc] at hτ
    split at hτ
    next => exact absurd hτ nofun
    next => exact hrest.stale τ hτ
  · simp only [loop_succ_of_ok hone hc, loop_succ_of_ok (hones dispatch hd) hc]
    split
    next => rfl
    next => exact hrest.ready dispatch hd

/-- The loop survives from a coherent store and a node with a parent on. -/
theorem loop_survives (hscope : scope.Coheres) {fuel : Nat} {current : Option Handle}
    (hσ : Coherent σ.nodes)
    (hcurrent : ∀ h, current = some h → (σ.nodes.parent? h).isSome = true) :
    Survives marker scope (fun scope => loop scope block marker fuel current) σ := by
  induction fuel generalizing current σ with
  | zero =>
    cases current with
    | none => exact ⟨nofun, fun _ _ => rfl⟩
    | some h => exact ⟨nofun, fun _ _ => rfl⟩
  | succ fuel ih =>
    cases current with
    | none => exact ⟨nofun, fun _ _ => rfl⟩
    | some h =>
      have hrest : ∀ {σ' : Session}, Coherent σ'.nodes → Survives marker scope (fun scope =>
          loop scope block marker fuel
            ((Surroundings.ofNode σ.nodes h).advance σ'.nodes h)) σ' :=
        fun hσ' => ih hσ' fun next hnext => hσ'.advance_parent? hnext
      -- a statement is skipped, or it is dispatched and ready for it
      rcases executeOne_cases marker (hcurrent h rfl) with hskip | ⟨name, hready, hone⟩
      · exact .loop_succ (hskip scope) (fun dispatch _ => hskip _) hσ (hrest hσ)
      · cases hrun : scope.dispatch name h σ with
        | ok result σ' =>
          have hones : ∀ dispatch, Alike marker scope dispatch →
              executeOne (scope.redirect dispatch) marker h σ = .ok () σ' :=
            fun dispatch hd => (hone _).trans ((hd σ name h hσ hready).trans hrun)
          have hσ' := hscope name h σ σ' hσ hrun
          exact .loop_succ ((hone scope).trans hrun) hones hσ' (hrest hσ')
        -- a failure of the handler is the failure of the loop
        | error e τ =>
          refine ⟨fun τ' hτ' => ?_, fun dispatch hd => ?_⟩
          · rw [loop_succ_of_error ((hone scope).trans hrun)] at hτ'
            injection hτ' with he hτ
            exact ⟨σ, name, h, hσ, hready, by rw [hrun, he, hτ]⟩
          · rw [loop_succ_of_error ((hone scope).trans hrun),
              loop_succ_of_error ((hone _).trans ((hd σ name h hσ hready).trans hrun))]

/-- **The statement loop survives any edit.** Consider a live block in a coherent store whose
marker has no value that points at a freed node, and handlers that leave a coherent store when
they return, whatever they do to the block and its nodes. When the block is executed, only nodes
that are ready are dispatched, and a stale handle is met by a handler or not at all. -/
theorem executeAll_survives (hscope : scope.Coheres) (hσ : Coherent σ.nodes)
    (hblock : σ.nodes.isAlive block = true)
    (hmarker : ∀ m n g, σ.nodes.childNamed? block markerName = .ok (some m) →
      σ.nodes.node? m = some n → n.value.bind Value.target? = some g →
      σ.nodes.isAlive g = true) :
    ∃ marker, σ.nodes.childNamed? block markerName = .ok marker ∧
      Survives marker scope (fun scope => executeAll scope block) σ := by
  have hfound : Ends (σ.nodes.childNamed? block markerName)
      (fun found => ∀ c, found = some c → σ.nodes.isAlive c = true) fun _ => False :=
    ends_childNamed? hσ.live block markerName
  cases hnamed : σ.nodes.childNamed? block markerName with
  | error e =>
    rw [hnamed] at hfound
    exact hfound.elim
  | ok marker =>
    rw [hnamed] at hfound
    refine ⟨marker, rfl, ?_⟩
    have hstart : Ends (startPosition scope.settings σ.nodes block marker) (fun _ => True)
        (Halt.Excused False) :=
      ends_startPosition hσ scope.settings hblock hfound fun m n g hm hn hg hdead => by
        rw [hmarker m n g (by rw [hnamed, hm]) hn hg] at hdead
        simp at hdead
    -- from the start on it is the loop, which begins with a child
    have hloop : ∀ start, Survives marker scope (fun scope =>
        loop scope block marker scope.fuel (σ.nodes.child? block start)) σ := by
      intro start
      have hchild : ∀ h, σ.nodes.child? block start = some h →
          (σ.nodes.parent? h).isSome = true := fun h hh => by
        rw [hσ.listed (List.mem_of_getElem? hh)]
        rfl
      exact ⟨(loop_survives hscope hσ hchild).stale, (loop_survives hscope hσ hchild).ready⟩
    refine ⟨fun τ hτ => ?_, fun dispatch hd => ?_⟩
    · rw [executeAll_apply hnamed] at hτ
      cases hpos : startPosition scope.settings σ.nodes block marker with
      | ok start =>
        rw [hpos] at hτ
        cases start with
        | none => simp at hτ
        | some start => exact (hloop start).stale τ hτ
      | error e =>
        rw [hpos] at hstart hτ
        injection hτ with he
        rw [he] at hstart
        exact hstart.elim
    · have hsettings : (scope.redirect dispatch).settings = scope.settings := rfl
      simp only [executeAll_apply hnamed, hsettings]
      cases startPosition scope.settings σ.nodes block marker with
      | ok start =>
        cases start with
        | none => rfl
        | some start => exact (hloop start).ready dispatch hd
      | error e => rfl

/-- A node with two children. -/
def twoChildren : List Call :=
  [.create "" none, .add ⟨0, 0⟩ "a" none, .add ⟨0, 0⟩ "b" none]

def twoChildrenStore : Store where
  slots := #[⟨0, some { name := "", children := [⟨1, 0⟩, ⟨2, 0⟩] }⟩,
    ⟨0, some { name := "a", parent := some ⟨0, 0⟩ }⟩,
    ⟨0, some { name := "b", parent := some ⟨0, 0⟩ }⟩]
  live := 3

/-- A scope in which every node takes itself out of its parent's children. -/
def leaving : Scope where
  settings := {}
  fuel := 3
  dispatch := fun name h => do
    Engine.note name
    Engine.detach h

/-- A block whose first node takes itself out. -/
theorem executeAll_survives_leaving :
    leaving.Coheres ∧ Coherent twoChildrenStore ∧
      Survives none leaving (fun scope => executeAll scope ⟨0, 0⟩) { nodes := twoChildrenStore } ∧
      ∃ t, executeAll leaving ⟨0, 0⟩ { nodes := twoChildrenStore } =
          .ok .none { nodes := t, journal := ["a", "b"] } ∧ t.childList ⟨0, 0⟩ = [] := by
  have hscope : leaving.Coheres := by
    intro name h σ τ hσ hrun
    injection hrun with _ hτ
    rw [← hτ]
    exact hσ.detach h
  have hrun : empty.performAll twoChildren = some twoChildrenStore := by cbv
  -- the store is built by calls, so its links hold
  have hl : Linked twoChildrenStore :=
    performAll_linked hrun balanced_empty linked_empty (unwrapped_of_slots (by decide))
  have hlive : LiveChildren twoChildrenStore := fun p n c hn hc =>
    forall_of_slots (P := fun n => ∀ c ∈ n.children, twoChildrenStore.isAlive c = true)
      (by decide) hn c hc
  have hσ := hl.coherent hlive
  have hblock : twoChildrenStore.isAlive ⟨0, 0⟩ = true := rfl
  obtain ⟨marker, hmarker, hsurvives⟩ := executeAll_survives (σ := { nodes := twoChildrenStore })
    hscope hσ hblock fun m n g hm => by
      have hnone : (none : Option Handle) = some m := Except.ok.inj hm
      simp at hnone
  obtain rfl : none = marker := Except.ok.inj hmarker
  exact ⟨hscope, hσ, hsurvives, _, rfl, rfl⟩

end TreeScript
