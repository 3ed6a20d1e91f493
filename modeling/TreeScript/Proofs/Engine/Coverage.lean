import TreeScript.Proofs.Engine.Moment
import TreeScript.Proofs.Store.Calls
import TreeScript.Proofs.Store.Siblings

/-!
# TreeScript — what the statement loop executes

The loop does not count: it asks after each step who follows the present node. As long as the
handlers leave the list of children alone, it goes through this list from its start to its end.

* `Calm` — what the handlers leave as it is;
* `due` — the children to execute, in order;
* `loop_covers` — the loop dispatches what is due from a position on;
* `executeAll_covers` — a block is executed from where its marker says, or fails at once.
-/

namespace TreeScript

open Store Engine

/-- A block with these children of these names, and no signal at the root of its tree. -/
structure Calm (block : Handle) (children : List Handle) (name : Handle → String) (s : Store) :
    Prop where
  linked : Linked s
  below : s.children block = .ok children
  names : ∀ c ∈ children, s.name c = .ok (name c)
  quiet : s.pending block = .ok .none

/-- The first of some nodes that has the name of the marker. -/
def markerOf? (name : Handle → String) (children : List Handle) : Option Handle :=
  children.find? fun c => name c == markerName

/-- Whether a child is executed: it has an executable name and is not the marker. -/
def isDue (name : Handle → String) (children : List Handle) (c : Handle) : Bool :=
  some c != markerOf? name children && isExecutable (name c)

/-- The children to execute from a position on. -/
def due (name : Handle → String) (children : List Handle) (start : Nat) : List Handle :=
  (children.drop start).filter (isDue name children)

variable {scope : Scope} {block : Handle} {children : List Handle} {name : Handle → String}

namespace Calm

variable {s : Store} {c : Handle} {i : Nat}

theorem childList_eq (h : Calm block children name s) : s.childList block = children := by
  obtain ⟨n, hn, rfl⟩ := children_eq_ok.1 h.below
  exact Store.childList_eq hn

/-- The children of a calm block are alive. -/
theorem isAlive (h : Calm block children name s) (hc : c ∈ children) : s.isAlive c = true := by
  cases hn : s.node? c with
  | none => simpa [Store.name, Store.node, hn, Except.map] using h.names c hc
  | some n => exact isAlive_iff.2 ⟨n, hn⟩

/-- The children of a calm block stand below it. -/
theorem parent?_eq (h : Calm block children name s) (hc : c ∈ children) :
    s.parent? c = some block :=
  (h.linked.parent?_eq_some_iff (h.isAlive hc)).2 (h.childList_eq.symm ▸ hc)

/-- The next child is the next one in the list. -/
theorem nextSibling?_eq (h : Calm block children name s) (hi : children[i]? = some c) :
    s.nextSibling? c = children[i + 1]? := by
  have hplace := h.linked.nextSibling?_of_getElem? (i := i)
    (h.parent?_eq (List.mem_of_getElem? hi)) (by rw [h.childList_eq, hi])
  rwa [h.childList_eq] at hplace

/-- A calm block has as many children as the list has. -/
theorem childCount_eq (h : Calm block children name s) :
    s.childCount block = .ok children.length := by
  obtain ⟨n, hn, rfl⟩ := children_eq_ok.1 h.below
  simp [childCount, Store.node, hn, Except.map]

/-- The marker is the first child of its name. -/
theorem childNamed?_eq (h : Calm block children name s) :
    s.childNamed? block markerName = .ok (markerOf? name children) := by
  have hfind : ∀ cs : List Handle, (∀ c ∈ cs, s.name c = .ok (name c)) →
      s.findNamed markerName cs = .ok (markerOf? name cs) := by
    intro cs hcs
    induction cs with
    | nil => rfl
    | cons c rest ih =>
      obtain ⟨hc, hrest⟩ := List.forall_mem_cons.1 hcs
      cases hn : s.node? c with
      | none => simp [Store.name, Store.node, hn, Except.map] at hc
      | some n =>
        have hname : n.name = name c := by simpa [Store.name, Store.node, hn, Except.map] using hc
        rw [findNamed, markerOf?, List.find?_cons]
        simp only [hn, hname]
        by_cases heq : name c = markerName
        · simp [heq]
        · rw [if_neg heq, ih hrest, beq_eq_false_iff_ne.2 heq]
          rfl
  rw [childNamed?, h.childList_eq]
  exact hfind children h.names

/-- After a step that keeps the block calm the loop goes on with the next child. -/
theorem advance_eq {t : Store} (h : Calm block children name s) (ht : Calm block children name t)
    (hi : children[i]? = some c) :
    (Surroundings.ofNode s c).advance t c = children[i + 1]? := by
  have hparent := ht.parent?_eq (List.mem_of_getElem? hi)
  rw [Surroundings.advance, hparent, ht.nextSibling?_eq hi]
  cases hnext : children[i + 1]? with
  | some next => rfl
  | none => simp [Surroundings.ofNode, h.nextSibling?_eq hi, hnext]

end Calm

-- ---------------------------------------------------------------------------
-- The loop
-- ---------------------------------------------------------------------------

/-- The handlers of the children that are executed give a result and keep something that
implies that the block is calm. -/
structure Scope.Settles (scope : Scope) (block : Handle) (children : List Handle)
    (name : Handle → String) (I : Session → Prop) : Prop where
  calm : ∀ σ, I σ → Calm block children name σ.nodes
  returns : ∀ c ∈ due name children 0, ∀ σ, I σ →
    ∃ τ, scope.dispatch (name c) c σ = .ok () τ ∧ I τ

/-- Executes nodes by their names. -/
def dispatchAll (scope : Scope) (name : Handle → String) (hs : List Handle) : Engine Unit :=
  hs.forM fun h => scope.dispatch (name h) h

variable {I : Session → Prop} {σ : Session}

theorem dispatchAll_cons (h : Handle) (rest : List Handle) :
    dispatchAll scope name (h :: rest) =
      (do scope.dispatch (name h) h; dispatchAll scope name rest) := List.forM_cons

/-- One step of the loop dispatches the child if it is due, and does nothing if not. -/
theorem executeOne_eq (hcalm : Calm block children name σ.nodes) {c : Handle}
    (hc : c ∈ children) :
    executeOne scope (markerOf? name children) c σ =
      if isDue name children c then scope.dispatch (name c) c σ else .ok () σ := by
  rw [executeOne_apply (hcalm.names c hc)]
  simp only [isDue, Bool.and_eq_true, bne_iff_ne]

/-- From a child on, the loop dispatches the children that are due, in their order. -/
theorem loop_covers (hs : scope.Settles block children name I) {fuel i : Nat}
    (hfuel : children.length - i ≤ fuel) (hσ : I σ) :
    ∃ τ, dispatchAll scope name (due name children i) σ = .ok () τ ∧ I τ ∧
      loop scope block (markerOf? name children) fuel children[i]? σ = .ok .none τ := by
  induction fuel generalizing i σ with
  | zero =>
    have hend : children.length ≤ i := by omega
    rw [List.getElem?_eq_none hend, due, List.drop_eq_nil_of_le hend]
    exact ⟨σ, rfl, hσ, rfl⟩
  | succ fuel ih =>
    cases hi : children[i]? with
    | none =>
      rw [due, List.drop_eq_nil_of_le (List.getElem?_eq_none_iff.1 hi)]
      exact ⟨σ, rfl, hσ, rfl⟩
    | some c =>
      have hcalm := hs.calm σ hσ
      have hc := List.mem_of_getElem? hi
      have hdrop : due name children i =
          if isDue name children c then c :: due name children (i + 1)
          else due name children (i + 1) := by
        obtain ⟨hlt, rfl⟩ := List.getElem?_eq_some_iff.1 hi
        rw [due, List.drop_eq_getElem_cons hlt, List.filter_cons]
        rfl
      -- the step itself
      obtain ⟨σ', hstep, hσ', hall⟩ : ∃ σ',
          executeOne scope (markerOf? name children) c σ = .ok () σ' ∧ I σ' ∧
          dispatchAll scope name (due name children i) σ =
            dispatchAll scope name (due name children (i + 1)) σ' := by
        rw [executeOne_eq hcalm hc, hdrop]
        split
        next hdue =>
          have hmem : c ∈ due name children 0 := List.mem_filter.2 ⟨by simpa using hc, hdue⟩
          obtain ⟨σ', hrun, hσ'⟩ := hs.returns c hmem σ hσ
          exact ⟨σ', hrun, hσ', by rw [dispatchAll_cons, bind_of_ok hrun]⟩
        next => exact ⟨σ, rfl, hσ, rfl⟩
      have hcalm' := hs.calm σ' hσ'
      obtain ⟨τ, hrest, hτ, hloop⟩ := ih (i := i + 1) (by omega) hσ'
      refine ⟨τ, hall.trans hrest, hτ, ?_⟩
      rw [loop_succ_of_ok hstep hcalm'.quiet, hcalm.advance_eq hcalm' hi]
      exact hloop

-- ---------------------------------------------------------------------------
-- The block
-- ---------------------------------------------------------------------------

/-- Executing a block comes to dispatching the children that are due from a position on. -/
def Covers (scope : Scope) (block : Handle) (children : List Handle) (name : Handle → String)
    (σ : Session) (start : Nat) : Prop :=
  ∃ τ, dispatchAll scope name (due name children start) σ = .ok () τ ∧
    executeAll scope block σ = .ok .none τ

/-- Executing a block fails, whatever would be done for a child, with a failure about a node, and
the session stays as it is. Where the node cannot be shown, the fault met on the way is given. -/
def Refuses (scope : Scope) (block : Handle) (σ : Session) (h : Handle)
    (f : NodeContext → Failure) : Prop :=
  ∀ dispatch,
    (∀ context, σ.nodes.describe h = .ok context →
      executeAll (scope.redirect dispatch) block σ = .error (.failure (f context)) σ) ∧
    ∀ fault, σ.nodes.describe h = .error fault →
      executeAll (scope.redirect dispatch) block σ = .error (.fault fault) σ

/-- Executing a calm block begins at its starting position, and there may be nothing to execute. -/
theorem executeAll_eq (scope : Scope) (hcalm : Calm block children name σ.nodes) :
    executeAll scope block σ =
      match startPosition scope.settings σ.nodes block (markerOf? name children) with
      | .ok (some start) =>
        loop scope block (markerOf? name children) scope.fuel children[start]? σ
      | .ok none => .ok .none σ
      | .error e => .error e σ := by
  rw [executeAll_apply hcalm.childNamed?_eq]
  cases startPosition scope.settings σ.nodes block (markerOf? name children) with
  | ok start =>
    cases start with
    | none => rfl
    | some start => simp only [child?, hcalm.childList_eq]
  | error e => rfl

/-- A block that starts at one of its children, or behind the last one. -/
theorem covers_of_start (hs : scope.Settles block children name I)
    (hfuel : children.length ≤ scope.fuel) (hσ : I σ) {start : Nat}
    (hstart : startPosition scope.settings σ.nodes block (markerOf? name children) =
        .ok (some start) ∨
      start = children.length ∧
        startPosition scope.settings σ.nodes block (markerOf? name children) = .ok none) :
    Covers scope block children name σ start := by
  rw [Covers, executeAll_eq scope (hs.calm σ hσ)]
  rcases hstart with hstart | ⟨hend, hstart⟩
  · have hbound : children.length - start ≤ scope.fuel := by omega
    obtain ⟨τ, hrun, -, hloop⟩ := loop_covers hs hbound hσ
    exact ⟨τ, hrun, by rw [hstart]; exact hloop⟩
  · rw [due, List.drop_eq_nil_of_le (Nat.le_of_eq hend.symm), hstart]
    exact ⟨σ, rfl, rfl⟩

/-- If there is no starting position, the block is refused. -/
theorem refuses_of_start (hcalm : Calm block children name σ.nodes) {h : Handle}
    {f : NodeContext → Failure}
    (hstart : startPosition scope.settings σ.nodes block (markerOf? name children) =
      σ.nodes.fail h f) : Refuses scope block σ h f := by
  intro dispatch
  rw [executeAll_eq (scope.redirect dispatch) hcalm]
  constructor
  · intro context hcontext
    rw [show startPosition (scope.redirect dispatch).settings σ.nodes block _ = _ from hstart,
      Store.fail, hcontext]
  · intro fault hfault
    rw [show startPosition (scope.redirect dispatch).settings σ.nodes block _ = _ from hstart,
      Store.fail, hfault]

section Marker

variable {settings : Settings} {s : Store} {m : Handle} {v : Value}

/-- Where to start if the marker's value leads to a whole number. -/
theorem startPosition_of_integer (hcalm : Calm block children name s)
    (hvalue : s.singleValue m = .ok (some v)) {n : Int}
    (hn : settings.converter.toInteger v = .ok n) :
    startPosition settings s block (some m) =
      if n < 0 then s.fail m (.execution (.negativeOffset n))
      else if n = children.length then .ok none
      else if children.length < n then s.fail block (.offsetOutOfRange n.toNat children.length)
      else .ok (some n.toNat) := by
  simp only [startPosition, hvalue, hn, hcalm.childCount_eq, bind, Except.bind]
  rfl

end Marker

/-- **Coverage.** Consider a block on which no signal is pending, and handlers that give a
result for every child that may be due and leave the block, its list of children, their names
and the absence of a signal as they are. With the first child called `offset` as its marker:

* without marker, or with a marker whose value leads to nothing, executing the block is to
  dispatch all children with executable names, without the marker, each once and in order;
* if the value of the marker converts to a number up to the number of children, the same goes for
  the children from there on;
* if it converts to another number or not at all, or cannot be found out, the block fails,
  nothing is dispatched and the session stays as it is. -/
theorem executeAll_covers (hs : scope.Settles block children name I)
    (hfuel : children.length ≤ scope.fuel) (hσ : I σ) :
    children.Nodup ∧
      (markerOf? name children = none → Covers scope block children name σ 0) ∧
      ∀ m, markerOf? name children = some m →
        (σ.nodes.singleValue m = .ok none → Covers scope block children name σ 0) ∧
        (∀ v, σ.nodes.singleValue m = .ok (some v) →
          (∀ n : Nat, scope.settings.converter.toInteger v = .ok n →
            (n ≤ children.length → Covers scope block children name σ n) ∧
            (children.length < n →
              Refuses scope block σ block (.offsetOutOfRange n children.length))) ∧
          (∀ n : Int, scope.settings.converter.toInteger v = .ok n → n < 0 →
            Refuses scope block σ m (.execution (.negativeOffset n))) ∧
          ∀ e, scope.settings.converter.toInteger v = .error e →
            Refuses scope block σ m (.conversion e)) ∧
        ∀ e, σ.nodes.singleValue m = .error e →
          ∀ dispatch, executeAll (scope.redirect dispatch) block σ = .error e σ := by
  have hcalm := hs.calm σ hσ
  refine ⟨hcalm.childList_eq ▸ hcalm.linked.nodup_childList block, ?_, ?_⟩
  -- without a marker the block is run from its first child
  · intro hnone
    exact covers_of_start hs hfuel hσ (Or.inl (by rw [hnone]; rfl))
  · intro m hm
    refine ⟨fun hvalue => ?_, fun v hvalue => ⟨fun n hn => ⟨fun hle => ?_, fun hlt => ?_⟩,
      fun n hn hneg => ?_, fun e he => ?_⟩, fun e hvalue dispatch => ?_⟩
    -- a marker without a value means the first child too
    · refine covers_of_start hs hfuel hσ (Or.inl ?_)
      rw [hm, startPosition, hvalue]
      rfl
    -- an offset within the block; one that is its length runs nothing
    · refine covers_of_start hs hfuel hσ ?_
      rw [hm, startPosition_of_integer hcalm hvalue hn, if_neg (by omega)]
      rcases Nat.eq_or_lt_of_le hle with heq | hlt
      · exact Or.inr ⟨heq, if_pos (by rw [heq])⟩
      · rw [if_neg (by omega), if_neg (by omega), Int.toNat_natCast]
        exact Or.inl rfl
    -- an offset behind the block, then a negative one, then one that is no number
    · refine refuses_of_start hcalm ?_
      rw [hm, startPosition_of_integer hcalm hvalue hn, if_neg (by omega), if_neg (by omega),
        if_pos (by omega), Int.toNat_natCast]
    · refine refuses_of_start hcalm ?_
      rw [hm, startPosition_of_integer hcalm hvalue hn, if_pos hneg]
    · refine refuses_of_start hcalm ?_
      rw [hm]
      simp only [startPosition, hvalue, he, bind, Except.bind]
    -- a marker whose value cannot be read fails before anything runs
    · rw [executeAll_eq _ hcalm, hm]
      rw [startPosition, hvalue]
      rfl

/-- A block of four children, one of them its marker. -/
def markedBlock : List Call :=
  [.create "" none, .add ⟨0, 0⟩ "a" none, .add ⟨0, 0⟩ "offset" (some (.scalar (.int 1))),
    .add ⟨0, 0⟩ "_d" none, .add ⟨0, 0⟩ "b" none]

def markedBlockStore : Store where
  slots := #[⟨0, some { name := "", children := [⟨1, 0⟩, ⟨2, 0⟩, ⟨3, 0⟩, ⟨4, 0⟩] }⟩,
    ⟨0, some { name := "a", parent := some ⟨0, 0⟩ }⟩,
    ⟨0, some
      { name := "offset", value := some (.scalar (.int 1)), parent := some ⟨0, 0⟩ }⟩,
    ⟨0, some { name := "_d", parent := some ⟨0, 0⟩ }⟩,
    ⟨0, some { name := "b", parent := some ⟨0, 0⟩ }⟩]
  live := 5

/-- Names the nodes of the block. -/
def markedName (h : Handle) : String := ["", "a", "offset", "_d", "b"].getD h.index ""

/-- A scope in which every node notes down its name. -/
def noting : Scope where
  settings := {}
  fuel := 4
  dispatch := fun name _ => Engine.note name

/-- The offset makes the block begin at its second child, and of the children from there only the
last one is executed. -/
theorem executeAll_covers_marked :
    executeAll noting ⟨0, 0⟩ { nodes := markedBlockStore } =
      .ok .none { nodes := markedBlockStore, journal := ["b"] } := by
  have hrun : empty.performAll markedBlock = some markedBlockStore := by cbv
  have hcalm : Calm ⟨0, 0⟩ [⟨1, 0⟩, ⟨2, 0⟩, ⟨3, 0⟩, ⟨4, 0⟩] markedName markedBlockStore :=
    ⟨performAll_linked hrun balanced_empty linked_empty (unwrapped_of_slots (by decide)), rfl,
      by decide, by decide⟩
  have hs : noting.Settles ⟨0, 0⟩ [⟨1, 0⟩, ⟨2, 0⟩, ⟨3, 0⟩, ⟨4, 0⟩] markedName
      fun σ => σ.nodes = markedBlockStore :=
    ⟨fun σ hσ => hσ ▸ hcalm, fun c _ σ hσ => ⟨_, rfl, hσ⟩⟩
  obtain ⟨τ, hall, hend⟩ := ((((executeAll_covers hs (σ := { nodes := markedBlockStore })
    (by decide) rfl).2.2 ⟨2, 0⟩ (by decide)).2.1 (.scalar (.int 1)) rfl).1 1 rfl).1 (by decide)
  have hdue : due markedName [⟨1, 0⟩, ⟨2, 0⟩, ⟨3, 0⟩, ⟨4, 0⟩] 1 = [⟨4, 0⟩] := by decide
  rw [hdue] at hall
  injection hall with _ hτ
  rw [hend, ← hτ]
  rfl

end TreeScript
