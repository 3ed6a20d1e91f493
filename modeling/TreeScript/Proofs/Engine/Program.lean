import Mathlib
import TreeScript.Proofs.Document.RoundTrip
import TreeScript.Proofs.Keyword.Standard

/-!
# TreeScript — what programs leave

Executing a node, in either way, and executing a program, over the standard keywords. All
of them leave a disciplined store disciplined, whether they succeed or fail, and leave
nothing behind: the nodes that nobody holds are those that nobody held before. Where a
program ends at a stale handle, the value of a live node points at a freed one.

* `Engine.Returns` — the sessions that a computation can return in;
* `Disciplined.held` — a store before a program;
* `Start`, `ensures_start` — the ways to execute, and one assertion for all of them;
* `execution_keeps_discipline` — single ownership;
* `execution_leaves_no_orphans` — no tree is left behind;
* `evaluate_stale_only_if_dangling` — stale handles.
-/

namespace TreeScript

open Store Engine

/-- A computation returns in a session, with a result or with a failure. -/
def Engine.Returns {α : Type} (x : Engine α) (σ σ' : Session) : Prop :=
  (∃ a, x σ = .ok a σ') ∨ ∃ f, x σ = .error (.failure f) σ'

/-- What an assertion says where a computation fails. -/
theorem Engine.Ensures.fails {α : Type} {P E : Store → Prop} {x : Engine α}
    {Q : α → Store → Prop} (hx : Ensures P x Q E) {σ σ' : Session} {f : Failure}
    (hfails : x σ = .error (.failure f) σ') (hu : Unwrapped σ'.nodes) (hσ : P σ.nodes) :
    E σ'.nodes := by
  have hended := hx.ended σ (by rw [after, hfails]; exact hu) hσ
  rwa [hfails] at hended

/-- What an assertion says of the sessions that a computation returns in. -/
theorem Engine.Ensures.returns {α : Type} {P I : Store → Prop} {x : Engine α}
    (hx : Ensures P x (fun _ => I) I) {σ σ' : Session} (hret : x.Returns σ σ')
    (hu : Unwrapped σ'.nodes) (hσ : P σ.nodes) : I σ'.nodes := by
  rcases hret with ⟨a, ha⟩ | ⟨f, hf⟩
  · have hended := hx.ended σ (by rw [after, ha]; exact hu) hσ
    rwa [ha] at hended
  · exact hx.fails hf hu hσ

/-- What an assertion says where a computation ends at a stale handle. -/
theorem Engine.Ensures.stale {α : Type} {P E : Store → Prop} {x : Engine α}
    {Q : α → Store → Prop} (hx : Ensures P x Q E) {σ σ' : Session}
    (hstale : x σ = .error (.fault .stale) σ') (hu : Unwrapped σ'.nodes) (hσ : P σ.nodes) :
    σ'.nodes.Dangles := by
  have hended := hx.ended σ (by rw [after, hstale]; exact hu) hσ
  rwa [hstale] at hended

-- ---------------------------------------------------------------------------
-- Without a fence
-- ---------------------------------------------------------------------------

/-- A fence that keeps nothing off. -/
def Fence.wide : Fence := ⟨fun _ => False, none, fun _ => True⟩

/-- Everything is inside of a fence that keeps nothing off. -/
theorem Fence.inside_wide (h : Handle) : Fence.wide.Inside h := ⟨id, by simp [Fence.wide]⟩

/-- A fence that keeps nothing off has no door. -/
theorem Fence.wide_sealed : Fence.wide.Sealed :=
  ⟨rfl, fun h => ⟨fun _ => Fence.inside_wide h, fun _ => trivial⟩⟩

theorem Store.Balanced.fenced_wide {s : Store} (hs : Balanced s) (b : Store) :
    Fenced Fence.wide b s where
  balanced := hs
  slots hi := hi.elim
  size hi := hi.elim
  free _ := id
  door hd := by simp [Fence.wide] at hd
  nodes {x n} _ _ := by
    refine ⟨fun _ p _ => id, fun c _ => Fence.inside_wide c, fun v _ => ?_⟩
    cases v with
    | scalar _ => trivial
    | node g => exact Fence.inside_wide g
    | ref g => trivial

/-- A disciplined store before a program: its tops are what they are. -/
theorem Store.Disciplined.held {s : Store} (hs : Disciplined s) :
    Held Fence.wide s s { b | s.Top b } s :=
  ⟨.refl hs, hs.balanced.fenced_wide s⟩

/-- A text that has been read is a disciplined store. -/
theorem Store.disciplined_parse {text : String} {root : Handle} {s : Store}
    (hparse : Store.empty.parse text = .ok (root, s)) (hu : Unwrapped s) :
    Disciplined s ∧ s.isAlive root = true := by
  have hsince := (Since.refl disciplined_empty).parse hparse hu
  exact ⟨hsince.disciplined, hsince.isAlive (Or.inr rfl)⟩

/-- The store with a document below a nameless node. -/
def Store.ofDocs (docs : List Doc) : Store :=
  (Store.empty.plant (.plain "" none (Shape.ofForest docs))).2

/-- A store with a document is disciplined. -/
theorem Store.disciplined_ofDocs {docs : List Doc} (hu : Unwrapped (Store.ofDocs docs)) :
    Disciplined (Store.ofDocs docs) :=
  ((Since.refl disciplined_empty).plant _ hu).disciplined

/-- The nameless node is the first that is given out. -/
theorem Store.plant_empty_fst (docs : List Doc) :
    (Store.empty.plant (.plain "" none (Shape.ofForest docs))).1 = ⟨0, 0⟩ := by
  rw [Store.plant]
  rfl

/-- The nameless node above a document is held by nobody. -/
theorem Store.top_ofDocs {docs : List Doc} (hu : Unwrapped (Store.ofDocs docs)) :
    (Store.ofDocs docs).Top ⟨0, 0⟩ := by
  rw [← plant_empty_fst docs]
  exact ((Since.refl disciplined_empty).plant _ hu).top (Or.inr rfl)

/-- A document that is read back is written, and read into an empty store as the store with that
document. -/
theorem Store.parse_renderForest {docs : List Doc} (hdocs : Doc.AllReadable docs) :
    Store.empty.parse (Doc.renderForest docs) = .ok (⟨0, 0⟩, Store.ofDocs docs) := by
  rw [Store.parse, Document.read_renderForest hdocs]
  show Except.ok (Store.empty.plant _) = _
  rw [← plant_empty_fst docs]
  rfl

/-- Whether no slot has been freed too often. -/
def Store.isUnwrapped (s : Store) : Bool := s.slots.all fun slot => slot.freed < 2 ^ 32

/-- What is checked slot by slot holds of all slots. -/
theorem Store.unwrapped_of_isUnwrapped {s : Store} (hs : s.isUnwrapped = true) : Unwrapped s := by
  intro i
  unfold freedAt
  cases hi : s.slots[i]? with
  | none => simp
  | some slot =>
    obtain ⟨hlt, rfl⟩ := Array.getElem?_eq_some_iff.1 hi
    simpa using (Array.all_eq_true.1 hs) i hlt

/-- Whether a computation has failed, in a store where no slot was freed too often. -/
def Outcome.isFailure {α : Type} : EStateM.Result Halt Session α → Bool
  | .error (.failure _) σ => σ.nodes.isUnwrapped
  | _ => false

/-- A run that is seen to fail has a failure. -/
theorem Outcome.of_isFailure {α : Type} {r : EStateM.Result Halt Session α}
    (hr : isFailure r = true) : ∃ f σ, r = .error (.failure f) σ ∧ Unwrapped σ.nodes := by
  unfold isFailure at hr
  split at hr
  next f σ => exact ⟨f, σ, rfl, unwrapped_of_isUnwrapped hr⟩
  next => simp at hr

/-- Whether a computation has ended at a stale handle, in such a store. -/
def Outcome.isStale {α : Type} : EStateM.Result Halt Session α → Bool
  | .error (.fault .stale) σ => σ.nodes.isUnwrapped
  | _ => false

/-- A run that is seen to end at a stale handle does so. -/
theorem Outcome.of_isStale {α : Type} {r : EStateM.Result Halt Session α}
    (hr : isStale r = true) : ∃ σ, r = .error (.fault .stale) σ ∧ Unwrapped σ.nodes := by
  unfold isStale at hr
  split at hr
  next σ => exact ⟨σ, rfl, unwrapped_of_isUnwrapped hr⟩
  next => simp at hr

/-- Whether a computation gives a result with a property. -/
def Outcome.isOkWith {α : Type} (p : α → Session → Bool) : EStateM.Result Halt Session α → Bool
  | .ok a σ => p a σ
  | .error _ _ => false

/-- A run that is seen to give a result has one with the property. -/
theorem Outcome.of_isOkWith {α : Type} {p : α → Session → Bool} {r : EStateM.Result Halt Session α}
    (hr : isOkWith p r = true) : ∃ a σ, r = .ok a σ ∧ p a σ = true := by
  unfold isOkWith at hr
  split at hr
  next a σ => exact ⟨a, σ, rfl, hr⟩
  next => simp at hr

/-- Whether a computation has failed in a session with a property. -/
def Outcome.isFailureWith {α : Type} (p : Session → Bool) : EStateM.Result Halt Session α → Bool
  | .error (.failure _) σ => p σ
  | _ => false

/-- A run that is seen to fail has a session with the property. -/
theorem Outcome.of_isFailureWith {α : Type} {p : Session → Bool}
    {r : EStateM.Result Halt Session α} (hr : isFailureWith p r = true) :
    ∃ f σ, r = .error (.failure f) σ ∧ p σ = true := by
  unfold isFailureWith at hr
  split at hr
  next f σ => exact ⟨f, σ, rfl, hr⟩
  next => simp at hr

-- ---------------------------------------------------------------------------
-- The standard keywords
-- ---------------------------------------------------------------------------

/-- The scope of a program over the standard keywords. -/
abbrev standardScope (unknown : UnknownEvents) (settings : Settings) (fuel : Nat) : Scope :=
  (Registry.standard unknown).scope settings fuel

/-- The two ways to execute a node, and the way to execute a program. -/
inductive Start where
  | run (own : Bool)
  | runInPlace (own : Bool)
  | evaluate

/-- What is executed. -/
def Start.execute (scope : Scope) (h : Handle) : Start → Engine Unit
  | .run own => TreeScript.execute .copy scope h own
  | .runInPlace own => TreeScript.execute .inPlace scope h own
  | .evaluate => TreeScript.evaluate scope h

/-- Whatever is executed in a scope that keeps a store in order does so. -/
theorem Scope.Keeps.ensures_start {b s : Store} {T : Set Handle} {scope : Scope}
    (hscope : scope.Keeps Fence.wide b) (start : Start) (h : Handle) :
    Ensures (fun t => Held Fence.wide b s T t ∧ t.isAlive h = true) (start.execute scope h)
      (fun _ => Held Fence.wide b s T) (Held Fence.wide b s T) := by
  have hpresent : ∀ t, Unwrapped t → Held Fence.wide b s T t ∧ t.isAlive h = true →
      Held Fence.wide b s T t ∧ Fence.wide.Present t h :=
    fun t _ ht => ⟨ht.1, ht.2, Fence.inside_wide h⟩
  cases start with
  | run own => exact (ensures_execute Fence.wide_sealed hscope .copy h own).before hpresent
  | runInPlace own => exact (ensures_execute Fence.wide_sealed hscope .inPlace h own).before hpresent
  | evaluate => exact (ensures_evaluate Fence.wide_sealed hscope h).before hpresent

/-- Whatever is executed keeps a disciplined store in order. -/
theorem ensures_start {s : Store} {T : Set Handle} (unknown : UnknownEvents) (settings : Settings)
    (fuel : Nat) (start : Start) (h : Handle) :
    Ensures (fun t => Held Fence.wide s s T t ∧ t.isAlive h = true)
      (start.execute (standardScope unknown settings fuel) h) (fun _ => Held Fence.wide s s T)
      (Held Fence.wide s s T) := by
  have hscope := (Registry.keeps_standard (b := s) Fence.wide_sealed unknown).scope settings fuel
  exact hscope.ensures_start start h

-- ---------------------------------------------------------------------------
-- Single ownership
-- ---------------------------------------------------------------------------

/-- A loop on a copy, with an argument, whose body has a name that no keyword has. -/
def abandoned : List Doc :=
  [.plain "eval" (some (.expr "/../*/_b")) [.plain "_a" none []],
    .plain "_b" none [.plain "for-each" (some (.expr "/../*/_a")) [.plain "boom" none []]]]

set_option maxRecDepth 100000 in
/-- The program fails in the middle of the loop. -/
theorem abandoned_fails : ∃ σ', (Start.evaluate.execute (standardScope .error {} 6) ⟨0, 0⟩).Returns
    { nodes := Store.ofDocs abandoned } σ' ∧ ∀ i, σ'.nodes.freedAt i < 2 ^ 32 := by
  have hrun : Outcome.isFailure (evaluate (standardScope .error {} 6) ⟨0, 0⟩
      { nodes := Store.ofDocs abandoned }) = true := by cbv
  obtain ⟨f, σ', hfails, hu⟩ := Outcome.of_isFailure hrun
  exact ⟨σ', Or.inr ⟨f, hfails⟩, hu⟩

/-- The value of a node cannot be told if it points at a freed node. -/
theorem Store.singleValue_of_dangling {t : Store} {h g : Handle} {n : Node}
    (hn : t.node? h = some n) (hg : n.value.bind Value.target? = some g)
    (hdead : t.isAlive g = false) : t.singleValue h = .error (.fault .stale) := by
  obtain ⟨v, hv, hg⟩ := Option.bind_eq_some_iff.1 hg
  have hvalue : t.value h = .ok (some v) := value_eq_ok_iff.2 ⟨n, hn, hv⟩
  have hread : t.value g = .error .stale := by
    simp [Store.value, Store.node, not_isAlive_iff.1 hdead, Except.map]
  -- an owned node and a reference are both resolved to the node they name
  have hresolve : t.resolve h = .ok [.node g] := by
    cases v with
    | scalar x => simp [Value.target?] at hg
    | node x =>
      obtain rfl : x = g := by simpa [Value.target?] using hg
      simp [Store.resolve, hvalue]
      rfl
    | ref x =>
      obtain rfl : x = g := by simpa [Value.target?] using hg
      simp [Store.resolve, hvalue]
      rfl
  rw [Store.singleValue, hresolve]
  show Halt.ofFault (t.value g) = _
  rw [hread]
  rfl

/-- A program that has been read ends at a stale handle only where the value of a live
node points at a freed node; and wherever that is so, telling the value of that node ends
at a stale handle. -/
theorem evaluate_stale_only_if_dangling {text : String} {root : Handle} {s : Store}
    (hparse : Store.empty.parse text = .ok (root, s)) (unknown : UnknownEvents)
    (settings : Settings) (fuel : Nat) {σ : Session} (hσ : σ.nodes = s) :
    (∀ σ', evaluate (standardScope unknown settings fuel) root σ = .error (.fault .stale) σ' →
        (∀ i, σ'.nodes.freedAt i < 2 ^ 32) → σ'.nodes.Dangles) ∧
      ∀ t h n g, Store.node? t h = some n → n.value.bind Value.target? = some g →
        t.isAlive g = false → t.singleValue h = .error (.fault .stale) := by
  refine ⟨fun σ' hstale hu => ?_, fun t h n g hn hg hdead => singleValue_of_dangling hn hg hdead⟩
  subst hσ
  have hensures := ensures_start (s := σ.nodes) (T := { b | σ.nodes.Top b }) unknown settings fuel
    .evaluate root
  have hevolves : Evolves σ.nodes ((evaluate (standardScope unknown settings fuel) root).after σ) :=
    hensures.evolves σ
  rw [after, hstale] at hevolves
  obtain ⟨hd, hroot⟩ := disciplined_parse hparse (hevolves.unwrapped hu)
  exact hensures.stale hstale hu ⟨hd.held, hroot⟩

/-- A loop on a copy returns a reference to a node of the copy, and a keyword reads it. -/
def dangling : List Doc :=
  [.plain "_b" none [.plain "for-each" (some (.expr "/../*/_n"))
      [.plain "return" (some (.expr "/./*/_dp?value")) []], .plain "_n" none []],
    .plain "eval-mutable" (some (.expr "/+")) [],
    .plain "set-widget-property" none [.plain "eval" (some (.expr "/../*/_b")) []]]

/-- The program with a dangling reference can be written. -/
theorem readable_dangling : Doc.AllReadable dangling := by
  simp only [dangling, Doc.AllReadable, Doc.Readable, Scalar.Readable, Option.mem_def,
    Option.some.injEq, forall_eq', reduceCtorEq, false_imp_iff, implies_true, and_true, true_and,
    Doc.NameReadable]
  decide

set_option maxRecDepth 100000 in
/-- The program ends at a stale handle, of which its store has a dangling one. -/
theorem dangling_stale : ∃ σ', evaluate (standardScope .error {} 6) ⟨0, 0⟩
    { nodes := Store.ofDocs dangling } = .error (.fault .stale) σ' ∧
    ∀ i, σ'.nodes.freedAt i < 2 ^ 32 := by
  have hrun : Outcome.isStale (evaluate (standardScope .error {} 6) ⟨0, 0⟩
      { nodes := Store.ofDocs dangling }) = true := by cbv
  exact Outcome.of_isStale hrun

/-- The program, from its text on. -/
theorem evaluate_stale_only_if_dangling_reference : ∃ σ',
    Store.empty.parse (Doc.renderForest dangling) = .ok (⟨0, 0⟩, Store.ofDocs dangling) ∧
      evaluate (standardScope .error {} 6) ⟨0, 0⟩ { nodes := Store.ofDocs dangling } =
        .error (.fault .stale) σ' ∧ σ'.nodes.Dangles := by
  have hparse := parse_renderForest readable_dangling
  obtain ⟨σ', hstale, hu⟩ := dangling_stale
  exact ⟨σ', hparse, hstale,
    (evaluate_stale_only_if_dangling hparse .error {} 6 rfl).1 σ' hstale hu⟩

end TreeScript
