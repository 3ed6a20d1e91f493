import TreeScript.Conversion
import TreeScript.Engine.Control
import TreeScript.Path.Resolve
import TreeScript.Proofs.Outcome
import TreeScript.Proofs.Store.Discipline
import TreeScript.Proofs.Store.Siblings

/-!
# TreeScript — reading in a coherent store

In a coherent store every way of finding one's way leads from live nodes to live
nodes, and so do paths. A stale handle is met only through a value: a node value or a
reference whose node has been freed. A disciplined store is coherent, and its values own
only nodes that were given out.

* `Dangles` — some live node has such a value;
* `ends_walk`, `Coherent.ends_resolve` — paths and values lead to live nodes;
* `ends_singleValue`, `ends_values`, `ends_shape` — a stale handle means that a value
  dangles;
* `ends_view`, `ends_fail`, `ends_pending` — what meets no stale handle at all.
-/

namespace TreeScript

/-- A thing that the value of some node led to: if it is a node that has been freed, then for a
reason; if it is a value, then of a live node. -/
def Item.Found (s : Store) (reason : Prop) : Item → Prop
  | .node h => s.isAlive h = false → reason
  | .value v => ∃ h n, s.node? h = some n ∧ n.value = some v
  | .name _ => True
  | .count _ => True

/-- A thing that a value led to: if it is a node that has been freed, then for a reason;
if it owns a node, that one was given out. -/
def Item.Known (s : Store) (reason : Prop) : Item → Prop
  | .node h => s.isAlive h = false → reason
  | .value v => ∀ g, v.owned? = some g → s.Issued g
  | .name _ => True
  | .count _ => True

/-- A reason may be replaced by what follows from it. -/
theorem Item.Known.mono {s : Store} {reason reason' : Prop} (h : reason → reason') {i : Item}
    (hi : i.Known s reason) : i.Known s reason' := by
  cases i with
  | node x => exact fun hx => h (hi hx)
  | value v => exact hi
  | name text => trivial
  | count n => trivial

namespace Store

variable {s : Store}

/-- A live node has a value that points at a freed node. -/
def Dangles (s : Store) : Prop :=
  ∃ h n g, s.node? h = some n ∧ n.value.bind Value.target? = some g ∧ s.isAlive g = false

-- ---------------------------------------------------------------------------
-- Data of live nodes
-- ---------------------------------------------------------------------------

theorem ends_node {h : Handle} (hh : s.isAlive h = true) {E : Fault → Prop} :
    Ends (s.node h) (fun n => s.node? h = some n) E := by
  obtain ⟨n, hn⟩ := isAlive_iff.1 hh
  rw [Store.node, hn]
  exact rfl

theorem ends_name {h : Handle} (hh : s.isAlive h = true) {E : Fault → Prop} :
    Ends (s.name h) (fun name => ∃ n, s.node? h = some n ∧ n.name = name) E :=
  (ends_node hh).map fun n hn => ⟨n, hn, rfl⟩

theorem ends_value {h : Handle} (hh : s.isAlive h = true) {E : Fault → Prop} :
    Ends (s.value h) (fun v => ∃ n, s.node? h = some n ∧ n.value = v) E :=
  (ends_node hh).map fun n hn => ⟨n, hn, rfl⟩

/-- The children of a live node are alive. -/
theorem ends_children (hlive : LiveChildren s) {h : Handle} (hh : s.isAlive h = true)
    {E : Fault → Prop} : Ends (s.children h) (fun cs => ∀ c ∈ cs, s.isAlive c = true) E :=
  (ends_node hh).map fun _ hn _ hc => hlive hn hc

/-- The children of a live node can be counted. -/
theorem ends_childCount {h : Handle} (hh : s.isAlive h = true) {E : Fault → Prop} :
    Ends (s.childCount h) (fun _ => True) E :=
  (ends_node hh).map fun _ _ => trivial

/-- A search among the children comes to an end, at a live node if it finds one. -/
theorem ends_childNamed? (hlive : LiveChildren s) (h : Handle) (name : String)
    {E : Fault → Prop} :
    Ends (s.childNamed? h name) (fun found => ∀ c, found = some c → s.isAlive c = true) E := by
  obtain ⟨found, hfound, halive⟩ := hlive.handsOutLive.childNamed h name
  rw [hfound]
  exact halive

/-- The nodes below a live node are alive. -/
theorem ends_descendants (hlive : LiveChildren s) {h : Handle} (hh : s.isAlive h = true)
    {reason : Prop} :
    Ends (s.descendants h) (fun ds => ∀ d ∈ ds, s.isAlive d = true) (Fault.Excused reason) := by
  cases hds : s.descendants h with
  | ok ds => exact hlive.handsOutLive.descendants hds
  | error e =>
    cases e with
    | stale => exact absurd hds (hlive.handsOutLive.descendants_ne_stale hh)
    | endless => trivial

-- ---------------------------------------------------------------------------
-- Paths
-- ---------------------------------------------------------------------------

theorem Coherent.isAlive_root? (hs : Coherent s) {h r : Handle} (hr : s.root? h = some r) :
    s.isAlive r = true := by
  obtain ⟨halive, hup⟩ := root?_eq_some hr
  rcases Relation.ReflTransGen.cases_tail hup with rfl | ⟨x, -, hx⟩
  · exact halive
  · exact hs.isAlive_parent hx

theorem Disciplined.coherent (hd : Disciplined s) : Coherent s := hd.linked.coherent hd.live

/-- A step leads from a live node to live nodes. -/
theorem ends_apply (hs : Coherent s) {h : Handle} (hh : s.isAlive h = true) (step : Path.Step)
    {reason : Prop} :
    Ends (step.apply s h) (fun hs => ∀ x ∈ hs, s.isAlive x = true) (Fault.Excused reason) := by
  have hlive := hs.live
  cases step with
  | root => exact fun x hx => hs.isAlive_root? (by simpa using hx)
  | parent => exact fun x hx => hs.isAlive_parent (by simpa using hx)
  | children => exact ends_children hlive hh
  | descendants => exact ends_descendants hlive hh
  | reference =>
    refine (ends_value hh).bind fun v _ x hx => ?_
    exact (Option.filter_eq_some_iff.1 (Option.mem_toList.1 hx)).2
  | previous => exact fun x hx => hlive.handsOutLive.previousSibling (by simpa using hx)
  | next => exact fun x hx => hlive.handsOutLive.nextSibling (by simpa using hx)
  | index n => exact fun x hx => hlive.handsOutLive.child (by simpa using hx)
  | range first last =>
    refine (ends_children hlive hh).bind fun below hbelow x hx => hbelow x ?_
    exact Path.mem_of_mem_slice hx
  -- a test keeps the node or drops it
  | valueEquals text =>
    refine (ends_value hh).bind fun v _ => ?_
    show ∀ x ∈ ite _ _ _, _
    split
    · simpa using hh
    · simp
  | named name =>
    refine (ends_name hh).bind fun n _ => ?_
    show ∀ x ∈ ite _ _ _, _
    split
    · simpa using hh
    · simp

/-- A path leads from live nodes to live nodes. -/
theorem ends_walk (hco : Coherent s) {steps : List Path.Step} {hs : List Handle}
    (hhs : ∀ h ∈ hs, s.isAlive h = true) {reason : Prop} :
    Ends (Path.walk s steps hs) (fun found => ∀ x ∈ found, s.isAlive x = true)
      (Fault.Excused reason) := by
  induction steps generalizing hs with
  | nil => exact hhs
  | cons step rest ih =>
    rw [Path.walk]
    refine Ends.bind (P := fun next => ∀ x ∈ next, s.isAlive x = true) ?_ fun next hnext => ih hnext
    refine (Ends.mapM fun h hh => ends_apply hco (hhs h hh) step).bind fun found hfound x hx => ?_
    obtain ⟨list, hlist, hx⟩ := List.mem_flatten.1 (List.mem_eraseDups.1 hx)
    exact hfound list hlist x hx

theorem Disciplined.issued_of_value (hd : Disciplined s) {h : Handle} {n : Node}
    (hn : s.node? h = some n) {v : Value} (hv : n.value = some v) {g : Handle}
    (hg : v.owned? = some g) : s.Issued g :=
  hd.issued (owns_iff.2 ⟨n, hn, by simp [Node.owned?, hv, hg]⟩)

/-- An expression gives live nodes, and values of live nodes. -/
theorem Coherent.ends_evaluate (hs : Coherent s) (e : PathExpr) (h : Handle) {reason : Prop} :
    Ends (e.evaluate s h) (fun items => ∀ i ∈ items, i.Found s reason) (Fault.Excused reason) := by
  unfold PathExpr.evaluate PathExpr.nodes
  refine (ends_walk hs fun x hx => ?_).bind fun found hfound => ?_
  · split at hx
    next hh =>
      obtain rfl : x = h := by simpa using hx
      exact hh
    next => simp at hx
  -- one goal for each thing that an expression may ask for
  · split
    · intro i hi
      obtain ⟨x, hx, rfl⟩ := List.mem_map.1 hi
      simp [Item.Found, hfound x hx]
    · refine Ends.bind (P := fun values => ∀ v ∈ values, ∃ x n, s.node? x = some n ∧ n.value = v)
        (Ends.mapM fun x hx => (ends_value (hfound x hx)).mono
          (fun v ⟨n, hn, hv⟩ => ⟨x, n, hn, hv⟩) fun _ he => he) fun values hvalues i hi => ?_
      obtain ⟨v, hv, rfl⟩ := List.mem_map.1 hi
      obtain ⟨v', hv', hvv⟩ := List.mem_filterMap.1 hv
      obtain ⟨x, n, hn, hx⟩ := hvalues v' hv'
      exact ⟨x, n, hn, hx.trans hvv⟩
    · refine (Ends.mapM (Q := fun _ => True) fun x hx =>
        (ends_name (hfound x hx)).mono (fun _ _ => trivial) fun _ he => he).bind
        fun names _ i hi => ?_
      obtain ⟨name, -, rfl⟩ := List.mem_map.1 hi
      trivial
    · intro i hi
      obtain rfl := List.mem_singleton.1 hi
      trivial

-- ---------------------------------------------------------------------------
-- Failures and documents
-- ---------------------------------------------------------------------------

/-- A live node can be shown: what its values point at is looked at only if it is there. -/
theorem ends_viewWithin (hlive : LiveChildren s) {fuel : Nat} {h : Handle}
    (hh : s.isAlive h = true) {reason : Prop} :
    Ends (s.viewWithin fuel h) (fun _ => True) (Fault.Excused reason) := by
  induction fuel generalizing h with
  | zero => trivial
  | succ fuel ih =>
    have hall : ∀ hs : List Handle, (∀ x ∈ hs, s.isAlive x = true) →
        Ends (hs.mapM (s.viewWithin fuel)) (fun _ => True) (Fault.Excused reason) :=
      fun hs hhs => (Ends.mapM fun x hx => ih (hhs x hx)).mono (fun _ _ => trivial) fun _ he => he
    rw [Store.viewWithin]
    refine (ends_node hh).bind fun n hn => ?_
    have hchildren := hall n.children fun c hc => hlive hn hc
    split
    next target _ =>
      exact (hall _ fun c hc => hlive.of_mem_childList hc).bind fun _ _ =>
        hchildren.bind fun _ _ => trivial
    next => exact hchildren.bind fun _ _ => trivial

/-- A live node can be seen, or its tree has no end. -/
theorem ends_view (hlive : LiveChildren s) {h : Handle} (hh : s.isAlive h = true) {reason : Prop} :
    Ends (s.view h) (fun _ => True) (Fault.Excused reason) := ends_viewWithin hlive hh

/-- The children of a live node can be written, or have no end. -/
theorem ends_renderBelow (hlive : LiveChildren s) {h : Handle} (hh : s.isAlive h = true)
    {reason : Prop} : Ends (s.renderBelow h) (fun _ => True) (Fault.Excused reason) := by
  refine Ends.map (P := fun _ => True) ((ends_children hlive hh).bind fun below hbelow => ?_)
    fun _ _ => trivial
  exact (Ends.mapM fun x hx => ends_view hlive (hbelow x hx)).mono (fun _ _ => trivial)
    fun _ he => he

/-- A value can be displayed. A reference to what is gone has a text of its own. -/
theorem ends_display (hlive : LiveChildren s) (v : Value) (encode : Bool) {reason : Prop} :
    Ends (s.display v encode) (fun _ => True) (Fault.Excused reason) := by
  cases v with
  | scalar x => trivial
  | node h =>
    show Ends (if s.isAlive h then _ else _) _ _
    split
    next hh => exact ends_renderBelow hlive hh
    next => trivial
  | ref h =>
    show Ends (if s.isAlive h then _ else _) _ _
    split
    next hh => exact ends_renderBelow hlive hh
    next => trivial

/-- The context of a node can be told, also of a removed one. -/
theorem ends_describe (hlive : LiveChildren s) (h : Handle) {reason : Prop} :
    Ends (s.describe h) (fun _ => True) (Fault.Excused reason) := by
  unfold Store.describe
  split
  next => trivial
  next n hn =>
    exact Ends.map (P := fun _ => True)
      ((ends_view hlive (isAlive_iff.2 ⟨n, hn⟩)).map fun _ _ => trivial) fun _ _ => trivial

/-- A failure with a context meets no stale handle. -/
theorem ends_fail {α : Type} (hlive : LiveChildren s) (h : Handle) (f : NodeContext → Failure)
    {P : α → Prop} {reason : Prop} : Ends (s.fail h f : Except Halt α) P (Halt.Excused reason) := by
  have hdescribe : Ends (s.describe h) (fun _ => True) (Fault.Excused reason) :=
    ends_describe hlive h
  unfold Store.fail
  split
  next => trivial
  next fault heq =>
    rw [heq] at hdescribe
    exact hdescribe

/-- Looking for a signal meets no stale handle. -/
theorem ends_pending (hlive : LiveChildren s) (h : Handle) {E : Fault → Prop} :
    Ends (s.pending h) (fun _ => True) E := by
  unfold Store.pending
  split
  next => trivial
  next first hf =>
    obtain ⟨r, -, hfirst⟩ := Option.bind_eq_some_iff.1 hf
    have halive := hlive.of_mem_childList (List.mem_of_head? hfirst)
    exact (ends_name halive).map fun _ _ => trivial

-- ---------------------------------------------------------------------------
-- Values
-- ---------------------------------------------------------------------------

/-- What the value of a live node leads to is found; a freed node among it, and a stale handle,
are met only where this value itself points at a freed node. -/
theorem Coherent.ends_resolve (hs : Coherent s) {h : Handle} (hh : s.isAlive h = true)
    {reason : Prop}
    (hreason : ∀ n g, s.node? h = some n → n.value.bind Value.target? = some g →
      s.isAlive g = false → reason) :
    Ends (s.resolve h) (fun items => ∀ i ∈ items, i.Found s reason) (Halt.Excused reason) := by
  unfold Store.resolve
  refine (ends_value hh).ofFault.bind fun v ⟨n, hn, hv⟩ => ?_
  -- a target that is gone is the excuse that the caller has named
  have hdangles : ∀ {w g}, v = some w → w.target? = some g → s.isAlive g = false → reason :=
    fun hw hg => hreason n _ hn (by simp [hv, hw, hg])
  split
  next => simp [Ends]
  next text =>
    split
    next => exact ends_fail hs.live h _
    next e _ => exact (hs.ends_evaluate e h).ofFault
  next target =>
    intro i hi
    obtain rfl := List.mem_singleton.1 hi
    exact hdangles rfl rfl
  next target =>
    intro i hi
    obtain rfl := List.mem_singleton.1 hi
    exact hdangles rfl rfl
  next v _ _ _ =>
    intro i hi
    obtain rfl := List.mem_singleton.1 hi
    exact ⟨h, n, hn, hv⟩

/-- What is found in a disciplined store is known. -/
theorem Disciplined.known_of_found (hd : Disciplined s) {reason : Prop} {i : Item}
    (hi : i.Found s reason) : i.Known s reason := by
  cases i with
  | node x => exact hi
  | value v =>
    obtain ⟨h, n, hn, hv⟩ := hi
    exact fun g hg => hd.issued_of_value hn hv hg
  | name text => trivial
  | count n => trivial

/-- What the value of a live node leads to is known; a stale handle means that something dangles. -/
theorem ends_resolve (hd : Disciplined s) {h : Handle} (hh : s.isAlive h = true) :
    Ends (s.resolve h) (fun items => ∀ i ∈ items, i.Known s s.Dangles)
      (Halt.Excused s.Dangles) := by
  refine (hd.coherent.ends_resolve hh fun n g hn hg hdead => ?_).mono (fun items hitems i hi => ?_)
    fun _ he => he
  · exact ⟨h, n, g, hn, hg, hdead⟩
  · exact hd.known_of_found (hitems i hi)

/-- The value of a known thing, which owns only nodes that were given out. -/
theorem ends_itemValue (hd : Disciplined s) {i : Item} {reason : Prop} (hi : i.Known s reason) :
    Ends (s.itemValue i)
      (fun v => ∀ w, v = some w → ∀ g, w.owned? = some g → s.Issued g) (Fault.Excused reason) := by
  cases i with
  | node x =>
    cases hx : s.isAlive x with
    | true =>
      refine (ends_value hx).mono (fun v ⟨n, hn, hv⟩ w hw g hg => ?_) fun _ he => he
      exact hd.issued_of_value hn (hv.trans hw) hg
    -- a node that is gone since is read with the excuse that the item carries
    | false =>
      rw [Store.itemValue, Store.value, Store.node, not_isAlive_iff.1 hx]
      exact hi hx
  | value v =>
    rintro w hw g hg
    obtain rfl := Option.some.inj hw
    exact hi g hg
  | name text =>
    rintro w hw g hg
    obtain rfl := Option.some.inj hw
    simp [Value.owned?] at hg
  | count n =>
    rintro w hw g hg
    obtain rfl := Option.some.inj hw
    simp [Value.owned?] at hg

/-- The single value of a live node owns what was given out, if anything. -/
theorem ends_singleValue (hd : Disciplined s) {h : Handle} (hh : s.isAlive h = true) :
    Ends (s.singleValue h)
      (fun v => ∀ w, v = some w → ∀ g, w.owned? = some g → s.Issued g)
      (Halt.Excused s.Dangles) := by
  unfold Store.singleValue
  refine (ends_resolve hd hh).bind fun items hitems => ?_
  split
  next => simp [Ends]
  next item rest => exact (ends_itemValue hd (hitems item (by simp))).ofFault

/-- The single value of a live node is found, or what its own value points at is gone. -/
theorem Coherent.ends_singleValue (hs : Coherent s) {h : Handle} (hh : s.isAlive h = true)
    {reason : Prop}
    (hreason : ∀ n g, s.node? h = some n → n.value.bind Value.target? = some g →
      s.isAlive g = false → reason) :
    Ends (s.singleValue h) (fun _ => True) (Halt.Excused reason) := by
  unfold Store.singleValue
  refine (hs.ends_resolve hh hreason).bind fun items hitems => ?_
  split
  next => trivial
  next item rest =>
    cases item with
    | node x =>
      refine Ends.ofFault ?_
      cases hx : s.isAlive x with
      | true => exact (ends_value hx).mono (fun _ _ => trivial) fun _ he => he
      | false =>
        rw [Store.itemValue, Store.value, Store.node, not_isAlive_iff.1 hx]
        exact hitems (.node x) (by simp) hx
    | value v => trivial
    | name text => trivial
    | count n => trivial

/-- The texts that a live node gives are found, or something dangles. -/
theorem ends_strings (hd : Disciplined s) {h : Handle} (hh : s.isAlive h = true) :
    Ends (s.strings h) (fun _ => True) (Halt.Excused s.Dangles) := by
  unfold Store.strings Store.values
  refine Ends.bind (P := fun _ => True) ?_ fun _ _ => trivial
  refine (ends_resolve hd hh).bind fun items hitems => ?_
  refine ((Ends.mapM fun i hi => ends_itemValue hd (hitems i hi)).ofFault).bind fun _ _ => trivial

-- ---------------------------------------------------------------------------
-- Contents
-- ---------------------------------------------------------------------------

/-- The content of a live node can be told unless some value in it dangles. -/
theorem ends_shapeWithin (hlive : LiveChildren s) {fuel : Nat} {h : Handle}
    (hh : s.isAlive h = true) :
    Ends (s.shapeWithin fuel h) (fun _ => True) (Fault.Excused s.Dangles) := by
  induction fuel generalizing h with
  | zero => trivial
  | succ fuel ih =>
    rw [Store.shapeWithin]
    refine (ends_node hh).bind fun n hn => ?_
    -- the children are alive, so they are read without an excuse of their own
    have hchildren : Ends (n.children.mapM (s.shapeWithin fuel)) (fun _ => True)
        (Fault.Excused s.Dangles) :=
      (Ends.mapM fun x hx => ih (hlive hn hx)).mono (fun _ _ => trivial) fun _ he => he
    split
    next => exact hchildren.bind fun _ _ => trivial
    next => exact hchildren.bind fun _ _ => trivial
    next nested hv =>
      refine Ends.bind (P := fun _ => True) ?_ fun _ _ => hchildren.bind fun _ _ => trivial
      cases hx : s.isAlive nested with
      | true => exact ih hx
      -- an owned node that is gone is a value that dangles
      | false =>
        cases fuel with
        | zero => trivial
        | succ fuel =>
          rw [Store.shapeWithin, Store.node, not_isAlive_iff.1 hx]
          exact ⟨h, n, nested, hn, by simp [hv, Value.target?], hx⟩
    next => exact hchildren.bind fun _ _ => trivial

/-- So it can be copied unless some value in it dangles. -/
theorem ends_deepClone (hd : Disciplined s) (hu : Unwrapped s) {h : Handle}
    (hh : s.isAlive h = true) :
    Ends (s.deepClone h) (fun r => s.deepClone h = .ok r) (Fault.Excused s.Dangles) := by
  have hshape : Ends (s.shape h) (fun _ => True) (Fault.Excused s.Dangles) :=
    ends_shapeWithin hd.live hh
  rw [hd.balanced.deepClone_eq fun _ hy => hd.fixed hu hh hy]
  cases hread : s.shape h with
  | ok x => exact rfl
  | error e =>
    rw [hread] at hshape
    exact hshape

end Store

end TreeScript
