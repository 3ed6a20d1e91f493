import TreeScript.Proofs.Outcome
import TreeScript.Proofs.Store.Fence
import TreeScript.Path.Resolve

/-!
# TreeScript — values inside a fence

From a node inside a sealed fence every way of finding one's way stays inside: neighbours,
steps of path expressions, and whatever the value of a node leads to.

* `Item.Admitted` — what may come of a value;
* `Fenced.child?`, `Fenced.nextSibling?` and so on — neighbours;
* `Fenced.applyAll`, `Fenced.walk` — steps and paths;
* `Fenced.resolve`, `Fenced.singleValue` — values.
-/

namespace TreeScript

/-- A thing that a value leads to and that does not point out. -/
def Item.Admitted (F : Fence) : Item → Prop
  | .node h => F.Inside h
  | .value v => F.Admits v
  | .name _ => True
  | .count _ => True

namespace Store

variable {F : Fence} {b s : Store}

-- ---------------------------------------------------------------------------
-- Neighbours
-- ---------------------------------------------------------------------------

/-- A failure is no success. -/
theorem fail_ne_ok {α : Type} (s : Store) (h : Handle) (f : NodeContext → Failure) (a : α) :
    s.fail h f ≠ .ok a := by
  unfold fail
  split <;> simp

/-- The value of a node can be read just if the node is alive. -/
theorem value_eq_ok_iff {h : Handle} {v : Option Value} :
    s.value h = .ok v ↔ ∃ n, s.node? h = some n ∧ n.value = v := by
  unfold value node
  cases s.node? h <;> simp [Except.map]

/-- The children of a node on an open slot are inside. -/
theorem Fenced.children (hF : Fenced F b s) {h : Handle} (hh : F.Open h) {hs : List Handle}
    (hok : s.children h = .ok hs) : ∀ c ∈ hs, F.Inside c := by
  obtain ⟨n, hn, rfl⟩ := children_eq_ok.1 hok
  exact (hF.nodes hh hn).children

/-- The value of a node on an open slot does not point out. -/
theorem Fenced.value (hF : Fenced F b s) {h : Handle} (hh : F.Open h) {v : Value}
    (hok : s.value h = .ok (some v)) : F.Admits v := by
  obtain ⟨n, hn, hv⟩ := value_eq_ok_iff.1 hok
  exact (hF.nodes hh hn).value v hv

theorem Fenced.child? (hF : Fenced F b s) {h c : Handle} (hh : F.Open h) {i : Nat}
    (hc : s.child? h i = some c) : F.Inside c :=
  hF.childList hh (List.mem_of_getElem? hc)

theorem Fenced.childNamed? (hF : Fenced F b s) {h c : Handle} (hh : F.Open h) {name : String}
    (hc : s.childNamed? h name = .ok (some c)) : F.Inside c := by
  have hfind : ∀ hs : List Handle, (∀ x ∈ hs, F.Inside x) → s.findNamed name hs = .ok (some c) →
      F.Inside c := by
    intro hs hhs hok
    induction hs with
    | nil => simp [findNamed] at hok
    | cons x rest ih =>
      rw [findNamed] at hok
      split at hok
      next => simp at hok
      next =>
        split at hok
        next =>
          obtain rfl : x = c := by simpa using hok
          exact hhs x (by simp)
        next => exact ih (fun y hy => hhs y (List.mem_cons_of_mem _ hy)) hok
  exact hfind _ (fun x hx => hF.childList hh hx) hc

theorem Fenced.nextSibling? (hF : Fenced F b s) {h c : Handle} (hh : F.Inside h)
    (hc : s.nextSibling? h = some c) : F.Inside c := by
  obtain ⟨p, hp, hc⟩ := Option.bind_eq_some_iff.1 hc
  obtain ⟨i, -, hc⟩ := Option.bind_eq_some_iff.1 hc
  exact hF.child? (hF.parent? hh hp) hc

theorem Fenced.previousSibling? (hF : Fenced F b s) {h c : Handle} (hh : F.Inside h)
    (hc : s.previousSibling? h = some c) : F.Inside c := by
  obtain ⟨p, hp, hc⟩ := Option.bind_eq_some_iff.1 hc
  split at hc
  next i _ => exact hF.child? (hF.parent? hh hp) hc
  next => simp at hc

/-- All nodes below a node on an open slot are inside. -/
theorem Fenced.descendants (hF : Fenced F b s) {h : Handle} (hh : F.Open h) {hs : List Handle}
    (hok : s.descendants h = .ok hs) : ∀ c ∈ hs, F.Inside c := by
  -- along the walk the stack stays inside the fence
  have hwalk : ∀ fuel (stack found : List Handle), (∀ x ∈ stack, F.Inside x) →
      s.walk fuel stack = .ok found → ∀ c ∈ found, F.Inside c := by
    intro fuel
    induction fuel with
    | zero =>
      intro stack found _ hok
      cases stack with
      | nil =>
        obtain rfl : [] = found := by simpa [Store.walk] using hok
        simp
      | cons x rest => simp [Store.walk] at hok
    | succ fuel ih =>
      intro stack found hstack hok
      cases stack with
      | nil =>
        obtain rfl : [] = found := by simpa [Store.walk] using hok
        simp
      | cons x rest =>
        rw [Store.walk] at hok
        obtain ⟨below, hbelow, hok⟩ := bind_eq_ok_iff.1 hok
        obtain ⟨more, hmore, hok⟩ := bind_eq_ok_iff.1 hok
        obtain rfl := Except.ok.inj hok
        have hx := hstack x (by simp)
        have hall := ih _ more (fun y hy => by
          rcases List.mem_append.1 hy with hy | hy
          · exact hF.children hx.1 hbelow y hy
          · exact hstack y (List.mem_cons_of_mem _ hy)) hmore
        exact List.forall_mem_cons.2 ⟨hx, hall⟩
  unfold Store.descendants at hok
  obtain ⟨below, hbelow, hok⟩ := bind_eq_ok_iff.1 hok
  exact hwalk _ below hs (hF.children hh hbelow) hok

-- ---------------------------------------------------------------------------
-- Paths
-- ---------------------------------------------------------------------------

/-- A step from a node inside leads to nodes inside. -/
theorem Fenced.apply (hF : Fenced F b s) (hseal : F.Sealed) {h : Handle} (hh : F.Inside h)
    {step : Path.Step} {hs : List Handle} (hok : step.apply s h = .ok hs) :
    ∀ c ∈ hs, F.Inside c := by
  cases step with
  | root =>
    obtain rfl := Except.ok.inj hok
    exact fun c hc => hF.root? hseal.door hh (by simpa using hc)
  | parent =>
    obtain rfl := Except.ok.inj hok
    exact fun c hc => hseal.inside (hF.parent? hh (by simpa using hc))
  | children => exact hF.children hh.1 hok
  | descendants => exact hF.descendants hh.1 hok
  -- a reference may lead anywhere inside, so the fence has to be sealed
  | reference =>
    obtain ⟨v, hv, hok⟩ := bind_eq_ok_iff.1 hok
    obtain rfl := Except.ok.inj hok
    intro c hc
    obtain ⟨hc, -⟩ := Option.filter_eq_some_iff.1 (Option.mem_toList.1 hc)
    obtain ⟨x, rfl, hx⟩ := Option.bind_eq_some_iff.1 hc
    exact hseal.inside_target (hF.value hh.1 hv) hx
  | previous =>
    obtain rfl := Except.ok.inj hok
    exact fun c hc => hF.previousSibling? hh (by simpa using hc)
  | next =>
    obtain rfl := Except.ok.inj hok
    exact fun c hc => hF.nextSibling? hh (by simpa using hc)
  | index n =>
    obtain rfl := Except.ok.inj hok
    exact fun c hc => hF.child? hh.1 (by simpa using hc)
  | range first last =>
    obtain ⟨below, hbelow, hok⟩ := bind_eq_ok_iff.1 hok
    obtain rfl := Except.ok.inj hok
    exact fun c hc => hF.children hh.1 hbelow c (Path.mem_of_mem_slice hc)
  -- a test keeps the node or drops it
  | valueEquals text =>
    obtain ⟨v, -, hok⟩ := bind_eq_ok_iff.1 hok
    obtain rfl := Except.ok.inj hok
    split
    · simpa using hh
    · simp
  | named name =>
    obtain ⟨n, -, hok⟩ := bind_eq_ok_iff.1 hok
    obtain rfl := Except.ok.inj hok
    split
    · simpa using hh
    · simp

/-- A step leads from nodes inside to nodes inside. -/
theorem Fenced.applyAll (hF : Fenced F b s) (hseal : F.Sealed) {step : Path.Step}
    {hs found : List Handle} (hhs : ∀ h ∈ hs, F.Inside h) (hok : step.applyAll s hs = .ok found) :
    ∀ c ∈ found, F.Inside c := by
  unfold Path.Step.applyAll at hok
  obtain ⟨lists, hall, hok⟩ := bind_eq_ok_iff.1 hok
  obtain rfl := Except.ok.inj hok
  intro c hc
  obtain ⟨list, hlist, hc⟩ := List.mem_flatten.1 (List.mem_eraseDups.1 hc)
  obtain ⟨h, hh, happly⟩ := mem_of_mapM_eq_ok hall hlist
  exact hF.apply hseal (hhs h hh) happly c hc

/-- A path leads from nodes inside to nodes inside. -/
theorem Fenced.walk (hF : Fenced F b s) (hseal : F.Sealed) {steps : List Path.Step}
    {hs found : List Handle} (hhs : ∀ h ∈ hs, F.Inside h) (hok : Path.walk s steps hs = .ok found) :
    ∀ c ∈ found, F.Inside c := by
  induction steps generalizing hs with
  | nil =>
    obtain rfl := Except.ok.inj hok
    exact hhs
  | cons step rest ih =>
    rw [Path.walk] at hok
    obtain ⟨next, hnext, hok⟩ := bind_eq_ok_iff.1 hok
    exact ih (hF.applyAll hseal hhs hnext) hok

-- ---------------------------------------------------------------------------
-- What a value leads to
-- ---------------------------------------------------------------------------

/-- An expression gives nothing that points out. -/
theorem Fenced.evaluate (hF : Fenced F b s) (hseal : F.Sealed) {e : PathExpr} {h : Handle}
    (hh : F.Inside h) {items : List Item} (hok : e.evaluate s h = .ok items) :
    ∀ i ∈ items, i.Admitted F := by
  unfold PathExpr.evaluate at hok
  obtain ⟨found, hwalk, hok⟩ := bind_eq_ok_iff.1 hok
  -- the steps start at the node itself, if it is alive
  have hfound : ∀ c ∈ found, F.Inside c := by
    refine hF.walk hseal (fun x hx => ?_) hwalk
    split at hx
    · obtain rfl : x = h := by simpa using hx
      exact hh
    · simp at hx
  intro i hi
  split at hok
  next =>
    obtain rfl := Except.ok.inj hok
    obtain ⟨c, hc, rfl⟩ := List.mem_map.1 hi
    exact hfound c hc
  next =>
    obtain ⟨values, hvalues, hok⟩ := bind_eq_ok_iff.1 hok
    obtain rfl := Except.ok.inj hok
    obtain ⟨v, hv, rfl⟩ := List.mem_map.1 hi
    obtain ⟨v', hv', rfl⟩ := List.mem_filterMap.1 hv
    obtain ⟨c, hc, hvalue⟩ := mem_of_mapM_eq_ok hvalues hv'
    exact hF.value (hfound c hc).1 hvalue
  next =>
    obtain ⟨names, -, hok⟩ := bind_eq_ok_iff.1 hok
    obtain rfl := Except.ok.inj hok
    obtain ⟨name, -, rfl⟩ := List.mem_map.1 hi
    trivial
  next =>
    obtain rfl := Except.ok.inj hok
    obtain rfl := List.mem_singleton.1 hi
    trivial

/-- All that the value of a node inside leads to is inside. -/
theorem Fenced.resolve (hF : Fenced F b s) (hseal : F.Sealed) {h : Handle} (hh : F.Inside h)
    {items : List Item} (hok : s.resolve h = .ok items) : ∀ i ∈ items, i.Admitted F := by
  unfold Store.resolve at hok
  obtain ⟨v, hv, hok⟩ := bind_eq_ok_iff.1 hok
  rw [liftM_eq_ok_iff] at hv
  split at hok
  next =>
    obtain rfl := Except.ok.inj hok
    simp
  next text =>
    split at hok
    next => exact absurd hok (fail_ne_ok _ _ _ _)
    -- an expression is evaluated, any other value is an item as it is
    next e _ => exact hF.evaluate hseal hh (ofFault_eq_ok_iff.1 hok)
  next target =>
    obtain rfl := Except.ok.inj hok
    simpa [Item.Admitted, Fence.Admits] using hF.value hh.1 hv
  next target =>
    obtain rfl := Except.ok.inj hok
    simpa [Item.Admitted] using hseal.inside_target (hF.value hh.1 hv) rfl
  next v _ _ _ =>
    obtain rfl := Except.ok.inj hok
    simpa [Item.Admitted] using hF.value hh.1 hv

/-- The single value that a node gives does not point out. -/
theorem Fenced.singleValue (hF : Fenced F b s) (hseal : F.Sealed) {h : Handle} (hh : F.Inside h)
    {v : Value} (hok : s.singleValue h = .ok (some v)) : F.Admits v := by
  unfold Store.singleValue at hok
  obtain ⟨items, hitems, hok⟩ := bind_eq_ok_iff.1 hok
  have hall := hF.resolve hseal hh hitems
  split at hok
  next => simp at hok
  next i rest =>
    have hi := hall i (by simp)
    rw [ofFault_eq_ok_iff] at hok
    cases i with
    | node t => exact hF.value hi.1 hok
    | value w =>
      obtain rfl := Option.some.inj (Except.ok.inj hok)
      exact hi
    | name _ =>
      obtain rfl := Option.some.inj (Except.ok.inj hok)
      trivial
    | count _ =>
      obtain rfl := Option.some.inj (Except.ok.inj hok)
      trivial

end Store

end TreeScript
