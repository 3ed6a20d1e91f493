import TreeScript.Proofs.Twin.Plant

/-!
# TreeScript — what a value leads to on both sides

An expression that is evaluated at nodes that stand for each other finds nodes that do, in the
same order and each once. So a value leads to the same things on both sides.

* `Twins.step`, `Twins.applyAll`, `Twins.walkPath` — the steps of an expression;
* `Twins.evaluate`, `Twins.resolve` — what a value leads to;
* `Twins.singleValue`, `Twins.strings` — the same as values;
* `Twins.startPosition`, `Twins.advance` — where a statement loop starts and goes on.
-/

namespace TreeScript.Store

open Paired

variable {ρ : Pairing} {s t : Store} {a b : Handle}

namespace Twins

-- ---------------------------------------------------------------------------
-- Expressions
-- ---------------------------------------------------------------------------

/-- One step of a path from nodes that stand for each other. -/
theorem step (h : Twins ρ s t) (hs : Linked s) (ht : Linked t) (hab : ρ a b) (step : Path.Step) :
    Concur ρ (step.apply s a) (step.apply t b) := by
  cases step with
  | root => exact .ok (Paired.Matches.toList (h.root? hs ht hab))
  | parent => exact .ok (Paired.Matches.toList (h.parent? hab))
  | children => exact h.children hab
  | descendants => exact h.descendants hab
  | reference =>
    refine (h.value hab).bind fun v w hvw => .ok (Paired.Matches.toList ?_)
    have htarget := Paired.Matches.target? hvw
    generalize v.bind Value.target? = x, w.bind Value.target? = y at htarget
    cases htarget with
    | none => exact .none
    | some hgh =>
      simp only [Option.filter, h.isAlive hgh]
      split
      · exact .some hgh
      · exact .none
  | previous => exact .ok (Paired.Matches.toList (h.previousSibling? hab))
  | next => exact .ok (Paired.Matches.toList (h.nextSibling? hab))
  | index n => exact .ok (Paired.Matches.toList (h.child? hab n))
  | range first last =>
    refine (h.children hab).bind fun xs ys hxs => .ok ?_
    simp only [Path.slice, Paired.Matches.length hxs]
    exact List.forall₂_drop _ (List.forall₂_take _ hxs)
  -- a test comes out the same for paired nodes
  | valueEquals text =>
    refine (h.value hab).bind fun v w hvw => .ok ?_
    have htext : v.bind (Value.scalarText? false) = w.bind (Value.scalarText? false) := by
      cases hvw with
      | none => rfl
      | some hvw => exact Value.Same.scalarText? hvw false
    rw [htext]
    split
    · exact .cons hab .nil
    · exact .nil
  | named name =>
    refine (h.name hab).bind fun n m hnm => .ok ?_
    rw [Plain.eq hnm]
    split
    · exact .cons hab .nil
    · exact .nil

/-- One step from each member of two lists. -/
theorem applyAll (h : Twins ρ s t) (hs : Linked s) (ht : Linked t) (step : Path.Step)
    {xs ys : List Handle} (hxs : Matches ρ xs ys) :
    Concur ρ (step.applyAll s xs) (step.applyAll t ys) := by
  have hsteps := Concur.mapM hxs fun _ _ hxy => h.step hs ht hxy step
  refine hsteps.bind fun found found' hfound => ?_
  exact .ok (h.oneToOne.eraseDups (Paired.Matches.flatten hfound))

/-- The steps of a path, one after another. -/
theorem walkPath (h : Twins ρ s t) (hs : Linked s) (ht : Linked t) (steps : List Path.Step)
    {xs ys : List Handle} (hxs : Matches ρ xs ys) :
    Concur ρ (Path.walk s steps xs) (Path.walk t steps ys) := by
  induction steps generalizing xs ys with
  | nil => exact .ok hxs
  | cons step rest ih => exact (h.applyAll hs ht step hxs).bind fun _ _ hfound => ih hfound

/-- A path leads to items that say the same. -/
theorem evaluate (h : Twins ρ s t) (hs : Linked s) (ht : Linked t) (e : PathExpr) (hab : ρ a b) :
    Concur ρ (e.evaluate s a) (e.evaluate t b) := by
  -- the walk starts at both nodes or at neither
  have hstart : Matches ρ (if s.isAlive a then [a] else []) (if t.isAlive b then [b] else []) := by
    rw [h.isAlive hab]
    split
    · exact .cons hab .nil
    · exact .nil
  rw [PathExpr.evaluate, PathExpr.evaluate]
  refine (h.walkPath hs ht e.steps hstart).bind fun xs ys hxs => ?_
  -- one goal for each thing that an expression may ask for
  split
  · exact .ok (Paired.Matches.map hxs fun _ _ hxy => .node hxy)
  · refine (Concur.mapM hxs fun _ _ hxy => h.value hxy).bind fun vs ws hvs => .ok ?_
    exact Paired.Matches.map (Paired.Matches.filterMap hvs fun _ _ hvw => hvw) fun _ _ hvw =>
      .value hvw
  · refine (Concur.mapM hxs fun _ _ hxy => h.name hxy).bind fun ns ms hns => .ok ?_
    exact Paired.Matches.map hns fun n m hnm => by
      rw [Plain.eq hnm]
      exact .name _
  · rw [Paired.Matches.length hxs]
    exact .ok (.cons (.count _) .nil)

/-- What a value leads to. -/
theorem resolve (h : Twins ρ s t) (hs : Linked s) (ht : Linked t) (hab : ρ a b) :
    Concur ρ (s.resolve a) (t.resolve b) := by
  rw [Store.resolve, Store.resolve]
  refine Concur.bind (h.value hab).ofFault fun v w hvw => ?_
  cases hvw with
  | none => exact .ok .nil
  | some hvw =>
    cases hvw with
    | node hgh => exact .ok (.cons (.node hgh) .nil)
    | ref hgh => exact .ok (.cons (.node hgh) .nil)
    | scalar v =>
      cases v with
      | expr text =>
        simp only
        cases PathExpr.parse text with
        | error cause => exact h.fail hab _
        | ok e => exact (h.evaluate hs ht e hab).ofFault
      | _ => exact .ok (.cons (.value (.scalar _)) .nil)

/-- The value of an item: what a reference points at must be there, on both sides or on none. -/
theorem itemValue (h : Twins ρ s t) {i j : Item} (hij : Item.Same ρ i j) :
    Concur ρ (s.itemValue i) (t.itemValue j) := by
  cases hij with
  | node hxy => exact h.value hxy
  | value hvw => exact .ok (.some hvw)
  | name text => exact .ok (.some (.scalar _))
  | count n => exact .ok (.some (.scalar _))

/-- The one value that a node gives, or the same fault. -/
theorem singleValue (h : Twins ρ s t) (hs : Linked s) (ht : Linked t) (hab : ρ a b) :
    Concur ρ (s.singleValue a) (t.singleValue b) := by
  rw [Store.singleValue, Store.singleValue]
  refine (h.resolve hs ht hab).bind fun xs ys hxs => ?_
  cases hxs with
  | nil => exact .ok .none
  | cons hij _ => exact (h.itemValue hij).ofFault

theorem strings (h : Twins ρ s t) (hs : Linked s) (ht : Linked t) (hab : ρ a b) :
    Concur ρ (s.strings a) (t.strings b) := by
  rw [Store.strings, Store.strings, Store.values, Store.values]
  refine Concur.bind ((h.resolve hs ht hab).bind fun xs ys hxs =>
    Concur.bind (Concur.mapM hxs fun _ _ hij => h.itemValue hij).ofFault fun vs ws hvs =>
      .ok (Paired.Matches.filterMap hvs fun _ _ hvw => hvw)) fun vs ws hvs => .ok ?_
  refine Paired.Matches.filterMap hvs fun v w hvw => ?_
  rw [Value.Same.scalarText? hvw false]
  exact Plain.refl _

-- ---------------------------------------------------------------------------
-- Statement loops
-- ---------------------------------------------------------------------------

/-- Numbers are read from values without looking at their handles. -/
theorem toInteger (c : Converter) {v w : Value} (hvw : Value.Same ρ v w) :
    c.toInteger v = c.toInteger w := by
  cases hvw <;> rfl

theorem startPosition (h : Twins ρ s t) (hs : Linked s) (ht : Linked t) (settings : Settings)
    (hab : ρ a b) {m k : Option Handle} (hmk : Matches ρ m k) :
    Concur ρ (startPosition settings s a m) (startPosition settings t b k) := by
  unfold TreeScript.startPosition
  cases hmk with
  | none => exact .ok (Plain.refl _)
  | some hmk =>
    refine (h.singleValue hs ht hmk).bind fun v w hvw => ?_
    cases hvw with
    | none => exact .ok (Plain.refl _)
    | some hvw =>
      -- paired values convert to the same number, or fail alike
      simp only [toInteger settings.converter hvw]
      split
      · exact h.fail hmk _
      · refine Concur.bind (h.childCount hab).ofFault fun n m hnm => ?_
        rw [Plain.eq hnm]
        split
        · exact h.fail hmk _
        · split
          · exact .ok .none
          · split
            · exact h.fail hab _
            · exact .ok (Plain.refl _)

/-- The neighbours of a node that is about to be executed. -/
theorem surroundings (h : Twins ρ s t) (hab : ρ a b) :
    Matches ρ (Surroundings.ofNode s a) (Surroundings.ofNode t b) :=
  ⟨h.parent? hab, h.previousSibling? hab, h.nextSibling? hab⟩

/-- Optional data with defaults that say the same. -/
theorem getD {α : Type} [Paired α] {x y : Option α} {d e : α} (hxy : Matches ρ x y)
    (hde : Matches ρ d e) : Matches ρ (x.getD d) (y.getD e) := by
  cases hxy with
  | none => exact hde
  | some h => exact h

/-- Where the search for the next node begins. -/
theorem firstAfter (h : Twins ρ s t) {p q : Handle} (hpq : ρ p q) {x y : Option Handle}
    (hxy : Matches ρ x y) (hab : ρ a b) :
    ρ (Surroundings.firstAfter s p x a) (Surroundings.firstAfter t q y b) := by
  have hfront : Matches ρ ((s.childList p).takeWhile (· != a)) ((t.childList q).takeWhile (· != b)) :=
    Paired.Matches.takeWhile (h.childList hpq) fun _ _ hgh => by
      rw [bne, bne, h.oneToOne.beq_eq hgh hab]
  have hback := Paired.Matches.takeWhile (List.forall₂_reverse_iff.2 hfront)
    (p := fun g => some g != x) (q := fun g => some g != y) fun _ _ hgh => by
      rw [bne, bne, h.oneToOne.option_beq_eq (.some hgh) hxy]
  exact getD (Paired.Matches.getLast? hback) hab

/-- The next node to be executed stands for the next one on the other side. -/
theorem advance (h : Twins ρ s t) {x y : Surroundings} (hxy : Matches ρ x y) (hab : ρ a b) :
    Matches ρ (x.advance s a) (y.advance t b) := by
  obtain ⟨hparent, hprevious, hfollowing⟩ := hxy
  -- a paired node stands in a tree on both sides or on neither
  have hplaced : ∀ {g k : Handle}, ρ g k → (s.parent? g).isSome = (t.parent? k).isSome := by
    intro g k hgk
    have hp := h.parent? hgk
    generalize s.parent? g = p, t.parent? k = q at hp
    cases hp <;> rfl
  have hnext : Matches ρ (x.following.filter fun f => (s.parent? f).isSome)
      (y.following.filter fun f => (t.parent? f).isSome) := by
    generalize x.following = f, y.following = g at hfollowing
    cases hfollowing with
    | none => exact .none
    | some hfg =>
      simp only [Option.filter, hplaced hfg]
      split
      · exact .some hfg
      · exact .none
  -- the previous node is still where it was, or on neither side
  have hinPlace : (x.previous.all fun g => s.parent? g == x.parent) =
      y.previous.all fun g => t.parent? g == y.parent := by
    generalize x.previous = f, y.previous = g at hprevious
    cases hprevious with
    | none => rfl
    | some hfg => exact h.oneToOne.option_beq_eq (h.parent? hfg) hparent
  rw [Surroundings.advance, Surroundings.advance]
  simp only [hplaced hab, hinPlace]
  -- three ways to go on, each decided alike
  generalize x.following.filter _ = f, y.following.filter _ = g at hnext
  split
  · have hsibling := h.nextSibling? hab
    generalize s.nextSibling? a = k, t.nextSibling? b = l at hsibling
    cases hsibling with
    | none => exact hnext
    | some hkl => exact .some hkl
  · cases hnext with
    | none => exact .none
    | @some f g hfg =>
      have hp := h.parent? hfg
      simp only
      generalize s.parent? f = p, t.parent? g = q at hp
      cases hp with
      | none => exact .some hfg
      | some hpq =>
        simp only [h.oneToOne.option_eq_iff (.some hpq) hparent]
        split
        · exact .some (h.firstAfter hpq hprevious hfg)
        · exact .some hfg

end Twins

end TreeScript.Store
