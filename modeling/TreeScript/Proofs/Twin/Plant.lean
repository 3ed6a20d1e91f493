import TreeScript.Proofs.Twin.Content
import TreeScript.Proofs.Twin.Edits

/-!
# TreeScript — copies and texts on both sides

Contents that say the same, planted on both sides, leave stores that say the same; so do copies
of nodes that stand for each other, and a text that is read on both sides. What is shown of
such nodes is equal.

* `Alike.plant`, `Alike.plantBelow` — planting them;
* `Twins.shape`, `Alike.copied` — copies;
* `Alike.load` — texts;
* `Twins.view`, `Twins.describe`, `Twins.display` — what is shown.
-/

namespace TreeScript

open Paired

namespace Store

variable {ρ : Pairing} {s t : Store} {a b : Handle}

-- ---------------------------------------------------------------------------
-- Planting
-- ---------------------------------------------------------------------------

/-- A new tree is put below nodes that stand for each other. -/
theorem Alike.linkLast {s₀ t₀ : Store} {p q c d : Handle} (h : Alike ρ s t) (hs₀ : Linked s₀)
    (ht₀ : Linked t₀) (hc : Planted s₀ c s) (hd : Planted t₀ d t) (hp : s₀.isAlive p = true)
    (hq : t₀.isAlive q = true) (hpq : ρ p q) (hcd : ρ c d) (hu : Unwrapped (s.linkLast p c))
    (hu' : Unwrapped (t.linkLast q d)) : Alike ρ (s.linkLast p c) (t.linkLast q d) := by
  have hs : Evolves s (s.linkLast p c) := .link _ _ _ _
  have ht : Evolves t (t.linkLast q d) := .link _ _ _ _
  refine h.later hs ht hu hu' ?_ (fun _ _ => .inl)
    ⟨hs.balanced h.left.balanced, hs₀.linkLast_planted h.left.linked hc hp⟩
    ⟨ht.balanced h.right.balanced, ht₀.linkLast_planted h.right.linked hd hq⟩
  rw [Store.linkLast, Store.linkLast, Paired.Matches.length (h.childList hpq)]
  exact h.link hpq hcd _

/-- A new node on both sides, and more that is made below it. -/
theorem Alike.create_below (h : Alike ρ s t) (name : String) {v w : Option Value}
    (hvw : Matches ρ v w) {s' t' : Store} (hs : Evolves (s.create name v).2 s')
    (ht : Evolves (t.create name w).2 t') (hu : Unwrapped s') (hu' : Unwrapped t')
    (hbelow : ∀ ρ₁, ρ ≤ ρ₁ → Alike ρ₁ (s.create name v).2 (t.create name w).2 →
      ρ₁ (s.create name v).1 (t.create name w).1 →
      (s.create name v).2.isAlive (s.create name v).1 = true →
      (t.create name w).2.isAlive (t.create name w).1 = true →
      ∃ ρ', ρ₁ ≤ ρ' ∧ Alike ρ' s' t') :
    ∃ ρ', ρ ≤ ρ' ∧ Alike ρ' s' t' ∧ ρ' (s.create name v).1 (t.create name w).1 := by
  have hmade := h.create name hvw (hs.unwrapped hu) (ht.unwrapped hu')
  obtain ⟨ρ', hle, hend⟩ := hbelow _ (Pairing.le_with _ _ _) hmade (Pairing.with_self _ _ _)
    (isAlive_iff.2 ⟨_, h.left.balanced.node?_create_self name _⟩)
    (isAlive_iff.2 ⟨_, h.right.balanced.node?_create_self name _⟩)
  exact ⟨ρ', (Pairing.le_with _ _ _).trans hle, hend, hle _ _ (Pairing.with_self _ _ _)⟩

mutual

/-- Contents that say the same are planted on both sides. -/
theorem Alike.plant {ρ : Pairing} {s t : Store} (h : Alike ρ s t) : {x y : Shape} →
    Shape.Same ρ x y → Unwrapped (s.plant x).2 → Unwrapped (t.plant y).2 →
    ∃ ρ', ρ ≤ ρ' ∧ Alike ρ' (s.plant x).2 (t.plant y).2 ∧ ρ' (s.plant x).1 (t.plant y).1
  | .plain name value xs, .plain _ _ ys, ⟨rfl, rfl, hxs⟩, hu, hu' => by
    rw [Store.plant, Store.plant] at *
    have hv : Matches ρ (value.map Value.scalar) (value.map Value.scalar) := by
      cases value with
      | none => exact .none
      | some v => exact .some (.scalar v)
    exact h.create_below name hv (.plantBelow _ _ _) (.plantBelow _ _ _) hu hu'
      fun ρ₁ hle hmade hpair hc hd => hmade.plantBelow hpair hc hd (hxs.mono hle) hu hu'
  | .holder name x xs, .holder _ y ys, ⟨rfl, hxy, hxs⟩, hu, hu' => by
    rw [Store.plant, Store.plant] at *
    -- the owned trees are planted first and paired, then the nodes that own them
    obtain ⟨ρ₀, hle₀, hinner, hroots⟩ := h.plant hxy
      (((Evolves.create _ _ _).trans (.plantBelow _ _ _)).unwrapped hu)
      (((Evolves.create _ _ _).trans (.plantBelow _ _ _)).unwrapped hu')
    obtain ⟨ρ', hle', hend, hpair⟩ := hinner.create_below name (.some (.node hroots))
      (.plantBelow _ _ _) (.plantBelow _ _ _) hu hu' fun ρ₁ hle hmade hpair hc hd =>
        hmade.plantBelow hpair hc hd (hxs.mono (hle₀.trans hle)) hu hu'
    exact ⟨ρ', hle₀.trans hle', hend, hpair⟩
  | .pointer name a xs, .pointer _ b ys, ⟨rfl, hab, hxs⟩, hu, hu' => by
    rw [Store.plant, Store.plant] at *
    exact h.create_below name (.some (.ref hab)) (.plantBelow _ _ _) (.plantBelow _ _ _) hu hu'
      fun ρ₁ hle hmade hpair hc hd => hmade.plantBelow hpair hc hd (hxs.mono hle) hu hu'

/-- Contents that say the same are planted below nodes that stand for each other. -/
theorem Alike.plantBelow {ρ : Pairing} {s t : Store} (h : Alike ρ s t) {p q : Handle}
    (hpq : ρ p q) (hp : s.isAlive p = true) (hq : t.isAlive q = true) : {xs ys : List Shape} →
    Shape.AllSame ρ xs ys → Unwrapped (s.plantBelow p xs) → Unwrapped (t.plantBelow q ys) →
    ∃ ρ', ρ ≤ ρ' ∧ Alike ρ' (s.plantBelow p xs) (t.plantBelow q ys)
  | [], [], _, _, _ => by
    rw [Store.plantBelow, Store.plantBelow]
    exact ⟨ρ, le_refl ρ, h⟩
  | x :: xs, y :: ys, ⟨hxy, hxs⟩, hu, hu' => by
    rw [Store.plantBelow, Store.plantBelow] at *
    have hux := (Evolves.plantBelow _ _ _).unwrapped hu
    have huy := (Evolves.plantBelow _ _ _).unwrapped hu'
    have hc := h.left.balanced.plant x
    have hd := h.right.balanced.plant y
    -- the first shape enlarges the pairing, the others continue with it
    obtain ⟨ρ₁, hle₁, hplanted, hcd⟩ := h.plant hxy ((Evolves.link _ _ _ _).unwrapped hux)
      ((Evolves.link _ _ _ _).unwrapped huy)
    have hlinked := hplanted.linkLast h.left.linked h.right.linked hc hd hp hq (hle₁ _ _ hpq) hcd
      hux huy
    obtain ⟨ρ', hle', hend⟩ := hlinked.plantBelow (hle₁ _ _ hpq) ((hc.linkLast hp).isAlive hp)
      ((hd.linkLast hq).isAlive hq) (hxs.mono hle₁) hu hu'
    exact ⟨ρ', hle₁.trans hle', hend⟩

end

-- ---------------------------------------------------------------------------
-- Copies
-- ---------------------------------------------------------------------------

/-- Nodes that stand for each other have contents that say the same, if reading them comes to an
end. -/
theorem Twins.shape (h : Twins ρ s t) (hab : ρ a b) : Concur ρ (s.shape a) (t.shape b) :=
  h.echoes.shape hab

/-- Two steps that change a store and give something come to the same, as far as both come to an
end. -/
inductive Stepped {α : Type} [Paired α] (ρ : Pairing) :
    Except Fault (α × Store) → Except Fault (α × Store) → Prop
  | left (y : Except Fault (α × Store)) : Stepped ρ (.error .endless) y
  | right (x : Except Fault (α × Store)) : Stepped ρ x (.error .endless)
  | ok {ρ' : Pairing} {x y : α} {s t : Store} : ρ ≤ ρ' → Matches ρ' x y → Alike ρ' s t →
      Stepped ρ (.ok (x, s)) (.ok (y, t))
  | error (e : Fault) : Stepped ρ (.error e) (.error e)

/-- What a step leaves has not worn out any slot. -/
def Fits {α : Type} (r : Except Fault (α × Store)) : Prop := ∀ x s, r = .ok (x, s) → Unwrapped s

/-- What a paired node leads to is paired, so it has been given out and is read the same while
nodes come. -/
theorem Alike.fixed_left (h : Alike ρ s t) (hu : Unwrapped s) (hab : ρ a b) {x : Handle}
    (hx : s.Reaches a x) : s.Fixed x := by
  have hpaired : ∃ y, ρ x y := by
    induction hx with
    | refl => exact ⟨b, hab⟩
    | tail _ hstep ih =>
      obtain ⟨y, hxy⟩ := ih
      obtain ⟨z, hz, -⟩ := h.holds_right hxy hstep
      exact ⟨z, hz⟩
  obtain ⟨y, hxy⟩ := hpaired
  exact .inr ⟨(h.known hxy).1, hu⟩

/-- What a node leads to that stands for another is not given out anew. -/
theorem Alike.fixed_right (h : Alike ρ s t) (hu : Unwrapped t) (hab : ρ a b) {y : Handle}
    (hy : t.Reaches b y) : t.Fixed y := by
  have hpaired : ∃ x, ρ x y := by
    induction hy with
    | refl => exact ⟨a, hab⟩
    | tail _ hstep ih =>
      obtain ⟨x, hxy⟩ := ih
      obtain ⟨z, hz, -⟩ := h.holds_left hxy hstep
      exact ⟨z, hz⟩
  obtain ⟨x, hxy⟩ := hpaired
  exact .inr ⟨(h.known hxy).2, hu⟩

/-- Originals whose contents say the same are copied alike, if they are read as they were when the
copying began. -/
theorem Alike.copied (h : Alike ρ s t) (hshape : Concur ρ (s.shape a) (t.shape b))
    (ha : ∀ x, s.Reaches a x → s.Fixed x) (hb : ∀ y, t.Reaches b y → t.Fixed y)
    (hu : Fits (s.deepClone a)) (hu' : Fits (t.deepClone b)) :
    Stepped ρ (s.deepClone a) (t.deepClone b) := by
  rw [h.left.balanced.deepClone_eq ha] at *
  rw [h.right.balanced.deepClone_eq hb] at *
  generalize s.shape a = x, t.shape b = y at *
  cases hshape with
  | left y => exact .left _
  | right x => exact .right _
  | error e => exact .error e
  | ok hxy =>
    obtain ⟨ρ', hle, hend, hroots⟩ := h.plant hxy (hu _ _ rfl) (hu' _ _ rfl)
    exact .ok hle hroots hend

-- ---------------------------------------------------------------------------
-- Texts
-- ---------------------------------------------------------------------------

mutual

/-- A document says the same as itself. -/
theorem same_ofDoc (ρ : Pairing) : (d : Doc) → Shape.Same ρ (.ofDoc d) (.ofDoc d)
  | .plain name value children => by
    rw [Shape.ofDoc]
    exact ⟨rfl, rfl, allSame_ofForest ρ children⟩
  | .holder name nested children => by
    rw [Shape.ofDoc]
    exact ⟨rfl, ⟨rfl, rfl, allSame_ofForest ρ nested⟩, allSame_ofForest ρ children⟩

/-- The contents of written trees point nowhere, so they are the same in every pairing. -/
theorem allSame_ofForest (ρ : Pairing) : (ds : List Doc) →
    Shape.AllSame ρ (Shape.ofForest ds) (Shape.ofForest ds)
  | [] => by
    rw [Shape.ofForest]
    trivial
  | d :: ds => by
    rw [Shape.ofForest]
    exact ⟨same_ofDoc ρ d, allSame_ofForest ρ ds⟩

end

/-- Stores that say the same still do after changes that give back what they have used. -/
theorem Alike.restored {s' t' : Store} (h : Alike ρ s t) (hs : Restored s s') (ht : Restored t t')
    (hu : Unwrapped s') (hu' : Unwrapped t') : Alike ρ s' t' := by
  refine h.later hs.evolves ht.evolves hu hu' ⟨h.oneToOne, fun hab => ?_⟩ (fun _ _ => .inl)
    ⟨hs.evolves.balanced h.left.balanced, hs.linked h.left.linked hu⟩
    ⟨ht.evolves.balanced h.right.balanced, ht.linked h.right.linked hu'⟩
  rw [hs.node?, ht.node?]
  exact h.node? hab

/-- A text that is read on both sides. -/
theorem Alike.load (h : Alike ρ s t) (text : String) (hu : Unwrapped (s.load text).2)
    (hu' : Unwrapped (t.load text).2) :
    ∃ ρ', ρ ≤ ρ' ∧ Matches ρ' (s.load text).1 (t.load text).1 ∧
      Alike ρ' (s.load text).2 (t.load text).2 := by
  have hs := load_yields h.left.balanced text
  have ht := load_yields h.right.balanced text
  cases hread : Document.read text with
  -- a text that is refused leaves both stores as they were
  | error e =>
    rw [hread] at hs ht
    obtain ⟨s', heq, hback⟩ := hs
    obtain ⟨t', heq', hback'⟩ := ht
    rw [heq] at hu ⊢
    rw [heq'] at hu' ⊢
    exact ⟨ρ, le_refl ρ, .error e, h.restored hback hback' hu hu'⟩
  | ok docs =>
    rw [hread] at hs ht
    rw [Yields] at hs ht
    rw [hs] at hu ⊢
    rw [ht] at hu' ⊢
    obtain ⟨ρ', hle, hend, hroots⟩ := h.plant (x := wholeShape docs) (y := wholeShape docs)
      ⟨rfl, rfl, allSame_ofForest ρ docs⟩ hu hu'
    exact ⟨ρ', hle, .ok hroots, hend⟩

-- ---------------------------------------------------------------------------
-- What is shown
-- ---------------------------------------------------------------------------

/-- Rendering, as far as neither side runs out of its bound. -/
theorem Twins.viewWithin (h : Twins ρ s t) {n m : Nat} (hab : ρ a b) :
    Concur ρ (s.viewWithin n a) (t.viewWithin m b) := by
  induction n generalizing m a b with
  | zero => exact .left _
  | succ n ih =>
    cases m with
    | zero => exact .right _
    | succ m =>
      rw [Store.viewWithin, Store.viewWithin]
      refine (h.node hab).bind fun k l hkl => ?_
      have hvalue := Node.Same.value hkl
      -- any row of paired nodes is viewed alike, children as well as those of a target
      have hbelow : ∀ {xs ys : List Handle}, Matches ρ xs ys →
          Concur ρ (xs.mapM (s.viewWithin n)) (ys.mapM (t.viewWithin m)) :=
        fun hxs => .mapM hxs fun _ _ hxy => ih hxy
      have hchildren := hbelow (Node.Same.children hkl)
      rw [Node.Same.name hkl]
      generalize k.value = v, l.value = w at hvalue
      cases hvalue with
      | none => exact hchildren.bind fun _ _ hxs => .ok (by rw [Plain.eq hxs]; rfl)
      | some hvw =>
        cases hvw with
        | scalar v => exact hchildren.bind fun _ _ hxs => .ok (by rw [Plain.eq hxs]; rfl)
        | node hgh =>
          exact (hbelow (h.childList hgh)).bind fun _ _ hnested => hchildren.bind fun _ _ hxs =>
            .ok (by rw [Plain.eq hxs, Plain.eq hnested]; rfl)
        | ref hgh =>
          exact (hbelow (h.childList hgh)).bind fun _ _ hnested => hchildren.bind fun _ _ hxs =>
            .ok (by rw [Plain.eq hxs, Plain.eq hnested]; rfl)

/-- Nodes that stand for each other are seen alike. -/
theorem Twins.view (h : Twins ρ s t) (hab : ρ a b) : Concur ρ (s.view a) (t.view b) :=
  h.viewWithin hab

/-- Nodes that stand for each other are written out as the same text. -/
theorem Twins.render (h : Twins ρ s t) (hab : ρ a b) : Concur ρ (s.render a) (t.render b) :=
  (h.view hab).map fun _ _ hxy => congrArg Doc.render (Plain.eq hxy)

/-- The children of nodes that stand for each other are written out as the same text. -/
theorem Twins.renderBelow (h : Twins ρ s t) (hab : ρ a b) :
    Concur ρ (s.renderBelow a) (t.renderBelow b) := by
  have hshown := (h.children hab).bind fun _ _ hxs => .mapM hxs fun _ _ hxy => h.view hxy
  exact hshown.map fun docs docs' hdocs => congrArg Doc.renderForest (Plain.eq hdocs)

/-- The context that a failure tells is the same. -/
theorem Twins.describe (h : Twins ρ s t) (hab : ρ a b) : Concur ρ (s.describe a) (t.describe b) := by
  have hnode := h.node? hab
  have hrender := h.render hab
  rw [Store.describe, Store.describe]
  generalize s.node? a = n, t.node? b = m at hnode
  cases hnode with
  | none => exact .ok rfl
  | some hnm =>
    exact hrender.map fun _ _ hxy => by
      rw [Node.Same.name hnm, Plain.eq hxy]
      rfl

theorem Twins.fail {α : Type} [Paired α] (h : Twins ρ s t) (hab : ρ a b)
    (f : NodeContext → Failure) : Concur ρ (s.fail a f : Except Halt α) (t.fail b f) := by
  have hdescribe := h.describe hab
  rw [Store.fail, Store.fail]
  generalize s.describe a = x, t.describe b = y at hdescribe
  cases hdescribe with
  | left y => exact .left _
  | right x => exact .right _
  | ok hxy =>
    rw [Plain.eq hxy]
    exact .error _
  | error e => exact .error _

/-- Values that say the same are displayed as the same text: a reference through what it points at.
-/
theorem Twins.display (h : Twins ρ s t) {v w : Value} (hvw : Value.Same ρ v w) (encode : Bool) :
    Concur ρ (s.display v encode) (t.display w encode) := by
  cases hvw with
  | scalar v => exact .ok rfl
  | node hgh =>
    rw [Store.display, Store.display, h.isAlive hgh]
    split
    · exact h.renderBelow hgh
    · exact .ok rfl
  | ref hgh =>
    rw [Store.display, Store.display, h.isAlive hgh]
    split
    · exact h.renderBelow hgh
    · exact .ok rfl

end Store

end TreeScript
