import TreeScript.Proofs.Store.LiveChildren

/-!
# TreeScript — who holds whom after an edit

A node holds its children and the node that its value owns. Each edit is told here
by what it does to that relation: a new node holds what its value owns, moving a node
adds one edge and takes one away, and planted nodes hold only nodes planted with them.

* `Balanced.holds_create`, `holds_link`, `Linked.holds_detach`, `holds_modify_value` —
  one lemma for each edit;
* `Balanced.holds_plant` — planting lets no old node be held by anybody new;
* `Balanced.fresh_of_reaches_plant` — all that a planted node reaches is new.
-/

namespace TreeScript.Store

-- ---------------------------------------------------------------------------
-- Single edits
-- ---------------------------------------------------------------------------

/-- The handle of a new node was not alive. -/
theorem isAlive_create_fst {s : Store} (hs : Balanced s) (name : String) (v : Option Value) :
    s.isAlive (s.create name v).1 = false := by
  rw [not_isAlive_iff, create_fst]
  exact hs.node?_allocate_fst _

/-- A new node holds what its value owns, and the others hold what they held. -/
theorem Balanced.holds_create {s : Store} (hs : Balanced s) (name : String) {v : Option Value}
    (hv : ∀ nested, v.bind Value.owned? = some nested → s.parent? nested = none) (a b : Handle) :
    (s.create name v).2.Holds a b ↔
      s.Holds a b ∨ a = (s.create name v).1 ∧ v.bind Value.owned? = some b := by
  have hview := hs.node?_create name hv
  have hnew := isAlive_create_fst hs name v
  unfold Holds
  rw [hview]
  by_cases ha : a = (s.create name v).1
  · subst ha
    rw [not_isAlive_iff] at hnew
    simp [hnew, Node.owned?]
  · simp [ha]

/-- A new node comes in, and nobody goes if what its value owns has no parent. -/
theorem Balanced.isAlive_create {s : Store} (hs : Balanced s) (name : String) {v : Option Value}
    (hv : ∀ nested, v.bind Value.owned? = some nested → s.parent? nested = none) (x : Handle) :
    (s.create name v).2.isAlive x = true ↔ s.isAlive x = true ∨ x = (s.create name v).1 := by
  unfold isAlive
  rw [hs.node?_create name hv]
  by_cases hx : x = (s.create name v).1
  · simp [hx]
  · simp [hx]

/-- A node that has got one more child holds that one more. -/
theorem holds_link {s : Store} {p c : Handle} {n : Node} (hn : s.node? p = some n) (hne : p ≠ c)
    {i : Nat} (hi : i ≤ n.children.length) (a b : Handle) :
    (s.link p i c).Holds a b ↔ s.Holds a b ∨ a = p ∧ b = c := by
  unfold Holds
  rw [node?_link hne]
  by_cases ha : a = p
  · subst ha
    have hmem : ∀ x, x ∈ n.children.insertIdx i c ↔ x = c ∨ x ∈ n.children := by
      intro x
      rw [(List.perm_insertIdx c n.children hi).mem_iff, List.mem_cons]
    simp only [hn, Option.map_some, Option.some.injEq, exists_eq_left', if_pos, hmem, true_and]
    simp only [Node.owned?]
    tauto
  · simp only [Option.map_eq_some_iff]
    constructor
    · rintro ⟨m', ⟨m, hm, rfl⟩, hb⟩
      exact Or.inl ⟨m, hm, by simpa [ha, Node.owned?] using hb⟩
    · rintro (⟨m, hm, hb⟩ | ⟨heq, -⟩)
      · exact ⟨_, ⟨m, hm, rfl⟩, by simpa [ha, Node.owned?] using hb⟩
      · exact absurd heq ha

/-- A linked node is held by its new parent, and everybody else by whom they were. -/
theorem holds_linkLast {s : Store} {p c : Handle} (hp : s.isAlive p = true) (hne : p ≠ c)
    (a b : Handle) : (s.linkLast p c).Holds a b ↔ s.Holds a b ∨ a = p ∧ b = c := by
  obtain ⟨n, hn⟩ := isAlive_iff.1 hp
  rw [linkLast, childList_eq hn]
  exact holds_link hn hne (Nat.le_refl _) a b

/-- A node that is taken out of its place is held only by a node that owns it. -/
theorem Linked.holds_detach {s : Store} (hl : Linked s) {h : Handle} (hh : s.isAlive h = true)
    (a b : Handle) : (s.detach h).Holds a b ↔ s.Holds a b ∧ (b = h → s.Owns a b) := by
  unfold Holds Owns
  rw [hl.node?_detach]
  cases hn : s.node? a with
  | none => simp
  | some n =>
    simp only [Option.map_some, Option.some.injEq, exists_eq_left', hh, if_true, List.mem_filter,
      bne_iff_ne, Option.bind_some]
    simp only [Node.owned?]
    by_cases hb : b = h
    · simp only [hb, ne_eq, not_true_eq_false, and_false, false_or, true_imp_iff]
      exact ⟨fun ho => ⟨Or.inr ho, ho⟩, And.right⟩
    · simp [hb]

/-- A node with another value holds its children and what the new value owns. -/
theorem holds_modify_value (s : Store) (h : Handle) (v : Option Value) (a b : Handle) :
    (s.modify h fun n => { n with value := v }).Holds a b ↔
      if a = h then b ∈ s.childList h ∨ s.isAlive h = true ∧ v.bind Value.owned? = some b
      else s.Holds a b := by
  unfold Holds
  rw [node?_modify]
  by_cases ha : a = h
  · subst ha
    cases hn : s.node? a with
    | none => simp [childList, isAlive, hn]
    | some n => simp [childList, isAlive, hn, Node.owned?]
  · simp [ha]

-- ---------------------------------------------------------------------------
-- Planting
-- ---------------------------------------------------------------------------

theorem owned?_map_scalar (value : Option Scalar) :
    (value.map Value.scalar).bind Value.owned? = none := by
  cases value <;> rfl

/-- What is held once contents have been planted below a new node. -/
theorem Balanced.holds_of_create {s s' : Store} (hs : Balanced s) {name : String} {v : Option Value}
    (hv : ∀ nested, v.bind Value.owned? = some nested → s.parent? nested = none) {a b : Handle}
    (hab : (s.create name v).2.Holds a b ∨ Fresh (s.create name v).2 s' b) :
    s.Holds a b ∨ v.bind Value.owned? = some b ∨ Fresh s s' b := by
  rcases hab with hab | hfresh
  · rcases (hs.holds_create name hv a b).1 hab with hold | ⟨-, hown⟩
    · exact Or.inl hold
    · exact Or.inr (Or.inl hown)
  · refine Or.inr (Or.inr ⟨isAlive_eq_false_of_keeps (fun x hx => ?_) hfresh.1, hfresh.2⟩)
    exact (hs.isAlive_create name hv x).2 (Or.inl hx)

mutual

/-- Whatever is held after planting was held before or is new. -/
theorem Balanced.holds_plant {s : Store} (hs : Balanced s) : (x : Shape) → {a b : Handle} →
    (s.plant x).2.Holds a b → s.Holds a b ∨ Fresh s (s.plant x).2 b
  | .plain name value children, a, b, hab => by
    rw [Store.plant] at hab ⊢
    have hown := owned?_map_scalar value
    have hbelow := ((Evolves.create _ _ _).balanced hs).holds_plantBelow
      (isAlive_iff.2 ⟨_, hs.node?_create_self name _⟩) children hab
    have hheld := hs.holds_of_create (by simp [hown]) hbelow
    simpa [hown] using hheld
  | .pointer name target children, a, b, hab => by
    rw [Store.plant] at hab ⊢
    have hbelow := ((Evolves.create _ _ _).balanced hs).holds_plantBelow
      (isAlive_iff.2 ⟨_, hs.node?_create_self name _⟩) children hab
    have hheld := hs.holds_of_create (by simp [Value.owned?]) hbelow
    simpa [Value.owned?] using hheld
  | .holder name nested children, a, b, hab => by
    rw [Store.plant] at hab ⊢
    have hinner := hs.plant nested
    have ht := hinner.evolves.balanced hs
    have hroot : ∀ g, (some (Value.node (s.plant nested).1)).bind Value.owned? = some g →
        (s.plant nested).2.parent? g = none := by
      intro g hg
      obtain rfl : (s.plant nested).1 = g := by simpa [Value.owned?] using hg
      exact hinner.parent?_root
    have hbalanced := (Evolves.create _ name (some (.node (s.plant nested).1))).balanced ht
    have halive := isAlive_iff.2 ⟨_, ht.node?_create_self name (some (.node (s.plant nested).1))⟩
    have hplanted := ht.planted_of_below hroot (hbalanced.plantBelow halive children)
    -- the inner tree is planted first and stays as it is
    rcases ht.holds_of_create hroot (hbalanced.holds_plantBelow halive children hab)
      with hold | hown | hfresh
    · rcases hs.holds_plant nested hold with hold | hfresh
      · exact Or.inl hold
      · exact Or.inr ⟨hfresh.1, hplanted.isAlive hfresh.2⟩
    · obtain rfl : (s.plant nested).1 = b := by simpa [Value.owned?] using hown
      obtain ⟨m, hm, -⟩ := hinner.root
      exact Or.inr ⟨not_isAlive_iff.2 hinner.fresh, hplanted.isAlive (isAlive_iff.2 ⟨m, hm⟩)⟩
    · exact Or.inr ⟨isAlive_eq_false_of_keeps (fun y hy => hinner.isAlive hy) hfresh.1, hfresh.2⟩

/-- Whatever is held after planting below a node was held before or is new. -/
theorem Balanced.holds_plantBelow {s : Store} (hs : Balanced s) {p : Handle}
    (hp : s.isAlive p = true) : (xs : List Shape) → {a b : Handle} →
    (s.plantBelow p xs).Holds a b → s.Holds a b ∨ Fresh s (s.plantBelow p xs) b
  | [], a, b, hab => by
    rw [Store.plantBelow] at hab
    exact Or.inl hab
  | x :: rest, a, b, hab => by
    rw [Store.plantBelow] at hab ⊢
    have hx := hs.plant x
    have hone := hx.linkLast hp
    have hbalanced := hone.evolves.balanced hs
    have hp' := hx.isAlive hp
    obtain ⟨m, hm, -⟩ := hx.root
    have hrest := hbalanced.plantBelow (hone.isAlive hp) rest
    -- planting the rest frees nothing of what the first tree has made
    have hkeep : ∀ y, (s.plant x).2.isAlive y = true →
        (((s.plant x).2.linkLast p (s.plant x).1).plantBelow p rest).isAlive y = true := by
      intro y hy
      rw [← isAlive_linkLast _ p (s.plant x).1] at hy
      by_cases hyp : y = p
      · exact hyp ▸ hrest.isAlive (hone.isAlive hp)
      · obtain ⟨k, hk⟩ := isAlive_iff.1 hy
        exact isAlive_iff.2 ⟨k, hrest.keeps hk hyp⟩
    rcases hbalanced.holds_plantBelow (hone.isAlive hp) rest hab with hold | hfresh
    · rcases (holds_linkLast hp' (hx.ne hp) a b).1 hold with hold | ⟨-, rfl⟩
      · exact (hs.holds_plant x hold).imp_right fun hfresh => ⟨hfresh.1, hkeep b hfresh.2⟩
      · exact Or.inr ⟨not_isAlive_iff.2 hx.fresh, hkeep _ (isAlive_iff.2 ⟨m, hm⟩)⟩
    -- what is new to the rest was not there before the first tree either
    · refine Or.inr ⟨isAlive_eq_false_of_keeps (fun y hy => ?_) hfresh.1, hfresh.2⟩
      rw [isAlive_linkLast]
      exact hx.isAlive hy

end

/-- All that a planted node reaches is new. -/
theorem Balanced.fresh_of_reaches_plant {s : Store} (hs : Balanced s) {x : Shape} {y : Handle}
    (hy : (s.plant x).2.Reaches (s.plant x).1 y) : Fresh s (s.plant x).2 y := by
  induction hy with
  | refl =>
    obtain ⟨m, hm, -⟩ := (hs.plant x).root
    exact ⟨not_isAlive_iff.2 (hs.plant x).fresh, isAlive_iff.2 ⟨m, hm⟩⟩
  | tail _ hstep ih =>
    rcases hs.holds_plant x hstep with hold | hfresh
    · exact absurd hold.isAlive (by simp [ih.1])
    · exact hfresh

end TreeScript.Store
