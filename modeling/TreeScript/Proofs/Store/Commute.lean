import TreeScript.Proofs.Store.Adopt

/-!
# TreeScript — edits that do not meet

A change of one node and the making of others can be done in either order, and leave the very
same store: the same slots, the same free ones, the same count. So a node may be put in its
place before or after the nodes below it are made.

* `modify_comm`, `allocate_modify`, `create_modify`, `linkLast_modify` — single steps;
* `plant_modify`, `plantBelow_modify` — whole trees;
* `plantBelow_linkLast` — a node gets its place before its children, or after them.
-/

namespace TreeScript.Store

variable {s : Store} {x y p c : Handle} {n k : Node} {f g : Node → Node}

-- ---------------------------------------------------------------------------
-- Single steps
-- ---------------------------------------------------------------------------

theorem modify_of_node? (hn : s.node? x = some n) (f : Node → Node) : s.modify x f =
    { s with slots := s.slots.setIfInBounds x.index ⟨s.freedAt x.index, some (f n)⟩ } := by
  rw [modify, hn]

theorem modify_of_node?_eq_none (hn : s.node? x = none) (f : Node → Node) : s.modify x f = s := by
  rw [modify, hn]

/-- Changes of two nodes, or two changes of one node that do not meet. -/
theorem modify_comm (h : x = y → ∀ n, g (f n) = f (g n)) :
    (s.modify x f).modify y g = (s.modify y g).modify x f := by
  by_cases heq : x = y
  · subst heq
    rw [modify_modify, modify_modify]
    simp only [h rfl]
  have hx' : (s.modify y g).node? x = s.node? x := node?_modify_of_ne g heq
  have hy' : (s.modify x f).node? y = s.node? y := node?_modify_of_ne f (Ne.symm heq)
  cases hx : s.node? x with
  | none =>
    rw [hx] at hx'
    rw [modify_of_node?_eq_none hx, modify_of_node?_eq_none hx']
  | some n =>
    rw [hx] at hx'
    cases hy : s.node? y with
    | none =>
      rw [hy] at hy'
      rw [modify_of_node?_eq_none hy, modify_of_node?_eq_none hy']
    | some m =>
      rw [hy] at hy'
      -- two nodes that are there have different slots
      have hi : x.index ≠ y.index := fun hi => heq (index_injective hy hx hi)
      rw [modify_of_node? hy', modify_of_node? hx', freedAt_modify, freedAt_modify,
        modify_of_node? hx, modify_of_node? hy]
      simp only [Array.setIfInBounds_comm _ _ hi]

/-- It does not matter whether a node comes in before or after another is changed. -/
theorem Balanced.allocate_modify (hs : Balanced s) (hx : s.isAlive x = true) (n : Node)
    (f : Node → Node) :
    (s.modify x f).allocate n = ((s.allocate n).1, (s.allocate n).2.modify x f) := by
  obtain ⟨k, hk⟩ := isAlive_iff.1 hx
  have hne : x ≠ (s.allocate n).1 := by
    rintro rfl
    simp [hs.node?_allocate_fst] at hk
  have hkept : (s.allocate n).2.node? x = some k := by rw [hs.node?_allocate, if_neg hne, hk]
  obtain ⟨hix, -, hnode⟩ := slot_of_node? hk
  rw [modify_of_node? hkept, modify_of_node? hk]
  cases hfree : s.free with
  -- the new node gets a slot at the end, which no node has
  | nil =>
    have hfreed : (s.allocate n).2.freedAt x.index = s.freedAt x.index := by
      simp [Store.allocate, hfree, freedAt, Array.getElem?_push, Nat.ne_of_lt hix]
    have hpush : (s.slots.setIfInBounds x.index ⟨s.freedAt x.index, some (f k)⟩).push ⟨0, some n⟩ =
        (s.slots.push ⟨0, some n⟩).setIfInBounds x.index ⟨s.freedAt x.index, some (f k)⟩ := by
      refine Array.ext_getElem? fun i => ?_
      simp only [Array.getElem?_push, Array.getElem?_setIfInBounds, Array.size_setIfInBounds,
        Array.size_push]
      split
      next hi => simp [hi, Nat.ne_of_lt hix]
      next => split <;> simp [Nat.lt_succ_of_lt hix]
    rw [hfreed]
    simp only [Store.allocate, hfree, Array.size_setIfInBounds, hpush]
  -- the new node gets a free slot, which is not the one of a node that is there
  | cons i rest =>
    obtain ⟨hi, hempty⟩ := hs.slot_of_free hfree
    have hne : x.index ≠ i := by
      rintro rfl
      rw [hempty] at hnode
      simp at hnode
    have hfreed : (s.allocate n).2.freedAt x.index = s.freedAt x.index := by
      simp [Store.allocate, hfree, freedAt, hne.symm]
    have hfreedi := freedAt_modify s x f i
    rw [modify_of_node? hk, hfree] at hfreedi
    rw [hfreed]
    simp only [Store.allocate, hfree, hfreedi, Array.setIfInBounds_comm _ _ hne]

/-- Making a node whose value owns no node that has a parent is adding it and writing its value. -/
theorem Balanced.create_eq_modify (hs : Balanced s) (name : String) {v : Value}
    (hv : ∀ nested, v.owned? = some nested → s.parent? nested = none) :
    s.create name (some v) = ((s.allocate { name }).1,
      (s.allocate { name }).2.modify (s.allocate { name }).1 fun n => { n with value := v }) := by
  have hself : (s.allocate { name }).2.node? (s.allocate { name }).1 = some { name } := by
    rw [hs.node?_allocate, if_pos rfl]
  rw [create_some, assign_eq_write hself rfl, Store.write]
  split
  next nested hnested =>
    have hroot : (s.allocate { name }).2.parent? nested = none := by
      have := hv nested hnested
      rw [parent?, hs.node?_allocate] at *
      split <;> simp_all
    simp only [detach, hroot]
  next => rfl

theorem Balanced.ne_create_fst (hs : Balanced s) (hx : s.isAlive x = true) (name : String)
    (v : Option Value) : x ≠ (s.create name v).1 := by
  rintro rfl
  simp [isAlive_create_fst hs] at hx

/-- It does not matter whether a node is made before or after another is changed which its value
does not own. -/
theorem Balanced.create_modify (hs : Balanced s) (hx : s.isAlive x = true) (name : String)
    {v : Option Value} (hv : ∀ nested, v.bind Value.owned? = some nested →
      nested ≠ x ∧ s.parent? nested = none) (f : Node → Node) :
    (s.modify x f).create name v = ((s.create name v).1, (s.create name v).2.modify x f) := by
  cases v with
  | none => rw [create_none, create_none, hs.allocate_modify hx]
  | some v =>
    have hne := hs.ne_create_fst hx name (some v)
    rw [create_fst] at hne
    have hv' : ∀ nested, v.owned? = some nested → (s.modify x f).parent? nested = none :=
      fun nested h => by
        rw [parent?, node?_modify_of_ne f (hv nested h).1]
        exact (hv nested h).2
    rw [hs.create_eq_modify name fun nested h => (hv nested h).2,
      (hs.modify x f).create_eq_modify name hv', hs.allocate_modify hx,
      modify_comm fun heq => absurd heq hne]

/-- A change that has nothing to do with the children of a node. -/
def OffChildren (f : Node → Node) : Prop :=
  ∀ n l, f { n with children := l } = { f n with children := l }

theorem OffChildren.children (hf : OffChildren f) (n : Node) : (f n).children = n.children :=
  (congrArg Node.children (hf n n.children) :)

/-- A change leaves the children of other nodes, and those of its own node if it is not about them.
-/
theorem childList_modify (hf : x = p → OffChildren f) :
    (s.modify x f).childList p = s.childList p := by
  by_cases hp : p = x
  · subst hp
    simp only [childList, node?_modify_self]
    cases s.node? p with
    | none => rfl
    | some n => simp [(hf rfl).children]
  · simp only [childList, node?_modify_of_ne f hp]

/-- It does not matter whether a node is linked before or after another is changed. -/
theorem linkLast_modify (hc : x ≠ c) (hf : x = p → OffChildren f) :
    (s.modify x f).linkLast p c = (s.linkLast p c).modify x f := by
  rw [linkLast, childList_modify hf, linkLast, link, link,
    modify_comm fun heq => absurd heq hc, modify_comm fun heq n => ?_]
  rw [(hf heq).children]
  exact (hf heq n _).symm

-- ---------------------------------------------------------------------------
-- Whole trees
-- ---------------------------------------------------------------------------

/-- What is known of a node and one made beside it. -/
theorem Balanced.beside_create (hs : Balanced s) (hx : s.isAlive x = true) (name : String)
    {v : Option Value}
    (hv : ∀ nested, v.bind Value.owned? = some nested → s.parent? nested = none) :
    Balanced (s.create name v).2 ∧ (s.create name v).2.isAlive x = true ∧
      (s.create name v).2.isAlive (s.create name v).1 = true ∧ x ≠ (s.create name v).1 :=
  ⟨(Evolves.create s name v).balanced hs, (hs.isAlive_create name hv x).2 (.inl hx),
    (hs.isAlive_create name hv _).2 (.inr rfl), hs.ne_create_fst hx name v⟩

mutual

/-- It does not matter whether a content is planted before or after a node is changed. -/
theorem Balanced.plant_modify {s : Store} (hs : Balanced s) {x : Handle}
    (hx : s.isAlive x = true) (f : Node → Node) : (content : Shape) →
      (s.modify x f).plant content = ((s.plant content).1, (s.plant content).2.modify x f)
  | .plain name value children => by
    have hv : ∀ nested, (value.map Value.scalar).bind Value.owned? = some nested →
        nested ≠ x ∧ s.parent? nested = none := by
      intro nested h
      cases value <;> simp [Value.owned?] at h
    obtain ⟨ht, hxt, hself, hne⟩ := hs.beside_create hx name fun nested h => (hv nested h).2
    have hbelow := ht.plantBelow_modify hxt hself
      (fun heq => absurd heq hne : x = _ → OffChildren f) children
    simp only [Store.plant, hs.create_modify hx name hv, hbelow]
  | .holder name nested children => by
    -- the owned tree is planted beside the modified node, then the new node beside both
    have hinner := hs.plant nested
    have hm := hinner.evolves.balanced hs
    have hv : ∀ g, (some (Value.node (s.plant nested).1)).bind Value.owned? = some g →
        g ≠ x ∧ (s.plant nested).2.parent? g = none := by
      intro g hg
      obtain rfl : (s.plant nested).1 = g := by simpa [Value.owned?] using hg
      exact ⟨(hinner.ne hx).symm, hinner.parent?_root⟩
    have hxm := hinner.isAlive hx
    obtain ⟨ht, hxt, hself, hne⟩ := hm.beside_create hxm name fun g h => (hv g h).2
    have hbelow := ht.plantBelow_modify hxt hself
      (fun heq => absurd heq hne : x = _ → OffChildren f) children
    simp only [Store.plant, hs.plant_modify hx f nested, hm.create_modify hxm name hv, hbelow]
  | .pointer name target children => by
    have hv : ∀ g, (some (Value.ref target)).bind Value.owned? = some g →
        g ≠ x ∧ s.parent? g = none := by simp [Value.owned?]
    obtain ⟨ht, hxt, hself, hne⟩ := hs.beside_create hx name fun g h => (hv g h).2
    have hbelow := ht.plantBelow_modify hxt hself
      (fun heq => absurd heq hne : x = _ → OffChildren f) children
    simp only [Store.plant, hs.create_modify hx name hv, hbelow]

/-- The same for planting below a node, if the change is not about that node's children. -/
theorem Balanced.plantBelow_modify {s : Store} (hs : Balanced s) {x p : Handle} {f : Node → Node}
    (hx : s.isAlive x = true) (hp : s.isAlive p = true) (hf : x = p → OffChildren f) :
    (xs : List Shape) → (s.modify x f).plantBelow p xs = (s.plantBelow p xs).modify x f
  | [] => by rw [Store.plantBelow, Store.plantBelow]
  | content :: rest => by
    have hc := hs.plant content
    have hone := hc.linkLast hp
    have hrest := (hone.evolves.balanced hs).plantBelow_modify
      (by simpa using hc.isAlive hx) (hone.isAlive hp) hf rest
    simp only [Store.plantBelow, hs.plant_modify hx f content, linkLast_modify (hc.ne hx) hf,
      hrest]

end

/-- A node gets its place before its children, or after them. -/
theorem Balanced.plantBelow_linkLast (hs : Balanced s) (hp : s.isAlive p = true)
    (hc : s.isAlive c = true) (hne : p ≠ c) (xs : List Shape) :
    (s.linkLast p c).plantBelow c xs = (s.plantBelow c xs).linkLast p c := by
  obtain ⟨n, hn⟩ := isAlive_iff.1 hp
  have hlist : (s.plantBelow c xs).childList p = s.childList p := by
    rw [childList_eq hn, childList_eq ((hs.plantBelow hc xs).keeps hn hne)]
  rw [linkLast, linkLast, hlist, link, link]
  rw [(hs.modify c _).plantBelow_modify (by simpa using hp) (by simpa using hc)
      (fun heq => absurd heq hne),
    hs.plantBelow_modify hc hc fun _ n l => rfl]

end TreeScript.Store
