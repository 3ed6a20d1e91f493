import TreeScript.Proofs.Store.Copies
import TreeScript.Proofs.Store.Load

/-!
# TreeScript — a copy is made of new nodes and goes without a trace

Slots are given away while the original is still being read, but none of those that are in use, so
a copy comes to the content that the original had in the beginning, planted. It bears the same
content: the same names and scalars, the same children in their order, copies of owned nodes, and
references to the same nodes. As many nodes come as the content is made of; where nobody is held
twice these are as many as the original leads to. A node that two nodes own is copied for each of
them. The root of the copy leads to all that has come and to nothing else, so freeing it brings the
old store back.

* `Shape.size` — how many nodes a content is made of;
* `Balanced.live_plant` — as many come when it is planted;
* `Disciplined.exists_nodes` — as many are led to by a node that bears it;
* `Copied`, `deepClone_copies` — what a copy is, and when it is made.
-/

namespace TreeScript

mutual

/-- How many nodes a content is made of, those of owned nodes included. -/
def Shape.size : Shape → Nat
  | .plain _ _ children => Shape.sizeAll children + 1
  | .holder _ nested children => nested.size + Shape.sizeAll children + 1
  | .pointer _ _ children => Shape.sizeAll children + 1

def Shape.sizeAll : List Shape → Nat
  | [] => 0
  | x :: rest => x.size + Shape.sizeAll rest

end

namespace Store

variable {s t : Store} {h c p : Handle}

-- ---------------------------------------------------------------------------
-- How many nodes come
-- ---------------------------------------------------------------------------

mutual

/-- As many nodes come as the planted content is made of. -/
theorem Balanced.live_plant {s : Store} (hs : Balanced s) :
    (x : Shape) → (s.plant x).2.live = s.live + x.size
  | .plain name value children => by
    rw [Store.plant, Shape.size, ((Evolves.create _ _ _).balanced hs).live_plantBelow
      (isAlive_iff.2 ⟨_, hs.node?_create_self name _⟩) children, hs.live_create]
    omega
  | .pointer name target children => by
    rw [Store.plant, Shape.size, ((Evolves.create _ _ _).balanced hs).live_plantBelow
      (isAlive_iff.2 ⟨_, hs.node?_create_self name _⟩) children, hs.live_create]
    omega
  | .holder name nested children => by
    have ht := (Evolves.plant s nested).balanced hs
    rw [Store.plant, Shape.size, ((Evolves.create _ _ _).balanced ht).live_plantBelow
      (isAlive_iff.2 ⟨_, ht.node?_create_self name _⟩) children, ht.live_create,
      hs.live_plant nested]
    omega

/-- Planting below a node adds as many nodes as the contents have. -/
theorem Balanced.live_plantBelow {s : Store} (hs : Balanced s) {p : Handle}
    (hp : s.isAlive p = true) :
    (xs : List Shape) → (s.plantBelow p xs).live = s.live + Shape.sizeAll xs
  | [] => by rw [Store.plantBelow, Shape.sizeAll, Nat.add_zero]
  | x :: rest => by
    have hone := (hs.plant x).linkLast hp
    rw [Store.plantBelow, Shape.sizeAll,
      (hone.evolves.balanced hs).live_plantBelow (hone.isAlive hp) rest, live_linkLast,
      hs.live_plant x]
    omega

end

-- ---------------------------------------------------------------------------
-- How many nodes an original leads to
-- ---------------------------------------------------------------------------

/-- The nodes that some nodes lead to, each once, and how many they are. -/
def Lists (s : Store) (hs nodes : List Handle) : Prop :=
  nodes.Nodup ∧ ∀ y, y ∈ nodes ↔ ∃ c ∈ hs, s.Reaches c y

theorem Lists.nil (s : Store) : s.Lists [] [] := ⟨List.nodup_nil, by simp⟩

/-- Two rows that lead to nothing in common. -/
theorem Lists.append {hs ks ns ms : List Handle} (hns : s.Lists hs ns) (hms : s.Lists ks ms)
    (hdisjoint : ∀ c ∈ hs, ∀ d ∈ ks, ∀ y, s.Reaches c y → ¬ s.Reaches d y) :
    s.Lists (hs ++ ks) (ns ++ ms) := by
  refine ⟨List.nodup_append.2 ⟨hns.1, hms.1, ?_⟩, fun y => ?_⟩
  · rintro y hy z hz rfl
    obtain ⟨c, hc, hcy⟩ := (hns.2 y).1 hy
    obtain ⟨d, hd, hdy⟩ := (hms.2 y).1 hz
    exact hdisjoint c hc d hd y hcy hdy
  · rw [List.mem_append, hns.2, hms.2]
    simp only [List.mem_append, or_and_right, exists_or]

/-- A node and all that it holds. -/
theorem Lists.head {hs ns : List Handle} (hns : s.Lists hs ns)
    (hholds : ∀ c, s.Holds h c ↔ c ∈ hs) (hback : ∀ c ∈ hs, ¬ s.Reaches c h) :
    s.Lists [h] (h :: ns) := by
  refine ⟨List.nodup_cons.2 ⟨fun hmem => ?_, hns.1⟩, fun y => ?_⟩
  · obtain ⟨c, hc, hch⟩ := (hns.2 h).1 hmem
    exact hback c hc hch
  · simp only [List.mem_cons, hns.2, List.not_mem_nil, or_false, exists_eq_left]
    constructor
    · rintro (rfl | ⟨c, hc, hcy⟩)
      · exact .refl _ _
      · exact .head ((hholds c).2 hc) hcy
    · intro hy
      rcases Relation.ReflTransGen.cases_head hy with rfl | ⟨c, hc, hcy⟩
      · exact Or.inl rfl
      · exact Or.inr ⟨c, (hholds c).1 hc, hcy⟩

/-- What a node holds, without repetition: its children, and then the node that it owns. -/
theorem Disciplined.lists_node (hd : Disciplined s) {n : Node} (hn : s.node? h = some n)
    {ns ms : List Handle} (hns : s.Lists n.children ns) (hms : s.Lists n.owned?.toList ms)
    (hwhole : s.Whole h) : s.Lists [h] (h :: (ns ++ ms)) := by
  have hholds : ∀ c, s.Holds h c ↔ c ∈ n.children ++ n.owned?.toList := by
    intro c
    rw [holds_iff hn, List.mem_append, Option.mem_toList]
  refine (hns.append hms ?_).head hholds fun c hc => hd.not_reaches_holder ((hholds c).2 hc)
  intro c hc g hg y hcy
  have hheld := (hholds c).2 (List.mem_append_left _ hc)
  have hown := (hholds g).2 (List.mem_append_right _ hg)
  refine hd.siblings_share_nothing ?_ hheld hown (hwhole y (.head hheld hcy)) hcy
  rintro rfl
  exact hd.not_owns_of_mem_childList (by rwa [childList_eq hn])
    (owns_iff.2 ⟨n, hn, by simpa using hg⟩)

mutual

/-- A node leads to as many nodes as its content is made of. -/
theorem Disciplined.exists_nodes {s : Store} (hd : Disciplined s) {h : Handle} :
    {x : Shape} → Bears s h x → ∃ nodes, s.Lists [h] nodes ∧ nodes.length = x.size
  | .plain name value children, hx => by
    have hwhole := hx.whole
    obtain ⟨n, hn, -, hv, hall⟩ := hx
    have hown : n.owned? = none := by cases value <;> simp [Node.owned?, hv, Value.owned?]
    obtain ⟨ns, hns, hlen⟩ := hd.exists_nodesAll (hd.linked.nodup hn)
      (fun c hc => ⟨n, hn, Or.inl hc⟩) hall
    refine ⟨_, hd.lists_node hn hns (by rw [hown]; exact .nil s) hwhole, ?_⟩
    simp [Shape.size, hlen]
  | .pointer name target children, hx => by
    have hwhole := hx.whole
    obtain ⟨n, hn, -, hv, hall⟩ := hx
    have hown : n.owned? = none := by simp [Node.owned?, hv, Value.owned?]
    obtain ⟨ns, hns, hlen⟩ := hd.exists_nodesAll (hd.linked.nodup hn)
      (fun c hc => ⟨n, hn, Or.inl hc⟩) hall
    -- a reference is no part of the tree, so its target is not counted
    refine ⟨_, hd.lists_node hn hns (by rw [hown]; exact .nil s) hwhole, ?_⟩
    simp [Shape.size, hlen]
  | .holder name nested children, hx => by
    have hwhole := hx.whole
    obtain ⟨n, g, hn, -, hv, hg, hall⟩ := hx
    have hown : n.owned? = some g := by simp [Node.owned?, hv, Value.owned?]
    obtain ⟨ns, hns, hlen⟩ := hd.exists_nodesAll (hd.linked.nodup hn)
      (fun c hc => ⟨n, hn, Or.inl hc⟩) hall
    obtain ⟨ms, hms, hlen'⟩ := hd.exists_nodes hg
    -- an owned tree is, beside the children
    refine ⟨_, hd.lists_node hn hns (by rw [hown]; exact hms) hwhole, ?_⟩
    simp only [List.length_cons, List.length_append, hlen, hlen', Shape.size]
    omega

/-- Children that bear contents lead to as many nodes as the contents have: in a disciplined store
none is met twice. -/
theorem Disciplined.exists_nodesAll {s : Store} (hd : Disciplined s) {h : Handle}
    {hs : List Handle} (hnodup : hs.Nodup) (hheld : ∀ c ∈ hs, s.Holds h c) :
    {xs : List Shape} → BearsAll s hs xs → ∃ nodes, s.Lists hs nodes ∧
      nodes.length = Shape.sizeAll xs
  | [], hall => by
    obtain rfl : hs = [] := hall
    exact ⟨[], .nil s, rfl⟩
  | x :: xs, ⟨c, rest, heq, hc, hrest⟩ => by
    subst heq
    obtain ⟨hnot, hnodup⟩ := List.nodup_cons.1 hnodup
    obtain ⟨hhead, htail⟩ := List.forall_mem_cons.1 hheld
    obtain ⟨ns, hns, hlen⟩ := hd.exists_nodes hc
    obtain ⟨ms, hms, hlen'⟩ := hd.exists_nodesAll hnodup htail hrest
    refine ⟨ns ++ ms, hns.append hms ?_, by simp [Shape.sizeAll, hlen, hlen']⟩
    intro c' hc' d hmem y hcy
    obtain rfl := List.mem_singleton.1 hc'
    refine hd.siblings_share_nothing ?_ hhead (htail d hmem) (hc.whole y hcy) hcy
    rintro rfl
    exact hnot hmem

end

-- ---------------------------------------------------------------------------
-- Copies
-- ---------------------------------------------------------------------------

/-- A node and its copy. The copy has no parent and the same content: names, scalars, children in
their order, owned nodes as copies, references to the same nodes. All that the copy leads to is
new, and no node that was there has changed. As many nodes have come as the content is made of,
and where parents and children agree and nobody is held twice these are as many as the original
leads to. Freeing the copy leaves the nodes that were there, as they were. -/
structure Copied (s : Store) (h c : Handle) (t : Store) : Prop where
  parentless : t.parent? c = none
  content : ∃ x, Bears s h x ∧ Bears t c x ∧ t.live = s.live + x.size
  fresh {y : Handle} : t.Reaches c y → s.isAlive y = false ∧ t.isAlive y = true
  kept {y : Handle} {n : Node} : s.node? y = some n → t.node? y = some n
  counted : Disciplined s → ∃ nodes : List Handle, nodes.Nodup ∧
    (∀ y, y ∈ nodes ↔ s.Reaches h y) ∧ t.live = s.live + nodes.length
  removed : (∀ y, (t.remove c).node? y = s.node? y) ∧ (t.remove c).live = s.live

/-- A live node all of whose children and owned nodes are alive, at any depth, and that leads to no
circle, is copied. -/
theorem deepClone_copies (hs : Balanced s) (hwhole : s.Whole h)
    (hacyclic : ∀ x, s.Reaches h x → ¬ Relation.TransGen s.Holds x x) :
    ∃ c t, s.deepClone h = .ok (c, t) ∧ Copied s h c t := by
  obtain ⟨x, hshape⟩ := hwhole.exists_shape hacyclic
  have hx : Bears s h x := bears_of_shapeWithin hshape
  have hplanted := hs.sprouted_plant x
  have hback := hs.restored_remove x (.refl _)
  refine ⟨_, _, hx.deepClone hs, ?_, ?_, ?_, ?_, ?_, ?_⟩
  case refine_1 => exact hplanted.toPlanted.parent?_root
  case refine_2 => exact ⟨x, hx, hs.bears_plant x, hs.live_plant x⟩
  case refine_3 => exact fun hy => hs.fresh_of_reaches_plant hy
  case refine_4 => exact fun hn => hplanted.keeps hn
  case refine_5 =>
    intro hd
    obtain ⟨nodes, ⟨hnodup, hmem⟩, hlen⟩ := hd.exists_nodes hx
    exact ⟨nodes, hnodup, by simpa using hmem, by rw [hs.live_plant, hlen]⟩
  case refine_6 => exact ⟨hback.node?, hback.live_eq hs⟩

/-- A node with two children, of which one refers to the node that it owns. -/
def boxed : Shape :=
  .holder "box" (.plain "inner" none [.plain "leaf" (some (.bool true)) []])
    [.plain "left" none [], .pointer "see" ⟨0, 0⟩ []]

def boxedStore : Store := (empty.plant boxed).2

/-- A node that owns another is copied with five nodes, and the copy freed again. -/
theorem deepClone_copies_boxed :
    Balanced boxedStore ∧ boxedStore.Whole ⟨2, 0⟩ ∧
    (∀ x, ¬ Relation.TransGen boxedStore.Holds x x) ∧ Disciplined boxedStore ∧
    ∃ c t, boxedStore.deepClone ⟨2, 0⟩ = .ok (c, t) ∧ Bears t c boxed ∧
      t.live = boxedStore.live + 5 ∧ (t.remove c).live = boxedStore.live ∧
      ∃ nodes : List Handle, nodes.length = 5 ∧ ∀ y, y ∈ nodes ↔ boxedStore.Reaches ⟨2, 0⟩ y := by
  have hroot : (empty.plant boxed).1 = ⟨2, 0⟩ := by cbv
  have hbears : Bears boxedStore ⟨2, 0⟩ boxed := hroot ▸ balanced_empty.bears_plant boxed
  have hd : Disciplined boxedStore :=
    ((Since.refl disciplined_empty).plant boxed (unwrapped_of_slots (by cbv; decide))).disciplined
  obtain ⟨c, t, hok, hcopied⟩ :=
    deepClone_copies hd.balanced hbears.whole fun x _ => hd.acyclic x
  obtain ⟨x, hx, hcopy, hlive⟩ := hcopied.content
  obtain rfl : boxed = x := hbears.unique hx
  have hfive : boxed.size = 5 := rfl
  obtain ⟨nodes, -, hnodes, hlen⟩ := hcopied.counted hd
  exact ⟨hd.balanced, hbears.whole, hd.acyclic, hd, c, t, hok, hcopy, by rw [hlive, hfive],
    hcopied.removed.2, nodes, by omega, hnodes⟩

end Store

end TreeScript
