import TreeScript.Proofs.Outcome
import TreeScript.Proofs.Store.Fence
import TreeScript.Proofs.Store.Handover

/-!
# TreeScript — copies say what their originals say

Which content a node bears depends only on what is seen of the nodes that it leads to. A planted
content is borne by the node that has been planted, so a copy bears the content of its original,
references included, and keeps it as long as none of its nodes is touched.

* `Bears`, `Bears.unique` — a node with a content;
* `Bears.keep`, `Bears.of_keeps` — contents that stay;
* `Whole.exists_shape`, `Bears.shape` — a tree that is all there has a content;
* `Balanced.bears_plant`, `Balanced.bearsBelow_plantBelow` — planted contents;
* `Balanced.bears_deepClone`, `Bears.deepClone` — copies;
* `SetAside`, `SetAside.keep`, `SetAside.of_keeps` — trees that are kept for later.
-/

namespace TreeScript.Store

variable {s t u : Store} {h p c : Handle}

mutual

/-- A node bears a content: its name and value are those of the content, and what it holds bears
the contents in it, in their order. -/
def Bears (s : Store) (h : Handle) : Shape → Prop
  | .plain name value children => ∃ n, s.node? h = some n ∧ n.name = name ∧
      n.value = value.map Value.scalar ∧ BearsAll s n.children children
  | .holder name nested children => ∃ n g, s.node? h = some n ∧ n.name = name ∧
      n.value = some (.node g) ∧ Bears s g nested ∧ BearsAll s n.children children
  | .pointer name target children => ∃ n, s.node? h = some n ∧ n.name = name ∧
      n.value = some (.ref target) ∧ BearsAll s n.children children

def BearsAll (s : Store) (hs : List Handle) : List Shape → Prop
  | [] => hs = []
  | x :: xs => ∃ h rest, hs = h :: rest ∧ Bears s h x ∧ BearsAll s rest xs

end

theorem bearsAll_iff {hs : List Handle} {xs : List Shape} :
    BearsAll s hs xs ↔ List.Forall₂ (Bears s) hs xs := by
  induction xs generalizing hs with
  | nil => simp [BearsAll]
  | cons x xs ih =>
    rw [BearsAll, List.forall₂_cons_right_iff]
    simp only [ih]
    exact ⟨fun ⟨h, rest, heq, hx, hxs⟩ => ⟨h, rest, hx, hxs, heq⟩,
      fun ⟨h, rest, hx, hxs, heq⟩ => ⟨h, rest, heq, hx, hxs⟩⟩

-- ---------------------------------------------------------------------------
-- Contents that have been read
-- ---------------------------------------------------------------------------

/-- A content that has been read is borne by its node. -/
theorem bears_of_shapeWithin {fuel : Nat} {x : Shape} (hok : s.shapeWithin fuel h = .ok x) :
    Bears s h x := by
  induction fuel generalizing h x with
  | zero => simp [shapeWithin] at hok
  | succ fuel ih =>
    obtain ⟨n, xs, hn, hxs, hcases⟩ := shapeWithin_succ_eq_ok hok
    have hall : BearsAll s n.children xs :=
      bearsAll_iff.2 ((mapM_eq_ok_iff.1 hxs).imp fun _ _ => ih)
    obtain ⟨hv, rfl⟩ | ⟨v, hv, rfl⟩ | ⟨g, y, hv, hy, rfl⟩ | ⟨target, hv, rfl⟩ := hcases
    · exact ⟨n, hn, rfl, hv, hall⟩
    · exact ⟨n, hn, rfl, hv, hall⟩
    · exact ⟨n, g, hn, rfl, hv, ih hy, hall⟩
    · exact ⟨n, hn, rfl, hv, hall⟩

mutual

/-- All nodes of a tree that bears a content are there. -/
theorem Bears.whole {h : Handle} : {x : Shape} → Bears s h x → s.Whole h
  | .plain name value children, ⟨n, hn, _, hv, hall⟩, y, hy => by
    rcases Relation.ReflTransGen.cases_head hy with rfl | ⟨c, hc, hcy⟩
    · exact isAlive_iff.2 ⟨n, hn⟩
    · rcases (holds_iff hn).1 hc with hmem | hown
      · exact BearsAll.whole hall c hmem y hcy
      · cases value <;> simp [Node.owned?, hv, Value.owned?] at hown
  | .holder name nested children, ⟨n, g, hn, _, hv, hg, hall⟩, y, hy => by
    rcases Relation.ReflTransGen.cases_head hy with rfl | ⟨c, hc, hcy⟩
    · exact isAlive_iff.2 ⟨n, hn⟩
    · rcases (holds_iff hn).1 hc with hmem | hown
      · exact BearsAll.whole hall c hmem y hcy
      · obtain rfl : g = c := by simpa [Node.owned?, hv, Value.owned?] using hown
        exact Bears.whole hg y hcy
  | .pointer name target children, ⟨n, hn, _, hv, hall⟩, y, hy => by
    rcases Relation.ReflTransGen.cases_head hy with rfl | ⟨c, hc, hcy⟩
    · exact isAlive_iff.2 ⟨n, hn⟩
    · rcases (holds_iff hn).1 hc with hmem | hown
      · exact BearsAll.whole hall c hmem y hcy
      · simp [Node.owned?, hv, Value.owned?] at hown

/-- Whatever nodes that bear contents lead to is alive. -/
theorem BearsAll.whole {hs : List Handle} :
    {xs : List Shape} → BearsAll s hs xs → ∀ c ∈ hs, s.Whole c
  | [], hnil => by simp [show hs = [] from hnil]
  | x :: xs, ⟨c, rest, heq, hc, hrest⟩ => by
    subst heq
    exact List.forall_mem_cons.2 ⟨Bears.whole hc, BearsAll.whole hrest⟩

end

mutual

/-- A node bears one content. -/
theorem Bears.unique {h : Handle} : {x y : Shape} → Bears s h x → Bears s h y → x = y
  | .plain name value children, y, ⟨n, hn, hname, hv, hall⟩, hy => by
    cases y with
    | plain name' value' children' =>
      obtain ⟨n', hn', hname', hv', hall'⟩ := hy
      obtain rfl := Option.some.inj (hn.symm.trans hn')
      obtain rfl : value = value' :=
        Option.map_injective (fun _ _ heq => Value.scalar.inj heq) (hv.symm.trans hv')
      rw [← hname, ← hname', BearsAll.unique hall hall']
    | holder name' nested' children' =>
      obtain ⟨n', g, hn', -, hv', -⟩ := hy
      obtain rfl := Option.some.inj (hn.symm.trans hn')
      rw [hv] at hv'
      cases value <;> simp at hv'
    | pointer name' target' children' =>
      obtain ⟨n', hn', -, hv', -⟩ := hy
      obtain rfl := Option.some.inj (hn.symm.trans hn')
      rw [hv] at hv'
      cases value <;> simp at hv'
  | .holder name nested children, y, ⟨n, g, hn, hname, hv, hg, hall⟩, hy => by
    cases y with
    | plain name' value' children' =>
      obtain ⟨n', hn', -, hv', -⟩ := hy
      obtain rfl := Option.some.inj (hn.symm.trans hn')
      rw [hv] at hv'
      cases value' <;> simp at hv'
    | holder name' nested' children' =>
      obtain ⟨n', g', hn', hname', hv', hg', hall'⟩ := hy
      obtain rfl := Option.some.inj (hn.symm.trans hn')
      obtain rfl : g = g' := by simpa using hv.symm.trans hv'
      rw [← hname, ← hname', Bears.unique hg hg', BearsAll.unique hall hall']
    | pointer name' target' children' =>
      obtain ⟨n', hn', -, hv', -⟩ := hy
      obtain rfl := Option.some.inj (hn.symm.trans hn')
      simp [hv] at hv'
  | .pointer name target children, y, ⟨n, hn, hname, hv, hall⟩, hy => by
    cases y with
    | plain name' value' children' =>
      obtain ⟨n', hn', -, hv', -⟩ := hy
      obtain rfl := Option.some.inj (hn.symm.trans hn')
      rw [hv] at hv'
      cases value' <;> simp at hv'
    | holder name' nested' children' =>
      obtain ⟨n', g', hn', -, hv', -⟩ := hy
      obtain rfl := Option.some.inj (hn.symm.trans hn')
      simp [hv] at hv'
    | pointer name' target' children' =>
      obtain ⟨n', hn', hname', hv', hall'⟩ := hy
      obtain rfl := Option.some.inj (hn.symm.trans hn')
      obtain rfl : target = target' := by simpa using hv.symm.trans hv'
      rw [← hname, ← hname', BearsAll.unique hall hall']

/-- Nodes bear one list of contents at most. -/
theorem BearsAll.unique {hs : List Handle} :
    {xs ys : List Shape} → BearsAll s hs xs → BearsAll s hs ys → xs = ys
  | [], [], _, _ => rfl
  | [], y :: ys, hnil, ⟨c, rest, heq, _⟩ => by simp [show hs = [] from hnil] at heq
  | x :: xs, [], ⟨c, rest, heq, _⟩, hnil => by simp [show hs = [] from hnil] at heq
  | x :: xs, y :: ys, ⟨c, rest, heq, hc, hrest⟩, ⟨c', rest', heq', hc', hrest'⟩ => by
    subst heq
    obtain ⟨rfl, rfl⟩ := List.cons.inj heq'
    rw [Bears.unique hc hc', BearsAll.unique hrest hrest']

end

/-- The children of a node that bears a content bear those in it. -/
theorem Bears.children {x : Shape} (hx : Bears s h x) :
    ∃ xs, List.Forall₂ (Bears s) (s.childList h) xs := by
  cases x with
  | plain name value xs =>
    obtain ⟨n, hn, -, -, hall⟩ := hx
    exact ⟨xs, by rw [childList_eq hn]; exact bearsAll_iff.1 hall⟩
  | holder name nested xs =>
    obtain ⟨n, g, hn, -, -, -, hall⟩ := hx
    exact ⟨xs, by rw [childList_eq hn]; exact bearsAll_iff.1 hall⟩
  | pointer name target xs =>
    obtain ⟨n, hn, -, -, hall⟩ := hx
    exact ⟨xs, by rw [childList_eq hn]; exact bearsAll_iff.1 hall⟩

-- ---------------------------------------------------------------------------
-- Trees that are all there
-- ---------------------------------------------------------------------------

/-- A node has a content if all that it holds has one. -/
theorem exists_shapeWithin_succ {fuel : Nat} (hh : s.isAlive h = true)
    (hheld : ∀ x, s.Holds h x → ∃ y, s.shapeWithin fuel x = .ok y) :
    ∃ y, s.shapeWithin (fuel + 1) h = .ok y := by
  obtain ⟨n, hn⟩ := isAlive_iff.1 hh
  obtain ⟨xs, hxs⟩ := exists_mapM_eq_ok_iff.2 fun c hc => hheld c ⟨n, hn, .inl hc⟩
  rw [shapeWithin, Store.node, hn]
  simp only [hxs, bind, Except.bind]
  split
  next => exact ⟨_, rfl⟩
  next => exact ⟨_, rfl⟩
  next g hv =>
    obtain ⟨y, hy⟩ := hheld g ⟨n, hn, .inr (by rw [Node.owned?, hv]; rfl)⟩
    rw [hy]
    exact ⟨_, rfl⟩
  next => exact ⟨_, rfl⟩

/-- A tree that is all there and leads to no circle can be read. -/
theorem Whole.exists_shape (hh : s.Whole h)
    (hac : ∀ x, s.Reaches h x → ¬ Relation.TransGen s.Holds x x) : ∃ x, s.shape h = .ok x := by
  refine of_holds_below (P := fun fuel h => s.Whole h → ∃ x, s.shapeWithin fuel h = .ok x) hac
    (fun {_ h} hheld hh => ?_) hh
  exact exists_shapeWithin_succ (hh h (.refl _ _)) fun x hx =>
    hheld x hx fun y hy => hh y (.head hx hy)

/-- In a disciplined store every node that leads to live nodes only bears a content. -/
theorem Disciplined.exists_bears (hd : Disciplined s) (hh : s.Whole h) : ∃ x, Bears s h x := by
  obtain ⟨x, hx⟩ := hh.exists_shape fun x _ => hd.acyclic x
  exact ⟨x, bears_of_shapeWithin hx⟩

/-- Each of the nodes bears one of the contents. -/
theorem BearsAll.of_mem {hs : List Handle} {xs : List Shape} (hall : BearsAll s hs xs)
    {g : Handle} (hg : g ∈ hs) : ∃ y ∈ xs, Bears s g y := by
  induction xs generalizing hs with
  | nil => simp [show hs = [] from hall] at hg
  | cons x xs ih =>
    obtain ⟨c, rest, rfl, hc, hrest⟩ := hall
    rcases List.mem_cons.1 hg with rfl | hg
    · exact ⟨x, by simp, hc⟩
    · obtain ⟨y, hy, hbears⟩ := ih hrest hg
      exact ⟨y, List.mem_cons_of_mem _ hy, hbears⟩

/-- What a node holds bears a content that is nested in its own. -/
theorem Bears.of_holds {x : Shape} (hx : Bears s h x) {g : Handle} (hg : s.Holds h g) :
    ∃ y, Bears s g y ∧ sizeOf y < sizeOf x := by
  cases x with
  | plain name value xs =>
    obtain ⟨n, hn, -, hv, hall⟩ := hx
    -- what a node holds is a child or the tree that it owns
    rcases (holds_iff hn).1 hg with hmem | hown
    · obtain ⟨y, hy, hbears⟩ := hall.of_mem hmem
      have := List.sizeOf_lt_of_mem hy
      exact ⟨y, hbears, by simp; omega⟩
    · cases value <;> simp [Node.owned?, hv, Value.owned?] at hown
  | holder name nested xs =>
    obtain ⟨n, g', hn, -, hv, hg', hall⟩ := hx
    rcases (holds_iff hn).1 hg with hmem | hown
    · obtain ⟨y, hy, hbears⟩ := hall.of_mem hmem
      have := List.sizeOf_lt_of_mem hy
      exact ⟨y, hbears, by simp; omega⟩
    · obtain rfl : g' = g := by simpa [Node.owned?, hv, Value.owned?] using hown
      exact ⟨nested, hg', by simp; omega⟩
  | pointer name target xs =>
    obtain ⟨n, hn, -, hv, hall⟩ := hx
    rcases (holds_iff hn).1 hg with hmem | hown
    · obtain ⟨y, hy, hbears⟩ := hall.of_mem hmem
      have := List.sizeOf_lt_of_mem hy
      exact ⟨y, hbears, by simp; omega⟩
    · simp [Node.owned?, hv, Value.owned?] at hown

/-- A node that bears a content leads to no circle. -/
theorem Bears.acyclic {x : Shape} (hx : Bears s h x) (y : Handle) (hy : s.Reaches h y) :
    ¬ Relation.TransGen s.Holds y y := by
  have hbelow : ∀ {a b : Handle} {xa : Shape}, Bears s a xa → Relation.TransGen s.Holds a b →
      ∃ xb, Bears s b xb ∧ sizeOf xb < sizeOf xa := by
    intro a b xa ha hab
    induction hab with
    | single hstep => exact ha.of_holds hstep
    | tail _ hstep ih =>
      obtain ⟨xb, hb, hlt⟩ := ih
      obtain ⟨xc, hc, hlt'⟩ := hb.of_holds hstep
      exact ⟨xc, hc, hlt'.trans hlt⟩
  obtain ⟨xy, hbears⟩ : ∃ xy, Bears s y xy := by
    rcases Relation.reflTransGen_iff_eq_or_transGen.1 hy with rfl | hway
    · exact ⟨x, hx⟩
    · obtain ⟨xy, hbears, -⟩ := hbelow hx hway
      exact ⟨xy, hbears⟩
  intro hcircle
  obtain ⟨xy', hbears', hlt⟩ := hbelow hbears hcircle
  rw [hbears.unique hbears'] at hlt
  exact absurd hlt (Nat.lt_irrefl _)

/-- The content that a node bears is what is read of it. -/
theorem Bears.shape {x : Shape} (hx : Bears s h x) : s.shape h = .ok x := by
  obtain ⟨y, hy⟩ := hx.whole.exists_shape hx.acyclic
  rw [hx.unique (bears_of_shapeWithin hy), hy]

-- ---------------------------------------------------------------------------
-- Contents that stay
-- ---------------------------------------------------------------------------

mutual

/-- A node bears its content as long as nothing that it leads to changes. -/
theorem Bears.keep {h : Handle} (hseen : ∀ y, s.Reaches h y → t.seen y = s.seen y) :
    {x : Shape} → Bears s h x → Bears t h x
  | .plain name value children, ⟨n, hn, hname, hv, hall⟩ => by
    obtain ⟨q, hn'⟩ := node?_of_seen_eq (hseen h (.refl _ _)) hn
    exact ⟨_, hn', hname, hv, BearsAll.keep (fun c hc y hy =>
      hseen y (.head ⟨n, hn, Or.inl hc⟩ hy)) hall⟩
  | .holder name nested children, ⟨n, g, hn, hname, hv, hg, hall⟩ => by
    obtain ⟨q, hn'⟩ := node?_of_seen_eq (hseen h (.refl _ _)) hn
    have hown : s.Holds h g := ⟨n, hn, Or.inr (by rw [Node.owned?, hv]; rfl)⟩
    exact ⟨_, g, hn', hname, hv, Bears.keep (fun y hy => hseen y (.head hown hy)) hg,
      BearsAll.keep (fun c hc y hy => hseen y (.head ⟨n, hn, Or.inl hc⟩ hy)) hall⟩
  | .pointer name target children, ⟨n, hn, hname, hv, hall⟩ => by
    obtain ⟨q, hn'⟩ := node?_of_seen_eq (hseen h (.refl _ _)) hn
    exact ⟨_, hn', hname, hv, BearsAll.keep (fun c hc y hy =>
      hseen y (.head ⟨n, hn, Or.inl hc⟩ hy)) hall⟩

/-- Nodes bear the same contents where all that they lead to is seen as it was. -/
theorem BearsAll.keep {hs : List Handle}
    (hseen : ∀ c ∈ hs, ∀ y, s.Reaches c y → t.seen y = s.seen y) :
    {xs : List Shape} → BearsAll s hs xs → BearsAll t hs xs
  | [], hnil => hnil
  | x :: xs, ⟨c, rest, heq, hc, hrest⟩ => by
    subst heq
    exact ⟨c, rest, rfl, Bears.keep (hseen c (by simp)) hc,
      BearsAll.keep (fun d hd => hseen d (List.mem_cons_of_mem _ hd)) hrest⟩

end

/-- The same for a row of nodes. -/
theorem forall₂_bears_keep {hs : List Handle} {xs : List Shape}
    (hseen : ∀ c ∈ hs, ∀ y, s.Reaches c y → t.seen y = s.seen y)
    (hall : List.Forall₂ (Bears s) hs xs) : List.Forall₂ (Bears t) hs xs :=
  bearsAll_iff.1 ((bearsAll_iff.2 hall).keep hseen)

/-- The nodes of a tree that stay as they are are seen as before. -/
theorem Whole.seen_eq (hc : s.Whole c)
    (hkeep : ∀ y n, s.Reaches c y → s.node? y = some n → t.node? y = some n) (y : Handle)
    (hy : s.Reaches c y) : t.seen y = s.seen y := by
  obtain ⟨n, hn⟩ := isAlive_iff.1 (hc y hy)
  exact seen_eq_of_node?_eq ((hkeep y n hy hn).trans hn.symm)

/-- So the tree bears the same content. -/
theorem Bears.of_keeps {x : Shape} (hx : Bears s c x)
    (hkeep : ∀ y n, s.Reaches c y → s.node? y = some n → t.node? y = some n) : Bears t c x :=
  hx.keep (hx.whole.seen_eq hkeep)

-- ---------------------------------------------------------------------------
-- Planted contents
-- ---------------------------------------------------------------------------

/-- A tree that has come in is seen the same as long as the new nodes are left alone. -/
theorem Bears.keep_new {x : Shape} (hc : Sprouted s c t) (hx : Bears t c x)
    (hseen : ∀ y, Fresh s t y → u.seen y = t.seen y) : Bears u c x :=
  hx.keep fun y hy => hseen y (hc.new hy)

/-- New contents have been planted below a node. -/
def BearsBelow (s : Store) (p : Handle) (t : Store) (xs : List Shape) : Prop :=
  ∀ n, s.node? p = some n → ∃ new, t.node? p = some { n with children := n.children ++ new } ∧
    List.Forall₂ (Bears t) new xs

/-- One more content, in front of those that are planted after it. -/
theorem Sprouted.bearsBelow {x : Shape} {xs : List Shape} (hc : Sprouted s c t)
    (hp : s.isAlive p = true) (hx : Bears t c x) (hrest : PlantedBelow (t.linkLast p c) p u)
    (hxs : BearsBelow (t.linkLast p c) p u xs) : BearsBelow s p u (x :: xs) := by
  intro n hn
  have hview := node?_linkLast (hc.keeps hn) (hc.ne hp)
  obtain ⟨new, hnew, hall⟩ := hxs { n with children := n.children ++ [c] } (by
    rw [hview, hc.keeps hn]
    simp [hc.ne hp])
  refine ⟨c :: new, by simpa using hnew, .cons (hx.keep_new hc fun y hy => ?_) hall⟩
  -- linking changes only where the new node stands, and planting the rest only the node above
  have hne : y ≠ p := by
    rintro rfl
    exact absurd hp (by simp [hy.1])
  obtain ⟨k, hk⟩ := isAlive_iff.1 hy.2
  have hlink : (t.linkLast p c).node? y =
      some { k with parent := if y = c then some p else k.parent } := by
    rw [hview, hk]
    simp [hne]
  rw [seen, seen, hrest.keeps hlink hne, hk]
  rfl

/-- A new node whose children have been planted. -/
theorem Balanced.bears_create {name : String} {v : Option Value} {xs : List Shape}
    (hs : Balanced s) (hbelow : BearsBelow (s.create name v).2 (s.create name v).1 t xs) :
    ∃ n, t.node? (s.create name v).1 = some n ∧ n.name = name ∧ n.value = v ∧
      BearsAll t n.children xs := by
  obtain ⟨new, hn, hall⟩ := hbelow _ (hs.node?_create_self name v)
  exact ⟨_, hn, rfl, rfl, bearsAll_iff.2 (by simpa using hall)⟩

mutual

/-- A planted content is borne by the new node. -/
theorem Balanced.bears_plant {s : Store} (hs : Balanced s) :
    (x : Shape) → Bears (s.plant x).2 (s.plant x).1 x
  | .plain name value children => by
    rw [Store.plant]
    exact hs.bears_create (((Evolves.create _ _ _).balanced hs).bearsBelow_plantBelow
      (isAlive_iff.2 ⟨_, hs.node?_create_self name _⟩) children)
  | .pointer name target children => by
    rw [Store.plant]
    exact hs.bears_create (((Evolves.create _ _ _).balanced hs).bearsBelow_plantBelow
      (isAlive_iff.2 ⟨_, hs.node?_create_self name _⟩) children)
  | .holder name nested children => by
    have hinner := hs.sprouted_plant nested
    have hbears := hs.bears_plant nested
    rw [Store.plant]
    generalize s.plant nested = inner at hinner hbears ⊢
    obtain ⟨g, t⟩ := inner
    have ht := hinner.evolves.balanced hs
    have halive : (t.create name (some (.node g))).2.isAlive (t.create name (some (.node g))).1 =
        true := isAlive_iff.2 ⟨_, ht.node?_create_self name _⟩
    have hbalanced := (Evolves.create t name (some (.node g))).balanced ht
    have hroot : ∀ x, (some (Value.node g)).bind Value.owned? = some x → t.parent? x = none := by
      intro x hx
      obtain rfl : g = x := by simpa [Value.owned?] using hx
      exact hinner.parent?_root
    -- planting the children moves nothing of the owned tree
    have hplanted := ht.planted_of_below hroot (hbalanced.plantBelow halive children)
    obtain ⟨n, hn, hname, hv, hall⟩ :=
      ht.bears_create (hbalanced.bearsBelow_plantBelow halive children)
    exact ⟨n, g, hn, hname, hv, hbears.keep_new hinner fun y hy => hplanted.seen_eq hy.2, hall⟩

/-- Contents planted below a live node are borne by its further children. -/
theorem Balanced.bearsBelow_plantBelow {s : Store} (hs : Balanced s) {p : Handle}
    (hp : s.isAlive p = true) : (xs : List Shape) → BearsBelow s p (s.plantBelow p xs) xs
  | [] => by
    intro n hn
    rw [Store.plantBelow]
    exact ⟨[], by simpa using hn, .nil⟩
  | x :: xs => by
    rw [Store.plantBelow]
    have hone := (hs.plant x).linkLast hp
    have hbalanced := hone.evolves.balanced hs
    exact (hs.sprouted_plant x).bearsBelow hp (hs.bears_plant x)
      (hbalanced.plantBelow (hone.isAlive hp) _)
      (hbalanced.bearsBelow_plantBelow (hone.isAlive hp) xs)

end

/-- A copy bears the content of its original. -/
theorem Balanced.bears_deepClone (hs : Balanced s) (hh : ∀ y, s.Reaches h y → s.Fixed y)
    (hok : s.deepClone h = .ok (c, t)) : ∃ x, Bears s h x ∧ Bears t c x := by
  obtain ⟨x, hx, hplant⟩ := hs.shape_of_deepClone hh hok
  have hcopy := hs.bears_plant x
  rw [hplant] at hcopy
  exact ⟨x, bears_of_shapeWithin hx, hcopy⟩

/-- A node that bears a content can be copied. -/
theorem Bears.deepClone {x : Shape} (hx : Bears s h x) (hs : Balanced s) :
    s.deepClone h = .ok (s.plant x) := by
  rw [hs.deepClone_eq fun y hy => Or.inl (hx.whole y hy), hx.shape]
  rfl

/-- In a disciplined store a copy bears the content of its original. -/
theorem Disciplined.bears_deepClone (hd : Disciplined s) (hok : s.deepClone h = .ok (c, t))
    (hu : Unwrapped t) : ∃ x, Bears s h x ∧ Bears t c x := by
  refine hd.balanced.bears_deepClone (fun y hy => ?_) hok
  exact hd.fixed ((Evolves.deepClone hok).unwrapped hu) (isAlive_of_deepClone hok) hy

-- ---------------------------------------------------------------------------
-- Trees apart from a node
-- ---------------------------------------------------------------------------

/-- A tree of its own shares nothing with what a node holds that it does not lead to. -/
theorem Disciplined.not_reaches_of_top {k x : Handle} (hd : Disciplined s) (hc : s.Top c)
    (hfar : ¬ s.Reaches c p) (hk : s.Holds p k) (hx : s.isAlive x = true) (hcx : s.Reaches c x) :
    ¬ s.Reaches k x := by
  induction hcx with
  | refl => exact hc.not_reaches hk
  | @tail y x hway hstep ih =>
    intro hreach
    rcases hd.reaches_holder hx hstep hreach with rfl | hback
    · exact hfar (hd.unique hx hstep hk ▸ hway)
    · exact ih hstep.isAlive hback

/-- Some trees of their own bear these contents and do not lead to a node. -/
structure SetAside (h : Handle) (row : List Handle) (contents : List Shape) (t : Store) :
    Prop where
  disciplined : Disciplined t
  aside : ∀ c ∈ row, t.Top c ∧ ¬ t.Reaches c h
  bears : List.Forall₂ (Bears t) row contents

namespace SetAside

variable {row : List Handle} {contents : List Shape} {f k y : Handle}

theorem whole (hr : SetAside p row contents s) : ∀ c ∈ row, s.Whole c :=
  (bearsAll_iff.2 hr.bears).whole

/-- They stay so as long as nobody comes to hold them and nothing that they lead to changes. -/
theorem keep (hr : SetAside p row contents s) (ht : Disciplined t) (htop : ∀ c ∈ row, t.Top c)
    (hseen : ∀ c ∈ row, ∀ y, s.Reaches c y → t.seen y = s.seen y) : SetAside p row contents t := by
  refine ⟨ht, fun c hc => ⟨htop c hc, fun hreach => (hr.aside c hc).2 ?_⟩,
    forall₂_bears_keep hseen hr.bears⟩
  refine hreach.transfer (P := fun y => ¬ s.Reaches c y) (fun _ hy => not_not.2 hy) ?_
  exact fun y z hy hyz => (holds_of_seen_eq (hseen c hc y (not_not.1 hy))).1 hyz

/-- Trees that are set aside stay so where they are not touched. -/
theorem of_keeps (hr : SetAside p row contents s) (ht : Disciplined t) (htop : ∀ c ∈ row, t.Top c)
    (hkeep : ∀ c ∈ row, ∀ y n, s.Reaches c y → s.node? y = some n → t.node? y = some n) :
    SetAside p row contents t :=
  hr.keep ht htop fun c hc => (hr.whole c hc).seen_eq (hkeep c hc)

/-- Another tree of its own shares nothing with them. -/
theorem not_reaches_of_top (hr : SetAside p row contents s) (hk : s.Top k) (hnot : k ∉ row)
    (hc : c ∈ row) (hy : s.Reaches c y) : ¬ s.Reaches k y := by
  intro hky
  rcases hr.disciplined.comparable (hr.whole c hc y hy) hy hky with hck | hkc
  · exact hnot (hk.eq_of_reaches hck ▸ hc)
  · exact hnot ((hr.aside c hc).1.eq_of_reaches hkc ▸ hc)

/-- Nor does what their node holds. -/
theorem not_reaches_of_holds (hr : SetAside p row contents s) (hk : s.Holds p k) (hc : c ∈ row)
    (hy : s.Reaches c y) : ¬ s.Reaches k y :=
  hr.disciplined.not_reaches_of_top (hr.aside c hc).1 (hr.aside c hc).2 hk (hr.whole c hc y hy) hy

/-- A part of another tree may be freed. -/
theorem remove (hr : SetAside p row contents s) (hk : s.Top k) (hnot : k ∉ row)
    (hf : s.Reaches k f) (hlive : s.isAlive f = true) (hu : Unwrapped (s.remove f)) :
    SetAside p row contents (s.remove f) := by
  have hd := hr.disciplined
  have hfreed := hd.freedOnly_remove hlive
  have hthin := hd.thinned_remove f
  have hfar : ∀ {c y}, c ∈ row → s.Reaches c y → ¬ s.Reaches f y := fun hc hy hfy =>
    hr.not_reaches_of_top hk hnot hc hy (hf.trans hfy)
  refine hr.keep ((Since.refl hd).remove f hu).disciplined (fun c hc => ?_) fun c hc y hy => ?_
  · have halive : (s.remove f).isAlive c = true :=
      (hd.isAlive_remove f c).2 ⟨(hr.aside c hc).1.1, hfar hc (.refl _ _)⟩
    exact ⟨halive, fun a ha => (hr.aside c hc).1.2 a (hthin.holds ha halive)⟩
  · rw [seen, seen, hfreed.left y (hfar hc hy)]
    cases hn : s.node? y with
    | none => rfl
    | some n =>
      rw [Option.map_some, filter_ne_of_not_mem fun hmem => ?_]
      exact hfar hc (hy.tail ⟨n, hn, Or.inl hmem⟩) (.refl _ _)

end SetAside

end TreeScript.Store
