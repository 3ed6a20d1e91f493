import TreeScript.Proofs.Store.Edits
import TreeScript.Store.Shape

/-!
# TreeScript — planting contents

Planting a content makes new nodes and leaves the old ones as they are; planting
below a node adds to its children and changes nothing else that was there.

* `Balanced.node?_create` — a new node whose value moves nobody;
* `Planted`, `Balanced.plant` — planting keeps old nodes, and gives a handle that
  was stale before and has no parent;
* `PlantedBelow`, `Balanced.plantBelow` — the same below a node;
* `Linked.plant`, `LiveChildren.plant` — planting keeps links.
-/

namespace TreeScript.Store

/-- A new node whose value owns no node that has a parent changes no other node. -/
theorem Balanced.node?_create {s : Store} (hs : Balanced s) (name : String) {v : Option Value}
    (hv : ∀ nested, v.bind Value.owned? = some nested → s.parent? nested = none) (x : Handle) :
    (s.create name v).2.node? x =
      if x = (s.create name v).1 then some { name, value := v } else s.node? x := by
  by_cases hx : x = (s.create name v).1
  · rw [if_pos hx, hx, hs.node?_create_self]
  rw [if_neg hx]
  rw [create_fst] at hx
  have hother : (s.allocate { name }).2.node? x = s.node? x := by
    rw [hs.node?_allocate, if_neg hx]
  cases v with
  | none => exact hother
  | some v =>
    have hself : (s.allocate { name }).2.node? (s.allocate { name }).1 = some { name } := by
      rw [hs.node?_allocate, if_pos rfl]
    rw [create_some]
    simp only
    rw [assign_eq_write hself rfl, write, node?_modify_of_ne _ hx]
    split
    next nested hnested =>
      -- the nested node has no parent, so taking it out of its place does nothing
      have hroot : (s.allocate { name }).2.parent? nested = none := by
        have := hv nested hnested
        rw [parent?, hs.node?_allocate] at *
        split <;> simp_all
      simp [detach, hroot, hother]
    next => exact hother

/-- What planting a content does: old nodes stay as they are, and the handle is that
of a new node without parent. -/
structure Planted (s : Store) (h : Handle) (s' : Store) : Prop where
  evolves : Evolves s s'
  keeps {x : Handle} {n : Node} : s.node? x = some n → s'.node? x = some n
  fresh : s.node? h = none
  root : ∃ n, s'.node? h = some n ∧ n.parent = none

/-- What planting contents below a node does: the node gets further children, and the
other old nodes stay as they are. -/
structure PlantedBelow (s : Store) (p : Handle) (s' : Store) : Prop where
  evolves : Evolves s s'
  keeps {x : Handle} {n : Node} : s.node? x = some n → x ≠ p → s'.node? x = some n
  grown {n : Node} : s.node? p = some n →
    ∃ new, s'.node? p = some { n with children := n.children ++ new }

/-- A node that has come into a store. -/
def Fresh (s s' : Store) (h : Handle) : Prop := s.isAlive h = false ∧ s'.isAlive h = true

/-- What is stale in a larger store was stale in the smaller one. -/
theorem isAlive_eq_false_of_keeps {s s' : Store}
    (hkeeps : ∀ x, s.isAlive x = true → s'.isAlive x = true) {h : Handle}
    (hdead : s'.isAlive h = false) : s.isAlive h = false := by
  cases halive : s.isAlive h with
  | false => rfl
  | true => simp [hkeeps h halive] at hdead

/-- What was there is not the planted node. -/
theorem Planted.ne {s s' : Store} {h x : Handle} (hp : Planted s h s') (hx : s.isAlive x = true) :
    x ≠ h := by
  rintro rfl
  simp [isAlive, hp.fresh] at hx

theorem Planted.isAlive {s s' : Store} {h x : Handle} (hp : Planted s h s')
    (hx : s.isAlive x = true) : s'.isAlive x = true := by
  obtain ⟨n, hn⟩ := isAlive_iff.1 hx
  exact isAlive_iff.2 ⟨n, hp.keeps hn⟩

/-- Linking behind the last child changes the parent of the one and the children of the other. -/
theorem node?_linkLast {s : Store} {p c : Handle} {n : Node} (hn : s.node? p = some n)
    (hne : p ≠ c) (x : Handle) :
    (s.linkLast p c).node? x = (s.node? x).map fun k =>
      { k with
        parent := if x = c then some p else k.parent
        children := if x = p then k.children ++ [c] else k.children } := by
  rw [linkLast, childList_eq hn, node?_link hne]
  by_cases hx : x = p
  · subst hx
    simp [hn]
  · simp [hx]

@[simp] theorem isAlive_linkLast (s : Store) (p c x : Handle) :
    (s.linkLast p c).isAlive x = s.isAlive x := isAlive_link s p _ c x

/-- A new node with contents planted below it. -/
theorem Balanced.planted_of_below {s s' : Store} (hs : Balanced s) {name : String}
    {v : Option Value}
    (hv : ∀ nested, v.bind Value.owned? = some nested → s.parent? nested = none)
    (hbelow : PlantedBelow (s.create name v).2 (s.create name v).1 s') :
    Planted s (s.create name v).1 s' := by
  have hfresh : s.node? (s.create name v).1 = none := by
    rw [create_fst]
    exact hs.node?_allocate_fst _
  obtain ⟨new, hself⟩ := hbelow.grown (hs.node?_create_self name v)
  refine ⟨(Evolves.create s name v).trans hbelow.evolves, ?_, hfresh, ⟨_, hself, rfl⟩⟩
  intro x n hx
  have hne : x ≠ (s.create name v).1 := by
    rintro rfl
    simp [hfresh] at hx
  refine hbelow.keeps ?_ hne
  rw [hs.node?_create name hv, if_neg hne, hx]

/-- One content planted below a node. -/
theorem Planted.linkLast {s s' : Store} {p c : Handle} (hc : Planted s c s')
    (hp : s.isAlive p = true) : PlantedBelow s p (s'.linkLast p c) := by
  obtain ⟨n, hn⟩ := isAlive_iff.1 hp
  have hne := hc.ne hp
  have hview := node?_linkLast (hc.keeps hn) hne
  refine ⟨hc.evolves.trans (.link _ _ _ _), ?_, ?_⟩
  · intro x k hk hx
    have hxc := hc.ne (isAlive_iff.2 ⟨k, hk⟩)
    rw [hview, hc.keeps hk]
    simp [hx, hxc]
  · intro k hk
    obtain rfl : n = k := Option.some.inj (hn.symm.trans hk)
    refine ⟨[c], ?_⟩
    rw [hview, hc.keeps hn]
    simp [hne]

/-- Planting once more below the same node. -/
theorem PlantedBelow.trans {s t u : Store} {p : Handle} (h₁ : PlantedBelow s p t)
    (h₂ : PlantedBelow t p u) : PlantedBelow s p u := by
  refine ⟨h₁.evolves.trans h₂.evolves, fun hx hne => h₂.keeps (h₁.keeps hx hne) hne, fun hn => ?_⟩
  obtain ⟨new₁, hn₁⟩ := h₁.grown hn
  obtain ⟨new₂, hn₂⟩ := h₂.grown hn₁
  exact ⟨new₁ ++ new₂, by simpa using hn₂⟩

/-- The node below which something is planted is alive. -/
theorem PlantedBelow.isAlive {s s' : Store} {p : Handle} (h : PlantedBelow s p s')
    (hp : s.isAlive p = true) : s'.isAlive p = true := by
  obtain ⟨n, hn⟩ := isAlive_iff.1 hp
  obtain ⟨new, hn'⟩ := h.grown hn
  exact isAlive_iff.2 ⟨_, hn'⟩

theorem Planted.parent?_root {s s' : Store} {h : Handle} (hp : Planted s h s') :
    s'.parent? h = none := by
  obtain ⟨n, hn, hroot⟩ := hp.root
  simp [parent?, hn, hroot]

mutual

theorem Evolves.plant (s : Store) : (x : Shape) → Evolves s (s.plant x).2
  | .plain name value children => by
    rw [Store.plant]
    exact (Evolves.create _ _ _).trans (.plantBelow _ _ children)
  | .holder name nested children => by
    rw [Store.plant]
    exact ((Evolves.plant s nested).trans (.create _ _ _)).trans (.plantBelow _ _ children)
  | .pointer name target children => by
    rw [Store.plant]
    exact (Evolves.create _ _ _).trans (.plantBelow _ _ children)

theorem Evolves.plantBelow (s : Store) (p : Handle) :
    (xs : List Shape) → Evolves s (s.plantBelow p xs)
  | [] => by rw [Store.plantBelow]
  | x :: rest => by
    rw [Store.plantBelow]
    exact ((Evolves.plant s x).trans (.link _ _ _ _)).trans (.plantBelow _ _ rest)

end

mutual

/-- Planting a content keeps old nodes. -/
theorem Balanced.plant {s : Store} (hs : Balanced s) :
    (x : Shape) → Planted s (s.plant x).1 (s.plant x).2
  | .plain name value children => by
    rw [Store.plant]
    refine hs.planted_of_below (fun nested h => ?_) (((Evolves.create _ _ _).balanced hs).plantBelow
      (isAlive_iff.2 ⟨_, hs.node?_create_self name _⟩) children)
    cases value <;> simp [Value.owned?] at h
  | .holder name nested children => by
    rw [Store.plant]
    have hinner := hs.plant nested
    have ht := hinner.evolves.balanced hs
    have hv : ∀ g, (some (Value.node (s.plant nested).1)).bind Value.owned? = some g →
        (s.plant nested).2.parent? g = none := by
      intro g hg
      obtain rfl : (s.plant nested).1 = g := by simpa [Value.owned?] using hg
      exact hinner.parent?_root
    -- the owned tree is planted first and has no parent, so the new node may own it
    have hplanted := ht.planted_of_below hv
      (((Evolves.create _ _ _).balanced ht).plantBelow
        (isAlive_iff.2 ⟨_, ht.node?_create_self name _⟩) children)
    refine ⟨hinner.evolves.trans hplanted.evolves, fun hx => hplanted.keeps (hinner.keeps hx), ?_,
      hplanted.root⟩
    by_contra hne
    obtain ⟨n, hn⟩ := Option.ne_none_iff_exists'.1 hne
    exact hplanted.ne (isAlive_iff.2 ⟨n, hinner.keeps hn⟩) rfl
  | .pointer name target children => by
    rw [Store.plant]
    exact hs.planted_of_below (fun nested h => by simp [Value.owned?] at h)
      (((Evolves.create _ _ _).balanced hs).plantBelow
        (isAlive_iff.2 ⟨_, hs.node?_create_self name _⟩) children)

/-- Planting contents below a live node keeps the other old nodes. -/
theorem Balanced.plantBelow {s : Store} (hs : Balanced s) {p : Handle} (hp : s.isAlive p = true) :
    (xs : List Shape) → PlantedBelow s p (s.plantBelow p xs)
  | [] => by
    rw [Store.plantBelow]
    exact ⟨.refl _, fun hx _ => hx, fun {n} hn => ⟨[], by simpa using hn⟩⟩
  | x :: rest => by
    rw [Store.plantBelow]
    have hone := (hs.plant x).linkLast hp
    exact hone.trans ((hone.evolves.balanced hs).plantBelow (hone.isAlive hp) rest)

end

-- ---------------------------------------------------------------------------
-- Links
-- ---------------------------------------------------------------------------

/-- Where old nodes stay as they are, the way up from an old node passes old nodes. -/
theorem Linked.isAlive_of_up {s s' : Store} (hl : Linked s)
    (hkeeps : ∀ {x n}, s.node? x = some n → s'.node? x = some n) {p a : Handle}
    (hp : s.isAlive p = true) (hup : Relation.ReflTransGen s'.ChildOf p a) :
    s.isAlive a = true := by
  induction hup with
  | refl => exact hp
  | tail _ hstep ih =>
    obtain ⟨n, hn⟩ := isAlive_iff.1 ih
    obtain ⟨m, hm, hmp⟩ := childOf_iff.1 hstep
    obtain rfl : n = m := Option.some.inj ((hkeeps hn).symm.trans hm)
    exact hl.isAlive_parent (childOf_iff.2 ⟨n, hn, hmp⟩)

/-- A planted node does not stand above an old one, so it can be linked below it. -/
theorem Linked.linkLast_planted {s s' : Store} (hl : Linked s) (hl' : Linked s') {p c : Handle}
    (hc : Planted s c s') (hp : s.isAlive p = true) : Linked (s'.linkLast p c) := by
  obtain ⟨n, hn⟩ := isAlive_iff.1 hp
  obtain ⟨m, hm, hroot⟩ := hc.root
  refine hl'.linkLast (isAlive_iff.2 ⟨n, hc.keeps hn⟩) hm hroot fun hup => ?_
  exact hc.ne (hl.isAlive_of_up hc.keeps hp hup) rfl

mutual

theorem LiveChildren.plant {s : Store} (hlive : LiveChildren s) (hs : Balanced s) :
    (x : Shape) → LiveChildren (s.plant x).2
  | .plain name value children => by
    rw [Store.plant]
    exact (hlive.create hs _ _).plantBelow ((Evolves.create _ _ _).balanced hs)
      (isAlive_iff.2 ⟨_, hs.node?_create_self name _⟩) children
  | .holder name nested children => by
    rw [Store.plant]
    have ht := (hs.plant nested).evolves.balanced hs
    exact ((hlive.plant hs nested).create ht _ _).plantBelow ((Evolves.create _ _ _).balanced ht)
      (isAlive_iff.2 ⟨_, ht.node?_create_self name _⟩) children
  | .pointer name target children => by
    rw [Store.plant]
    exact (hlive.create hs _ _).plantBelow ((Evolves.create _ _ _).balanced hs)
      (isAlive_iff.2 ⟨_, hs.node?_create_self name _⟩) children

theorem LiveChildren.plantBelow {s : Store} (hlive : LiveChildren s) (hs : Balanced s) {p : Handle}
    (hp : s.isAlive p = true) : (xs : List Shape) → LiveChildren (s.plantBelow p xs)
  | [] => by
    rw [Store.plantBelow]
    exact hlive
  | x :: rest => by
    rw [Store.plantBelow]
    have hx := hs.plant x
    obtain ⟨m, hm, -⟩ := hx.root
    exact ((hlive.plant hs x).link p _ (isAlive_iff.2 ⟨m, hm⟩)).plantBelow
      ((hx.linkLast hp).evolves.balanced hs) ((hx.linkLast hp).isAlive hp) rest

end

mutual

/-- Planting a content keeps links. -/
theorem Linked.plant {s : Store} (hl : Linked s) (hs : Balanced s) :
    (x : Shape) → Unwrapped (s.plant x).2 ∨ LiveChildren s → Linked (s.plant x).2
  | .plain name value children, hu => by
    rw [Store.plant] at hu ⊢
    have hcreate := hl.create hs name (value.map .scalar)
      (hu.imp_left (Evolves.plantBelow _ _ _).unwrapped)
    exact hcreate.plantBelow ((Evolves.create _ _ _).balanced hs)
      (isAlive_iff.2 ⟨_, hs.node?_create_self name _⟩) children
      (hu.imp_right fun hlive => hlive.create hs _ _)
  | .holder name nested children, hu => by
    rw [Store.plant] at hu ⊢
    have ht := (hs.plant nested).evolves.balanced hs
    -- the owned tree, then the node that owns it, then its children
    have hinner := hl.plant hs nested
      (hu.imp_left ((Evolves.create _ _ _).trans (.plantBelow _ _ _)).unwrapped)
    have hut := hu.imp_right fun hlive => hlive.plant hs nested
    have hcreate := hinner.create ht name (some (.node (s.plant nested).1))
      (hut.imp_left (Evolves.plantBelow _ _ _).unwrapped)
    exact hcreate.plantBelow ((Evolves.create _ _ _).balanced ht)
      (isAlive_iff.2 ⟨_, ht.node?_create_self name _⟩) children
      (hut.imp_right fun hlive => hlive.create ht _ _)
  | .pointer name target children, hu => by
    rw [Store.plant] at hu ⊢
    have hcreate := hl.create hs name (some (.ref target))
      (hu.imp_left (Evolves.plantBelow _ _ _).unwrapped)
    exact hcreate.plantBelow ((Evolves.create _ _ _).balanced hs)
      (isAlive_iff.2 ⟨_, hs.node?_create_self name _⟩) children
      (hu.imp_right fun hlive => hlive.create hs _ _)

/-- Planting contents below a live node keeps links. -/
theorem Linked.plantBelow {s : Store} (hl : Linked s) (hs : Balanced s) {p : Handle}
    (hp : s.isAlive p = true) :
    (xs : List Shape) → Unwrapped (s.plantBelow p xs) ∨ LiveChildren s → Linked (s.plantBelow p xs)
  | [], _ => by
    rw [Store.plantBelow]
    exact hl
  | x :: rest, hu => by
    rw [Store.plantBelow] at hu ⊢
    have hx := hs.plant x
    have hone := hx.linkLast hp
    have hone' := hone.evolves.balanced hs
    obtain ⟨m, hm, -⟩ := hx.root
    have hplant := hl.plant hs x
      (hu.imp_left ((Evolves.link _ _ _ _).trans (.plantBelow _ _ rest)).unwrapped)
    exact (hl.linkLast_planted hplant hx hp).plantBelow hone' (hone.isAlive hp) rest
      (hu.imp_right fun hlive => (hlive.plant hs x).link p _ (isAlive_iff.2 ⟨m, hm⟩))

end

end TreeScript.Store
