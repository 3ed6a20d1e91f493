import TreeScript.Proofs.Store.Plant

/-!
# TreeScript — copies are planted contents

A copy is made node by node: new nodes come while the rest of the original is still to be read, and
they take free slots, or slots that are new. Nothing that was there changes on the way, and a handle
that has been given out and is stale does not come alive again, so what is read late is what it was
in the beginning. The copy is therefore what comes of reading the whole content first and planting
it then, also where the reading comes upon a stale handle or a circle.

* `shapeWithin`, `shape` — the content of a node, read as a whole;
* `Enlarged` — a store to which nodes have come and of which nothing has gone;
* `Enlarged.copyWithin_eq`, `Balanced.deepClone_eq` — a copy is the content, planted;
* `Evolves.deepClone`, `Balanced.deepClone`, `Linked.deepClone` — what copying keeps.
-/

namespace TreeScript.Store

variable {s t : Store} {h p c : Handle}

-- ---------------------------------------------------------------------------
-- Contents
-- ---------------------------------------------------------------------------

/-- The content of a node whose nodes are nested at most `fuel` deep. -/
def shapeWithin (s : Store) : (fuel : Nat) → Handle → Except Fault Shape
  | 0, _ => .error .endless
  | fuel + 1, h => do
    let n ← s.node h
    match n.value with
    | none => return .plain n.name none (← n.children.mapM (shapeWithin s fuel))
    | some (.scalar v) => return .plain n.name (some v) (← n.children.mapM (shapeWithin s fuel))
    | some (.node nested) =>
      let inner ← shapeWithin s fuel nested
      return .holder n.name inner (← n.children.mapM (shapeWithin s fuel))
    | some (.ref target) =>
      return .pointer n.name target (← n.children.mapM (shapeWithin s fuel))

/-- The content of a live node. -/
def shape (s : Store) (h : Handle) : Except Fault Shape := s.shapeWithin (s.slots.size + 1) h

/-- The content of a node with children, once the contents of these are known. -/
theorem shapeWithin_succ_eq_ok {fuel : Nat} {h : Handle} {x : Shape}
    (hok : s.shapeWithin (fuel + 1) h = .ok x) :
    ∃ n xs, s.node? h = some n ∧ n.children.mapM (s.shapeWithin fuel) = .ok xs ∧
      ((n.value = none ∧ x = .plain n.name none xs) ∨
        (∃ v, n.value = some (.scalar v) ∧ x = .plain n.name (some v) xs) ∨
        (∃ g y, n.value = some (.node g) ∧ s.shapeWithin fuel g = .ok y ∧ x = .holder n.name y xs) ∨
        ∃ t, n.value = some (.ref t) ∧ x = .pointer n.name t xs) := by
  unfold shapeWithin node at hok
  cases hn : s.node? h with
  | none => simp [hn, bind, Except.bind] at hok
  | some n =>
    simp only [hn, bind, Except.bind, pure, Except.pure] at hok
    cases hxs : n.children.mapM (s.shapeWithin fuel) with
    | error e =>
      simp only [hxs] at hok
      split at hok
      · simp at hok
      · simp at hok
      · split at hok <;> simp at hok
      · simp at hok
    | ok xs =>
      -- what is left is the value: none, a scalar, an owned tree or a reference
      refine ⟨n, xs, rfl, hxs, ?_⟩
      simp only [hxs] at hok
      split at hok
      next hv => exact Or.inl ⟨hv, (Except.ok.inj hok).symm⟩
      next v hv => exact Or.inr (Or.inl ⟨v, hv, (Except.ok.inj hok).symm⟩)
      next g hv =>
        split at hok
        next => simp at hok
        next y hy => exact Or.inr (Or.inr (Or.inl ⟨g, y, hv, hy, (Except.ok.inj hok).symm⟩))
      next t hv => exact Or.inr (Or.inr (Or.inr ⟨t, hv, (Except.ok.inj hok).symm⟩))

-- ---------------------------------------------------------------------------
-- What a copy brings in
-- ---------------------------------------------------------------------------

/-- A copy is made of a copy of what the node owns, if it owns a node, of a new node, and of copies
of its children. -/
theorem copyWithin_succ {n : Node} (hn : s.node? h = some n) (fuel : Nat) :
    (∃ g, n.value = some (.node g) ∧ s.copyWithin (fuel + 1) h = (s.copyWithin fuel g).bind fun r =>
      ((r.2.create n.name (some (.node r.1))).2.copyBelow (copyWithin fuel)
        (r.2.create n.name (some (.node r.1))).1 n.children).map
          ((r.2.create n.name (some (.node r.1))).1, ·)) ∨
    (∀ g, n.value ≠ some (.node g)) ∧ s.copyWithin (fuel + 1) h =
      ((s.create n.name n.value).2.copyBelow (copyWithin fuel) (s.create n.name n.value).1
        n.children).map ((s.create n.name n.value).1, ·) := by
  rw [copyWithin, node, hn]
  simp only [bind, Except.bind, pure, Except.pure, Except.map]
  cases hv : n.value with
  | none => exact Or.inr ⟨nofun, rfl⟩
  | some v =>
    cases v with
    | scalar v => exact Or.inr ⟨nofun, rfl⟩
    | ref g => exact Or.inr ⟨nofun, rfl⟩
    | node g =>
      refine Or.inl ⟨g, rfl, ?_⟩
      dsimp only

/-- Nodes that own nothing have a content that is read and planted by their children. -/
theorem exists_shell {n : Node} (hv : ∀ g, n.value ≠ some (.node g)) : ∃ shell : List Shape → Shape,
    (∀ (s : Store) xs, s.plant (shell xs) = ((s.create n.name n.value).1,
      (s.create n.name n.value).2.plantBelow (s.create n.name n.value).1 xs)) ∧
    ∀ {s : Store} {h : Handle}, s.node? h = some n → ∀ fuel, s.shapeWithin (fuel + 1) h =
      (n.children.mapM (s.shapeWithin fuel)).map shell := by
  cases hn : n.value with
  | none =>
    -- without an owned tree the content is a shell around that of the children
    refine ⟨.plain n.name none, fun s xs => by rw [plant]; rfl, fun {s h} hh fuel => ?_⟩
    rw [shapeWithin, node, hh]
    simp only [hn, bind, Except.bind]
    cases n.children.mapM (s.shapeWithin fuel) with
    | error e => rfl
    | ok xs => rfl
  | some v =>
    cases v with
    | scalar v =>
      refine ⟨.plain n.name (some v), fun s xs => by rw [plant]; rfl, fun {s h} hh fuel => ?_⟩
      rw [shapeWithin, node, hh]
      simp only [hn, bind, Except.bind]
      cases n.children.mapM (s.shapeWithin fuel) with
      | error e => rfl
      | ok xs => rfl
    | ref g =>
      refine ⟨.pointer n.name g, fun s xs => by rw [plant], fun {s h} hh fuel => ?_⟩
      rw [shapeWithin, node, hh]
      simp only [hn, bind, Except.bind]
      cases n.children.mapM (s.shapeWithin fuel) with
      | error e => rfl
      | ok xs => rfl
    | node g => exact absurd hn (hv g)

/-- If each copy is a planted content, so are the copies of a row of nodes. -/
theorem copyBelow_eq_ok {f : Store → Handle → Except Fault (Handle × Store)}
    (hf : ∀ {s h c t}, f s h = .ok (c, t) → ∃ x, s.plant x = (c, t)) {hs : List Handle}
    (hok : s.copyBelow f p hs = .ok t) : ∃ xs, s.plantBelow p xs = t := by
  induction hs generalizing s with
  | nil => exact ⟨[], by rw [plantBelow]; exact Except.ok.inj hok⟩
  | cons h rest ih =>
    rw [copyBelow] at hok
    cases hone : f s h with
    | error e => simp [hone, bind, Except.bind] at hok
    | ok r =>
      obtain ⟨x, hx⟩ := hf hone
      rw [hone] at hok
      obtain ⟨xs, hxs⟩ := ih hok
      refine ⟨x :: xs, ?_⟩
      rw [plantBelow, hx]
      exact hxs

/-- A copy that has been made is some content that has been planted. Nothing is said here about
which one. -/
theorem copyWithin_eq_ok {fuel : Nat} (hok : s.copyWithin fuel h = .ok (c, t)) :
    ∃ x, s.plant x = (c, t) := by
  induction fuel generalizing s h c t with
  | zero => simp [copyWithin] at hok
  | succ fuel ih =>
    cases hn : s.node? h with
    | none => simp [copyWithin, node, hn, bind, Except.bind] at hok
    | some n =>
      -- the new node and what comes below it
      have hnew : ∀ {u : Store} {v : Option Value}, ((u.create n.name v).2.copyBelow
          (copyWithin fuel) (u.create n.name v).1 n.children).map ((u.create n.name v).1, ·) =
            .ok (c, t) → ∃ xs, ((u.create n.name v).1,
              (u.create n.name v).2.plantBelow (u.create n.name v).1 xs) = (c, t) := by
        intro u v hok
        cases hrow : (u.create n.name v).2.copyBelow (copyWithin fuel) (u.create n.name v).1
            n.children with
        | error e => simp [hrow, Except.map] at hok
        | ok w =>
          obtain ⟨xs, rfl⟩ := copyBelow_eq_ok ih hrow
          rw [hrow] at hok
          exact ⟨xs, Except.ok.inj hok⟩
      rcases copyWithin_succ hn fuel with ⟨g, -, heq⟩ | ⟨hv, heq⟩
      · -- what the node owns is copied first
        rw [heq] at hok
        cases hinner : s.copyWithin fuel g with
        | error e => simp [hinner, Except.bind] at hok
        | ok r =>
          obtain ⟨y, hy⟩ := ih hinner
          rw [hinner] at hok
          obtain ⟨xs, hxs⟩ := hnew hok
          refine ⟨.holder n.name y xs, ?_⟩
          rw [plant, hy]
          exact hxs
      · obtain ⟨shell, hshell, -⟩ := exists_shell hv
        rw [heq] at hok
        obtain ⟨xs, hxs⟩ := hnew hok
        exact ⟨shell xs, by rw [hshell, hxs]⟩

/-- Whatever is met on the way, what a copy has brought in is a planted content. -/
theorem deepClone_eq_ok (hok : s.deepClone h = .ok (c, t)) : ∃ x, s.plant x = (c, t) :=
  copyWithin_eq_ok hok

theorem Evolves.deepClone (hok : s.deepClone h = .ok (c, t)) : Evolves s t := by
  obtain ⟨x, hx⟩ := deepClone_eq_ok hok
  simpa [hx] using Evolves.plant s x

/-- A copy leaves all nodes as they are. -/
theorem Balanced.deepClone (hs : Balanced s) (hok : s.deepClone h = .ok (c, t)) : Planted s c t := by
  obtain ⟨x, hx⟩ := deepClone_eq_ok hok
  simpa [hx] using hs.plant x

theorem Linked.deepClone (hl : Linked s) (hs : Balanced s) (hok : s.deepClone h = .ok (c, t))
    (hu : Unwrapped t ∨ LiveChildren s) : Linked t := by
  obtain ⟨x, hx⟩ := deepClone_eq_ok hok
  simpa [hx] using hl.plant hs x (by simpa [hx] using hu)

theorem LiveChildren.deepClone (hlive : LiveChildren s) (hs : Balanced s)
    (hok : s.deepClone h = .ok (c, t)) : LiveChildren t := by
  obtain ⟨x, hx⟩ := deepClone_eq_ok hok
  simpa [hx] using hlive.plant hs x

-- ---------------------------------------------------------------------------
-- What is still to be read
-- ---------------------------------------------------------------------------

theorem freedAt_detach (s : Store) (x : Handle) (i : Nat) : (s.detach x).freedAt i = s.freedAt i := by
  unfold detach
  split
  next => rfl
  next => rw [freedAt_modify, freedAt_modify]

/-- Making a node frees nothing, whatever its value owns. -/
theorem Balanced.freedAt_create (hs : Balanced s) (name : String) (v : Option Value) (i : Nat) :
    (s.create name v).2.freedAt i = s.freedAt i := by
  cases v with
  | none => exact freedAt_allocate s _ i
  | some v =>
    rw [hs.create_eq_write, write, freedAt_modify]
    split
    next => rw [freedAt_detach, freedAt_allocate]
    next => exact freedAt_allocate s _ i

theorem freedAt_linkLast (s : Store) (p x : Handle) (i : Nat) :
    (s.linkLast p x).freedAt i = s.freedAt i := by
  rw [linkLast, link, freedAt_modify, freedAt_modify]

mutual

/-- Planting frees nothing. -/
theorem Balanced.freedAt_plant {s : Store} (hs : Balanced s) (i : Nat) :
    (x : Shape) → (s.plant x).2.freedAt i = s.freedAt i
  | .plain name value children => by
    rw [Store.plant, ((Evolves.create _ _ _).balanced hs).freedAt_plantBelow i _ children,
      hs.freedAt_create]
  | .pointer name target children => by
    rw [Store.plant, ((Evolves.create _ _ _).balanced hs).freedAt_plantBelow i _ children,
      hs.freedAt_create]
  | .holder name nested children => by
    have ht := (Evolves.plant s nested).balanced hs
    rw [Store.plant, ((Evolves.create _ _ _).balanced ht).freedAt_plantBelow i _ children,
      ht.freedAt_create, hs.freedAt_plant i nested]

theorem Balanced.freedAt_plantBelow {s : Store} (hs : Balanced s) (i : Nat) (p : Handle) :
    (xs : List Shape) → (s.plantBelow p xs).freedAt i = s.freedAt i
  | [] => by rw [Store.plantBelow]
  | x :: rest => by
    have hone : Balanced ((s.plant x).2.linkLast p (s.plant x).1) :=
      ((Evolves.plant s x).trans (.link _ _ _ _)).balanced hs
    rw [Store.plantBelow, hone.freedAt_plantBelow i p rest, freedAt_linkLast, hs.freedAt_plant i x]

end

/-- A store to which nodes have come: all that was there is as it was, and nothing has been
freed. -/
structure Enlarged (s t : Store) : Prop where
  balanced : Balanced t
  evolves : Evolves s t
  keeps {x : Handle} {n : Node} : s.node? x = some n → t.node? x = some n
  freedAt (i : Nat) : t.freedAt i = s.freedAt i

/-- A handle that does not come alive when nodes are made: it is alive, or it has been given out and
handles do not come again. -/
def Fixed (s : Store) (x : Handle) : Prop := s.isAlive x = true ∨ s.Issued x ∧ Unwrapped s

namespace Enlarged

theorem refl (hs : Balanced s) : Enlarged s s := ⟨hs, .refl _, id, fun _ => rfl⟩

theorem plant (h : Enlarged s t) (x : Shape) : Enlarged s (t.plant x).2 where
  balanced := (h.balanced.plant x).evolves.balanced h.balanced
  evolves := h.evolves.trans (h.balanced.plant x).evolves
  keeps hn := (h.balanced.plant x).keeps (h.keeps hn)
  freedAt i := (h.balanced.freedAt_plant i x).trans (h.freedAt i)

/-- What is stale in the larger store was so before. -/
theorem isAlive_eq_false (h : Enlarged s t) {x : Handle} (hx : t.isAlive x = false) :
    s.isAlive x = false := by
  rw [not_isAlive_iff] at hx ⊢
  by_contra hne
  obtain ⟨n, hn⟩ := Option.ne_none_iff_exists'.1 hne
  simp [h.keeps hn] at hx

/-- A node that comes into the larger store was not there before. -/
theorem create_fresh (h : Enlarged s t) (name : String) (v : Option Value) :
    s.isAlive (t.create name v).1 = false := by
  refine h.isAlive_eq_false ?_
  rw [not_isAlive_iff, create_fst]
  exact h.balanced.node?_allocate_fst _

/-- A new node whose value owns a node without parent, or none. -/
theorem create (h : Enlarged s t) (name : String) {v : Option Value}
    (hv : ∀ nested, v.bind Value.owned? = some nested → t.parent? nested = none) :
    Enlarged s (t.create name v).2 where
  balanced := (Evolves.create _ _ _).balanced h.balanced
  evolves := h.evolves.trans (.create _ _ _)
  keeps {x n} hn := by
    have hne : x ≠ (t.create name v).1 := by
      rintro rfl
      have hfresh := h.create_fresh name v
      simp [isAlive, hn] at hfresh
    rw [h.balanced.node?_create name hv, if_neg hne]
    exact h.keeps hn
  freedAt i := (h.balanced.freedAt_create name v i).trans (h.freedAt i)

/-- A node is put below one that has come since. -/
theorem linkLast (h : Enlarged s t) (hp : s.isAlive p = false) (hc : s.isAlive c = false) :
    Enlarged s (t.linkLast p c) where
  balanced := (Evolves.link _ _ _ _).balanced h.balanced
  evolves := h.evolves.trans (.link _ _ _ _)
  keeps {x n} hn := by
    have hx := isAlive_iff.2 ⟨n, hn⟩
    have hxp : x ≠ p := by
      rintro rfl
      simp [hx] at hp
    have hxc : x ≠ c := by
      rintro rfl
      simp [hx] at hc
    rw [Store.linkLast, link, node?_modify_of_ne _ hxp, node?_modify_of_ne _ hxc]
    exact h.keeps hn
  freedAt i := (freedAt_linkLast t p c i).trans (h.freedAt i)

/-- A stale handle is still stale, and a live node still the same. -/
theorem node_eq (h : Enlarged s t) {x : Handle} (hx : s.Fixed x) : t.node x = s.node x := by
  rw [node, node]
  cases hn : s.node? x with
  | some n => rw [h.keeps hn]
  | none =>
    have hdead : s.isAlive x = false := not_isAlive_iff.2 hn
    rcases hx with hlive | ⟨hissued, hu⟩
    · simp [hdead] at hlive
    · have hut : Unwrapped t := fun i => by rw [h.freedAt]; exact hu i
      rw [not_isAlive_iff.1 (h.evolves.not_isAlive hut hissued hdead)]

/-- Copies of a row of nodes that are read as they were when the copying began. -/
theorem copyBelow_eq (h : Enlarged s t) (hp : s.isAlive p = false) {hs : List Handle} {fuel : Nat}
    (hcopy : ∀ x ∈ hs, ∀ {u : Store}, Enlarged s u →
      u.copyWithin fuel x = (s.shapeWithin fuel x).map u.plant) :
    t.copyBelow (copyWithin fuel) p hs = (hs.mapM (s.shapeWithin fuel)).map (t.plantBelow p) := by
  induction hs generalizing t with
  | nil =>
    rw [copyBelow, List.mapM_nil]
    simp [pure, Except.pure, Except.map, plantBelow]
  | cons x rest ih =>
    rw [copyBelow, List.mapM_cons, hcopy x List.mem_cons_self h]
    cases hx : s.shapeWithin fuel x with
    | error e => rfl
    | ok y =>
      -- the copy of the child is new, so linking it enlarges the store once more
      have hfresh : s.isAlive (t.plant y).1 = false :=
        h.isAlive_eq_false (not_isAlive_iff.2 (h.balanced.plant y).fresh)
      have hrest := ih ((h.plant y).linkLast hp hfresh) fun z hz => hcopy z (List.mem_cons_of_mem _ hz)
      simp only [Except.map, bind, Except.bind] at hrest ⊢
      rw [hrest]
      cases rest.mapM (s.shapeWithin fuel) with
      | error e => rfl
      | ok ys =>
        simp only [pure, Except.pure]
        rw [plantBelow]

/-- A copy that is made while nodes come is the content that was there in the beginning, planted. -/
theorem copyWithin_eq (h : Enlarged s t) {fuel : Nat} {x : Handle}
    (hx : ∀ y, s.Reaches x y → s.Fixed y) :
    t.copyWithin fuel x = (s.shapeWithin fuel x).map t.plant := by
  induction fuel generalizing t x with
  | zero => rfl
  | succ fuel ih =>
    have hnode := h.node_eq (hx x (.refl _ _))
    cases hn : s.node? x with
    | none =>
      rw [copyWithin, shapeWithin, hnode, node, hn]
      rfl
    | some n =>
      -- below the node the same holds of every store that was only enlarged
      have hbelow : ∀ y, s.Holds x y → ∀ {u : Store}, Enlarged s u →
          u.copyWithin fuel y = (s.shapeWithin fuel y).map u.plant := fun y hy u hu =>
        ih hu fun z hz => hx z (.head hy hz)
      -- so the children are copied as they are read, one behind the other
      have hrow : ∀ {u : Store} {p : Handle}, Enlarged s u → s.isAlive p = false →
          u.copyBelow (copyWithin fuel) p n.children =
            (n.children.mapM (s.shapeWithin fuel)).map (u.plantBelow p) := fun hu hp =>
        hu.copyBelow_eq hp fun c hc => hbelow c ⟨n, hn, Or.inl hc⟩
      rcases copyWithin_succ (h.keeps hn) fuel with ⟨g, hv, heq⟩ | ⟨hv, heq⟩
      · -- the owned node has been copied when the new node is made
        have hown : s.Holds x g := ⟨n, hn, Or.inr (by rw [Node.owned?, hv]; rfl)⟩
        rw [heq, hbelow g hown h, shapeWithin, node, hn]
        simp only [hv, bind, Except.bind]
        cases s.shapeWithin fuel g with
        | error e => rfl
        | ok y =>
          have hinner : Enlarged s ((t.plant y).2.create n.name (some (.node (t.plant y).1))).2 := by
            refine (h.plant y).create _ fun nested hnested => ?_
            obtain rfl : (t.plant y).1 = nested := by simpa [Value.owned?] using hnested
            exact (h.balanced.plant y).parent?_root
          simp only [Except.map]
          rw [hrow hinner ((h.plant y).create_fresh _ _)]
          cases n.children.mapM (s.shapeWithin fuel) with
          | error e => rfl
          | ok xs =>
            simp only [Except.map, pure, Except.pure]
            rw [Store.plant]
      -- every other value is written down when the node is made
      · obtain ⟨shell, hplant, hread⟩ := exists_shell hv
        have hmade : Enlarged s (t.create n.name n.value).2 := by
          refine h.create _ fun nested hnested => ?_
          cases hvalue : n.value with
          | none => simp [hvalue] at hnested
          | some v => cases v <;> simp_all [Value.owned?]
        rw [heq, hrow hmade (h.create_fresh _ _), hread hn]
        cases n.children.mapM (s.shapeWithin fuel) with
        | error e => rfl
        | ok xs =>
          simp only [Except.map]
          rw [hplant]

end Enlarged

/-- A copy is the content of the original, planted. -/
theorem Balanced.deepClone_eq (hs : Balanced s) (hh : ∀ y, s.Reaches h y → s.Fixed y) :
    s.deepClone h = (s.shape h).map s.plant := (Enlarged.refl hs).copyWithin_eq hh

/-- The content that a copy has been planted from. -/
theorem Balanced.shape_of_deepClone (hs : Balanced s) (hh : ∀ y, s.Reaches h y → s.Fixed y)
    (hok : s.deepClone h = .ok (c, t)) : ∃ x, s.shape h = .ok x ∧ s.plant x = (c, t) := by
  rw [hs.deepClone_eq hh] at hok
  cases hx : s.shape h with
  | error e => simp [hx, Except.map] at hok
  | ok x =>
    rw [hx] at hok
    exact ⟨x, rfl, Except.ok.inj hok⟩

/-- Only a live node is copied. -/
theorem isAlive_of_deepClone (hok : s.deepClone h = .ok (c, t)) : s.isAlive h = true := by
  by_contra hdead
  rw [Bool.not_eq_true, not_isAlive_iff] at hdead
  simp [Store.deepClone, copyWithin, node, hdead, bind, Except.bind] at hok

end TreeScript.Store
