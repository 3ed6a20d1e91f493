import TreeScript.Proofs.Store.Adopt
import TreeScript.Proofs.Store.Bare
import TreeScript.Proofs.Store.Count

/-!
# TreeScript — a fence around a store

All nodes that are in a store can be fenced off at once; or all but those that one node
leads to, which is at the door then. Where nothing but new nodes is touched, and nobody
is left whom nobody held, no node has come or gone.

* `Fence.around` — the fence, with a door or without;
* `Fence.sealed_around`, `Disciplined.fenced_around` — a store is inside its own fence;
* `within_around`, `within_sealed` — fences of a store and of a later one;
* `Fence.blank`, `Fenced.bare_of_blank` — trees that come in without references;
* `WellFormed` — stores in which no node that is owned is gone;
* `Since.live_eq` — as many nodes as before;
* `Since.not_isAlive_of_renewed` — what a node held and lost is gone.
-/

namespace TreeScript

/-- A live node that the node at the door does not lead to. -/
def Store.Beside (m : Store) (door : Option Handle) (x : Handle) : Prop :=
  m.isAlive x = true ∧ ∀ d ∈ door, ¬ m.Reaches d x

namespace Fence

/-- All nodes of a store are fenced off, but not those that the node at the door leads
to. Without a door, references stay inside. -/
def around (m : Store) (door : Option Handle) : Fence where
  off i := ∃ x, m.Beside door x ∧ x.index = i
  door := door
  refs h := door = none → ¬ ∃ x, m.Beside door x ∧ x.index = h.index

/-- All nodes of a store are fenced off, and nobody inside has a reference. -/
def blank (m : Store) : Fence := { around m none with refs := fun _ => False }

/-- A fence around all nodes of a store has no door. -/
theorem sealed_around (m : Store) : (around m none).Sealed where
  door := rfl
  refs h := by simp [around, Inside, Open]

end Fence

namespace Store

variable {s m t : Store} {T : Set Handle} {door : Option Handle}

-- ---------------------------------------------------------------------------
-- A store inside its own fence
-- ---------------------------------------------------------------------------

/-- Without a door every live node is beside it. -/
theorem beside_none {x : Handle} : m.Beside none x ↔ m.isAlive x = true := by simp [Beside]

/-- What is beside the door is behind the fence. -/
theorem off_around {x : Handle} (hx : m.Beside door x) : (Fence.around m door).off x.index :=
  ⟨x, hx, rfl⟩

/-- Of the nodes of a store, those inside are the ones that the door leads to. -/
theorem open_around_iff {x : Handle} (hx : m.isAlive x = true) :
    (Fence.around m door).Open x ↔ ∃ d ∈ door, m.Reaches d x := by
  constructor
  · intro hopen
    by_contra hnone
    exact hopen (off_around ⟨hx, fun d hd hreach => hnone ⟨d, hd, hreach⟩⟩)
  · rintro ⟨d, hd, hreach⟩ ⟨y, ⟨hy, hbeside⟩, hindex⟩
    obtain ⟨n, hn⟩ := isAlive_iff.1 hx
    obtain ⟨k, hk⟩ := isAlive_iff.1 hy
    obtain rfl := index_injective hk hn hindex.symm
    exact hbeside d hd hreach

/-- The slot of a live node is not free. -/
theorem Balanced.not_mem_free (hm : Balanced m) {x : Handle} (hx : m.isAlive x = true) :
    x.index ∉ m.free := by
  intro hfree
  obtain ⟨slot, hslot, hempty⟩ := (hm.mem_free _).1 hfree
  have hoccupied := (isAlive_iff_isOccupied.1 hx).1
  simp [isOccupied, hslot, hempty] at hoccupied

/-- What the node at the door leads to points at nothing else, references apart. -/
theorem Disciplined.contains_around (hm : Disciplined m) {d x : Handle} {n : Node}
    (hwhole : m.Whole d) (hx : m.Reaches d x) (hn : m.node? x = some n) :
    (Fence.around m (some d)).Contains x n := by
  have hopen : ∀ {y}, m.Reaches d y → (Fence.around m (some d)).Open y := fun hy =>
    (open_around_iff (hwhole _ hy)).2 ⟨d, rfl, hy⟩
  -- what is held below the door is not the door
  have hinside : ∀ {y}, m.Holds x y → (Fence.around m (some d)).Inside y := by
    intro y hxy
    refine ⟨hopen (hx.tail hxy), fun heq => ?_⟩
    obtain rfl : y = d := Option.some.inj heq
    exact hm.not_reaches_holder hxy hx
  refine ⟨fun hne p hp => hopen ?_, fun c hc => hinside ⟨n, hn, Or.inl hc⟩, fun v hv => ?_⟩
  · have hheld : m.Holds p x := holds_of_childOf hm.linked (childOf_iff.2 ⟨n, hn, hp⟩)
    rcases hm.reaches_holder (isAlive_iff.2 ⟨n, hn⟩) hheld hx with rfl | hreach
    · exact absurd rfl hne
    · exact hreach
  · cases v with
    | scalar _ => trivial
    | node g => exact hinside ⟨n, hn, Or.inr (by simp [Node.owned?, hv, Value.owned?])⟩
    | ref g => exact fun hnone => by simp at hnone

/-- A disciplined store has kept to a fence around its nodes, from itself on. -/
theorem Disciplined.fenced_around (hm : Disciplined m) (hwhole : ∀ d ∈ door, m.Whole d) :
    Fenced (Fence.around m door) m m where
  balanced := hm.balanced
  slots _ := rfl
  size := by
    rintro i ⟨x, ⟨hx, -⟩, rfl⟩
    obtain ⟨n, hn⟩ := isAlive_iff.1 hx
    exact index_lt_size hn
  free := by
    rintro i hi ⟨x, ⟨hx, -⟩, rfl⟩
    exact hm.balanced.not_mem_free hx hi
  door {d} hd := by
    obtain ⟨n, hn⟩ := isAlive_iff.1 (hwhole d hd d (.refl _ _))
    exact ⟨n, n, hn, hn, rfl, rfl⟩
  nodes {x n} hx hn := by
    obtain ⟨d, hd, hreach⟩ := (open_around_iff (isAlive_iff.2 ⟨n, hn⟩)).1 hx
    obtain rfl := Option.mem_def.1 hd
    exact hm.contains_around (hwhole d rfl) hreach hn

theorem Disciplined.fenced_sealed (hm : Disciplined m) : Fenced (Fence.around m none) m m :=
  hm.fenced_around (by simp)

/-- A node of the store is as it was if it is fenced off. -/
theorem Fenced.node?_around (hF : Fenced (Fence.around m door) m t) {x : Handle}
    (hx : m.Beside door x) : t.node? x = m.node? x :=
  hF.node?_off fun hopen => hopen (off_around hx)

theorem Fenced.isAlive_around (hF : Fenced (Fence.around m door) m t) {x : Handle}
    (hx : m.Beside door x) : t.isAlive x = true := by
  rw [isAlive, hF.node?_around hx]
  exact hx.1

/-- Where all nodes are fenced off, all of them are as they were. -/
theorem Fenced.keeps (hF : Fenced (Fence.around m none) m t) {x : Handle} {n : Node}
    (hn : m.node? x = some n) : t.node? x = some n := by
  rw [hF.node?_around (beside_none.2 (isAlive_iff.2 ⟨n, hn⟩)), hn]

-- ---------------------------------------------------------------------------
-- Fences of a store and of a later one
-- ---------------------------------------------------------------------------

/-- Where a store has kept its nodes, the fence around it is wider than the later one. -/
theorem within_around (hwhole : ∀ d ∈ door, s.Whole d)
    (hkeep : ∀ x n, s.node? x = some n → m.node? x = some n) :
    Within (Fence.around s door) (Fence.around m door) := by
  have hoff : ∀ {i}, (Fence.around s door).off i → (Fence.around m door).off i := by
    rintro i ⟨x, ⟨hx, hbeside⟩, rfl⟩
    obtain ⟨n, hn⟩ := isAlive_iff.1 hx
    refine off_around ⟨isAlive_iff.2 ⟨n, hkeep x n hn⟩, fun d hd hreach => hbeside d hd ?_⟩
    exact (hwhole d hd).reaches_back (fun y k _ hk => hkeep y k hk) hreach
  exact ⟨hoff, Or.inl rfl, fun hh hnone hs => hh hnone (hoff hs)⟩

/-- The fence with a door is wider than one around all that is there later. -/
theorem within_sealed {d : Handle} (hbeside : ∀ x, m.Beside (some d) x → t.isAlive x = true)
    (hd : t.isAlive d = true) : Within (Fence.around m (some d)) (Fence.around t none) where
  off := by
    rintro i ⟨x, hx, rfl⟩
    exact off_around (beside_none.2 (hbeside x hx))
  door := Or.inr ⟨rfl, fun d' hd' => by
    obtain rfl : d = d' := Option.some.inj hd'
    exact off_around (beside_none.2 hd)⟩
  refs _ hnone := by simp at hnone

/-- A fence with a door is wider than one without. -/
theorem Disciplined.fenced_loosen (hm : Disciplined m) (hwhole : ∀ d ∈ door, m.Whole d)
    (hF : Fenced (Fence.around m none) m t) : Fenced (Fence.around m door) m t := by
  cases door with
  | none => exact hF
  | some d =>
    exact (hm.fenced_around hwhole).widen hF
      (within_sealed (fun _ hx => hx.1) (hwhole d rfl d (.refl _ _)))

/-- A fence around all nodes, with or without a door, lets through less than one with empty slots
only. -/
theorem within_blank (halive : ∀ d ∈ door, m.isAlive d = true) :
    Within (Fence.around m door) (Fence.blank m) where
  off := by
    rintro i ⟨x, hx, rfl⟩
    exact off_around (beside_none.2 hx.1)
  door := Or.inr ⟨rfl, fun d hd => off_around (beside_none.2 (halive d hd))⟩
  refs hh := hh.elim

-- ---------------------------------------------------------------------------
-- Trees without references
-- ---------------------------------------------------------------------------

/-- A disciplined store has kept to the fence that is open everywhere. -/
theorem Disciplined.fenced_blank (hm : Disciplined m) : Fenced (Fence.blank m) m m := by
  have hF := hm.fenced_sealed
  refine ⟨hF.balanced, hF.slots, hF.size, hF.free, hF.door, fun {x n} hx hn => ?_⟩
  obtain ⟨d, hd, -⟩ := (open_around_iff (isAlive_iff.2 ⟨n, hn⟩)).1 hx
  simp at hd

/-- A tree that has come in where no reference may come in has none. -/
theorem Fenced.bare_of_blank (hF : Fenced (Fence.blank m) s t) {c : Handle}
    (hc : (Fence.blank m).Open c) (hwhole : t.Whole c) : Bare t c := by
  have hopen : ∀ {x}, t.Reaches c x → (Fence.blank m).Open x := by
    intro x hx
    induction hx with
    | refl => exact hc
    | tail _ hstep ih =>
      obtain ⟨n, hn, hheld⟩ := hstep
      rcases hheld with hmem | hown
      · exact ((hF.nodes ih hn).children _ hmem).1
      · exact ((hF.nodes ih hn).owned hown).1
  intro x hx
  obtain ⟨n, hn⟩ := isAlive_iff.1 (hwhole x hx)
  exact ⟨n, hn, fun g hg => (hF.nodes (hopen hx) hn).value _ hg⟩

/-- All that a new tree leads to is alive. -/
theorem Sprouted.whole {c : Handle} (hc : Sprouted s c t) : t.Whole c := fun _ hx => (hc.new hx).2

/-- A text that has been read has no references. -/
theorem Disciplined.bare_parse (hm : Disciplined m) {text : String} {c : Handle}
    (hok : m.parse text = .ok (c, t)) : Bare t c := by
  obtain ⟨hF, hin⟩ := hm.fenced_blank.parse hok
  exact hF.bare_of_blank hin.1 (hm.balanced.sprouted_parse hok).whole

-- ---------------------------------------------------------------------------
-- What is there afterwards
-- ---------------------------------------------------------------------------

/-- A disciplined store in which every owned node is there, and every reference is to a
node that has been there. -/
structure WellFormed (s : Store) : Prop extends Disciplined s where
  owned {o c : Handle} : s.Owns o c → s.isAlive c = true
  known {h g : Handle} {n : Node} : s.node? h = some n → n.value = some (.ref g) → s.Issued g

/-- In a well-formed store everything held is alive. -/
theorem WellFormed.isAlive_of_holds (hs : WellFormed s) {a b : Handle} (hab : s.Holds a b) :
    s.isAlive b = true := by
  rcases holds_iff_childList.1 hab with hmem | hown
  · exact hs.live.of_mem_childList hmem
  · exact hs.owned hown

/-- In a well-formed store all that a live node leads to is alive. -/
theorem WellFormed.whole (hs : WellFormed s) {a : Handle} (ha : s.isAlive a = true) :
    s.Whole a := by
  intro x hx
  rcases hx.cases_last with rfl | ⟨y, -, hy⟩
  · exact ha
  · exact hs.isAlive_of_holds hy

/-- Where no old node is touched and nobody is left over, nobody has come. -/
theorem Since.isAlive_of_around (hs : WellFormed s) (h : Since s { b | s.Top b } t)
    (hF : Fenced (Fence.around s none) s t) {x : Handle} (hx : t.isAlive x = true) :
    s.isAlive x = true := by
  obtain ⟨r, htop, hreach⟩ := h.disciplined.exists_top hx
  have hr : s.isAlive r = true := ((h.tops r).1 htop).1
  clear htop hx
  induction hreach with
  | refl => exact hr
  | tail _ hstep ih =>
    obtain ⟨n, hn⟩ := isAlive_iff.1 ih
    exact hs.isAlive_of_holds ((holds_iff hn).2 ((holds_iff (hF.keeps hn)).1 hstep))

/-- If the tops are the same and nothing that was there has been touched, as many nodes are alive as
before. -/
theorem Since.live_eq (hs : WellFormed s) (h : Since s { b | s.Top b } t)
    (hF : Fenced (Fence.around s none) s t) : t.live = s.live := by
  refine hs.balanced.live_eq_of_isAlive h.disciplined.balanced fun x => ?_
  rw [Bool.eq_iff_iff]
  exact ⟨h.isAlive_of_around hs hF, fun hx => hF.isAlive_around (beside_none.2 hx)⟩

/-- A node that somebody held and that is still there is held by the same node. -/
theorem Since.holds_of_holds (h : Since m { b | m.Top b } t) (hm : Disciplined m) {a b : Handle}
    (hab : m.Holds a b) (hb : m.isAlive b = true) (hlast : t.isAlive b = true) : t.Holds a b := by
  have hnot : ¬ t.Top b := fun htop => ((h.tops b).1 htop).2 a hab
  obtain ⟨a', ha'⟩ : ∃ a', t.Holds a' b := by
    by_contra hnone
    exact hnot ⟨hlast, fun x hx => hnone ⟨x, hx⟩⟩
  obtain rfl := hm.unique hb hab (h.settled hb hlast ha')
  exact ha'

/-- If all that a node holds is new, all that it led to is gone. -/
theorem Since.not_isAlive_of_renewed (h : Since m { b | m.Top b } t) (hm : Disciplined m)
    {d : Handle} (hnew : ∀ c, t.Holds d c → t.isAlive c = true → m.isAlive c = false) {x : Handle}
    (hx : Relation.TransGen m.Holds d x) (hlive : m.isAlive x = true) : t.isAlive x = false := by
  induction hx with
  | single hstep =>
    by_contra hlast
    rw [Bool.not_eq_false] at hlast
    have hdead := hnew _ (h.holds_of_holds hm hstep hlive hlast) hlast
    simp [hlive] at hdead
  | tail _ hstep ih =>
    by_contra hlast
    rw [Bool.not_eq_false] at hlast
    have hdead := ih hstep.isAlive
    simp [(h.holds_of_holds hm hstep hlive hlast).isAlive] at hdead

/-- Of two nodes that lead to a third, one leads to the other. -/
theorem Disciplined.comparable (hm : Disciplined m) {a b x : Handle} (hx : m.isAlive x = true)
    (ha : m.Reaches a x) (hb : m.Reaches b x) : m.Reaches a b ∨ m.Reaches b a := by
  induction ha with
  | refl => exact Or.inr hb
  | tail hway hstep ih =>
    rcases hm.reaches_holder hx hstep hb with rfl | hb
    · exact Or.inl (hway.tail hstep)
    · exact ih hstep.isAlive hb

/-- If neither of two nodes leads to the other, they lead to nothing in common. -/
theorem Disciplined.beside_of_apart (hm : Disciplined m) {a x : Handle} (ha : m.Whole a)
    (hapart : ∀ d ∈ door, ¬ m.Reaches a d ∧ ¬ m.Reaches d a) (hx : m.Reaches a x) :
    m.Beside door x := by
  refine ⟨ha x hx, fun d hd hdx => ?_⟩
  rcases hm.comparable (ha x hx) hx hdx with had | hda
  · exact (hapart d hd).1 had
  · exact (hapart d hd).2 hda

end Store

end TreeScript
