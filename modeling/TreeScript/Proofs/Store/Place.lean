import TreeScript.Proofs.Store.Calls
import TreeScript.Proofs.Store.Count
import TreeScript.Proofs.Store.Showable
import TreeScript.Proofs.Store.Siblings

/-!
# TreeScript — where a moved node comes to stand

A node that is moved stands between the children that stood in front of the index and those
that stood from it on, wherever it came from: out of no place, from another parent, or from
either side of the index among the same children. Its own old place no longer counts, so an
index behind it is one too large once it has been taken out.

* `filter_insertIdx` — a list without an element, and with it at a cut;
* `Linked.targetIndex_eq` — the index at which it is put in again;
* `Linked.node?_moveBelow` — every node after a move;
* `Placed`, `insert_places` — a move, and when it is refused.
-/

namespace TreeScript.Store

variable {s t : Store} {parent child x : Handle} {index : Nat}

-- ---------------------------------------------------------------------------
-- Lists
-- ---------------------------------------------------------------------------

/-- Putting an element in behind some others. -/
theorem insertIdx_length_append {α : Type} (front rest : List α) (c : α) :
    (front ++ rest).insertIdx front.length c = front ++ c :: rest := by
  induction front with
  | nil => rfl
  | cons y front ih => rw [List.cons_append, List.length_cons, List.insertIdx_succ_cons, ih,
      List.cons_append]

/-- A list without an element, into which it is put at a cut. -/
theorem filter_insertIdx {α : Type} [DecidableEq α] (xs : List α) (i : Nat) (c : α) :
    (xs.filter (· != c)).insertIdx ((xs.take i).filter (· != c)).length c =
      (xs.take i).filter (· != c) ++ c :: (xs.drop i).filter (· != c) := by
  have hcut : xs.filter (· != c) = (xs.take i).filter (· != c) ++ (xs.drop i).filter (· != c) := by
    rw [← List.filter_append, List.take_append_drop]
  rw [hcut, insertIdx_length_append]

/-- How many elements stand in front of an index, one at a known place not counted. -/
theorem length_filter_take {α : Type} [DecidableEq α] {front rest : List α} {c : α}
    (hfront : c ∉ front) (hrest : c ∉ rest) (i : Nat) :
    (((front ++ c :: rest).take i).filter (· != c)).length =
      min (if front.length < i then i - 1 else i) (front ++ rest).length := by
  by_cases hi : front.length < i
  · -- the index lies behind the element
    obtain ⟨k, rfl⟩ : ∃ k, i = front.length + (k + 1) := ⟨i - front.length - 1, by omega⟩
    have htake : (front ++ c :: rest).take (front.length + (k + 1)) =
        front ++ c :: rest.take k := by
      rw [List.take_length_add_append, List.take_succ_cons]
    have hnot : c ∉ rest.take k := fun hmem => hrest (List.mem_of_mem_take hmem)
    rw [htake, if_pos hi, List.filter_append, filter_ne_of_not_mem hfront,
      List.filter_cons_of_neg (by simp), filter_ne_of_not_mem hnot]
    simp only [List.length_append, List.length_take]
    omega
  · -- the index lies in front of it
    have hle : i ≤ front.length := by omega
    have hnot : c ∉ front.take i := fun hmem => hfront (List.mem_of_mem_take hmem)
    rw [List.take_append_of_le_length hle, filter_ne_of_not_mem hnot, if_neg hi,
      List.length_take, List.length_append]
    omega

-- ---------------------------------------------------------------------------
-- The place of a moved node
-- ---------------------------------------------------------------------------

/-- A node is put in again behind those of the other children that stood in front of the index. -/
theorem Linked.targetIndex_eq (hl : Linked s) (hc : s.isAlive child = true) (index : Nat) :
    min (s.targetIndex parent index child) ((s.childList parent).filter (· != child)).length =
      (((s.childList parent).take index).filter (· != child)).length := by
  by_cases hp : s.parent? child = some parent
  -- the list is cut at the child, which is taken out before it is put in again
  · obtain ⟨front, rest, hcut⟩ := List.mem_iff_append.1 (hl.mem_childList_of_parent? hp)
    have hnodup := hl.nodup_childList parent
    rw [hcut, List.nodup_append] at hnodup
    obtain ⟨-, hrest, hdisjoint⟩ := hnodup
    have hfront : child ∉ front := fun hmem => hdisjoint _ hmem _ List.mem_cons_self rfl
    have hrest : child ∉ rest := (List.nodup_cons.1 hrest).1
    have hold : s.indexOf? child = some front.length :=
      (hl.indexOf?_eq_some_iff hp).2 (by rw [hcut]; simp)
    have hfilter : (front ++ child :: rest).filter (· != child) = front ++ rest := by
      rw [List.filter_append, List.filter_cons_of_neg (by simp), filter_ne_of_not_mem hfront,
        filter_ne_of_not_mem hrest]
    rw [hcut, length_filter_take hfront hrest, hfilter]
    simp only [targetIndex, hp, hold, if_true]
  -- a child of another parent is in no part of the list
  · have hnot : child ∉ s.childList parent := fun hmem => hp ((hl.parent?_eq_some_iff hc).2 hmem)
    have hnot' : child ∉ (s.childList parent).take index := fun hmem =>
      hnot (List.mem_of_mem_take hmem)
    rw [targetIndex, if_neg hp, filter_ne_of_not_mem hnot, filter_ne_of_not_mem hnot',
      List.length_take]

/-- The children of a node after another has been moved below it. -/
def placedAmong (index : Nat) (child : Handle) (cs : List Handle) : List Handle :=
  (cs.take index).filter (· != child) ++ child :: (cs.drop index).filter (· != child)

/-- A move takes the node out of its place and puts it in at the index. -/
theorem Linked.moveBelow_eq (hl : Linked s) (hp : s.isAlive parent = true)
    (hc : s.isAlive child = true) (index : Nat) :
    s.moveBelow parent index child = .ok ((s.detach child).link parent
      (((s.childList parent).take index).filter (· != child)).length child) := by
  obtain ⟨n, hn⟩ := isAlive_iff.1 hp
  have hchildren : (s.detach child).childList parent =
      (s.childList parent).filter (· != child) := by
    have hnode := hl.node?_detach child parent
    rw [hn, Option.map_some, if_pos hc] at hnode
    rw [childList_eq hnode, childList_eq hn]
  rw [Store.moveBelow]
  simp only [isAlive_detach]
  rw [if_pos ⟨hp, hc⟩, hchildren, hl.targetIndex_eq hc]

/-- Every node after a move: the moved node has its new parent, that lists it at the index, and
nobody else lists it. -/
theorem Linked.node?_moveBelow (hl : Linked s) (hok : s.moveBelow parent index child = .ok t)
    (hne : parent ≠ child) (x : Handle) :
    t.node? x = (s.node? x).map fun n =>
      { n with
        parent := if x = child then some parent else n.parent
        children := if x = parent then placedAmong index child n.children
          else n.children.filter (· != child) } := by
  obtain ⟨hp, hc, -⟩ := moveBelow_eq_ok hok
  rw [hl.moveBelow_eq hp hc] at hok
  obtain rfl := Except.ok.inj hok
  rw [node?_link hne, hl.node?_detach, Option.map_map]
  cases hx : s.node? x with
  | none => rfl
  | some k =>
    simp only [Option.map_some, Function.comp_apply, hc, if_true]
    -- the new parent, the moved node and all others
    by_cases hxp : x = parent
    · subst hxp
      rw [childList_eq hx]
      simp [hne, placedAmong, filter_insertIdx]
    · by_cases hxc : x = child
      · simp [hne.symm, hxc]
      · simp [hxp, hxc]

-- ---------------------------------------------------------------------------
-- Moves
-- ---------------------------------------------------------------------------

/-- A node has been moved below another, in front of the child that stood at an index. The new
parent lists it there and its other children in their order; an old parent that is another one
lists it no more. All nodes that were there are there, with their names and values; no other node
has another parent, and no other list of children has changed. -/
structure Placed (s : Store) (parent : Handle) (index : Nat) (child : Handle) (t : Store) :
    Prop where
  children : t.childList parent = placedAmong index child (s.childList parent)
  newParent : t.parent? child = some parent
  left {q : Handle} : s.parent? child = some q → q ≠ parent →
    child ∈ s.childList q ∧ t.childList q = (s.childList q).filter (· != child)
  otherChildren {x : Handle} : x ≠ parent → s.parent? child ≠ some x →
    t.childList x = s.childList x
  otherParents {x : Handle} : x ≠ child → t.parent? x = s.parent? x
  sameNodes (x : Handle) : t.isAlive x = s.isAlive x
  sameData {x : Handle} {n m : Node} : s.node? x = some n → t.node? x = some m →
    m.name = n.name ∧ m.value = n.value
  live : t.live = s.live

/-- A move that has been made has put the child at its place. -/
theorem Linked.placed (hl : Linked s) (hok : s.moveBelow parent index child = .ok t)
    (hne : parent ≠ child) : Placed s parent index child t := by
  have hview := hl.node?_moveBelow hok hne
  obtain ⟨hp, hc, i, -, rfl⟩ := moveBelow_eq_ok hok
  obtain ⟨n, hn⟩ := isAlive_iff.1 hp
  obtain ⟨m, hm⟩ := isAlive_iff.1 hc
  -- every other list only loses the moved node
  have hothers : ∀ {x}, x ≠ parent → ((s.detach child).link parent i child).childList x =
      (s.childList x).filter (· != child) := by
    intro x hx
    rw [childList, hview, childList]
    cases s.node? x with
    | none => rfl
    | some k => simp [hx]
  constructor
  case children => simp [childList, hview, hn]
  case newParent => simp [parent?, hview, hm]
  case left =>
    intro q hq hqp
    exact ⟨hl.mem_childList_of_parent? hq, hothers hqp⟩
  case otherChildren =>
    intro x hx hother
    have hnot : child ∉ s.childList x := fun hmem => hother ((hl.parent?_eq_some_iff hc).2 hmem)
    rw [hothers hx, filter_ne_of_not_mem hnot]
  case otherParents =>
    intro x hx
    rw [parent?, hview, parent?]
    cases s.node? x with
    | none => rfl
    | some k => simp [hx]
  case sameNodes =>
    intro x
    rw [isAlive_link, isAlive_detach]
  case sameData =>
    intro x k k' hk hk'
    rw [hview, hk, Option.map_some] at hk'
    obtain rfl := Option.some.inj hk'
    exact ⟨rfl, rfl⟩
  case live => rw [live_link, live_detach]

/-- A node that does not stand above its new parent is put at its place. -/
theorem Linked.insert_of_free (hl : Linked s) (hp : s.isAlive parent = true)
    (hc : s.isAlive child = true) (index : Nat) (hfree : s.wouldCycle parent child = false) :
    ∃ t, s.insert parent index child = .ok t ∧ Placed s parent index child t := by
  have hmoved := hl.moveBelow_eq hp hc index
  have hne : parent ≠ child := by
    rintro rfl
    simp [wouldCycle] at hfree
  refine ⟨_, ?_, hl.placed hmoved hne⟩
  rw [insert, hfree, hmoved]
  rfl

/-- A node that stands above its new parent is refused, or the refusal goes wrong. -/
theorem Linked.insert_of_cycle (hl : Linked s) (hp : s.isAlive parent = true)
    (hc : s.isAlive child = true) (index : Nat) (hcycle : s.wouldCycle parent child = true) :
    (Showable s child ∧ ∃ c p, s.describe child = .ok c ∧ s.describe parent = .ok p ∧
      s.insert parent index child = .error (.cyclic c p)) ∨
    ¬ Showable s child ∧ ∃ e, s.insert parent index child = .error (.fault e) := by
  have hinsert : s.insert parent index child = .error (s.refusal parent child) := by
    rw [insert, if_pos hcycle]
  rcases hl.refusal_cases hc hp (hl.wouldCycle_iff.1 hcycle) with
    ⟨hshow, c, p, hchild, hparent, hrefused⟩ | ⟨hshow, e, hfault⟩
  · exact .inl ⟨hshow, c, p, hchild, hparent, by rw [hinsert, hrefused]⟩
  · exact .inr ⟨hshow, e, by rw [hinsert, hfault]⟩

/-- To append is to insert behind the last child. -/
theorem append_eq_insert (hp : s.isAlive parent = true) (child : Handle) :
    s.append parent child = s.insert parent (s.childList parent).length child := by
  obtain ⟨n, hn⟩ := isAlive_iff.1 hp
  rw [append, childCount, Store.node, hn, childList_eq hn]
  rfl

/-- A move is refused exactly if the node is the new parent itself or stands above it, and can be
shown; the refusal shows both nodes as they are, and nothing changes. If it cannot be shown, because
a child that would be shown is gone or references lead in a circle, the refusal itself goes wrong.
Every other move puts the node at its place. Appending is moving behind the last child. -/
theorem insert_places (hl : Linked s) (hp : s.isAlive parent = true)
    (hc : s.isAlive child = true) (index : Nat) :
    ((∃ c p, s.insert parent index child = .error (.cyclic c p)) ↔
      (child = parent ∨ Relation.TransGen s.ChildOf parent child) ∧ Showable s child) ∧
    (∀ c p, s.insert parent index child = .error (.cyclic c p) →
      s.describe child = .ok c ∧ s.describe parent = .ok p ∧
      (Call.insert parent index child).perform s = some s) ∧
    ((child = parent ∨ Relation.TransGen s.ChildOf parent child) → ¬ Showable s child →
      ∃ e, s.insert parent index child = .error (.fault e)) ∧
    (¬ (child = parent ∨ Relation.TransGen s.ChildOf parent child) →
      ∃ t, s.insert parent index child = .ok t ∧ Placed s parent index child t) ∧
    s.append parent child = s.insert parent (s.childList parent).length child := by
  -- the test that the move makes is whether the child is above the parent
  have habove : s.wouldCycle parent child = true ↔
      child = parent ∨ Relation.TransGen s.ChildOf parent child := by
    rw [hl.wouldCycle_iff, Relation.reflTransGen_iff_eq_or_transGen]
  rw [← habove]
  cases hcycle : s.wouldCycle parent child with
  | false =>
    obtain ⟨t, hok, hplaced⟩ := hl.insert_of_free hp hc index hcycle
    refine ⟨?_, ?_, nofun, fun _ => ⟨t, hok, hplaced⟩, append_eq_insert hp child⟩
    · simp [hok]
    · simp [hok]
  -- a circle is refused if both nodes can be described, else describing them is the fault
  | true =>
    rcases hl.insert_of_cycle hp hc index hcycle with
      ⟨hshow, c, p, hchild, hparent, hinsert⟩ | ⟨hshow, e, hinsert⟩
    · refine ⟨⟨fun _ => ⟨rfl, hshow⟩, fun _ => ⟨c, p, hinsert⟩⟩, fun c' p' heq => ?_,
        fun _ hno => absurd hshow hno, fun hfree => absurd rfl hfree, append_eq_insert hp child⟩
      obtain ⟨rfl, rfl⟩ := InsertError.cyclic.inj (Except.error.inj (hinsert.symm.trans heq))
      refine ⟨hchild, hparent, ?_⟩
      rw [Call.perform, hinsert]
      rfl
    · refine ⟨?_, ?_, fun _ _ => ⟨e, hinsert⟩, fun hfree => absurd rfl hfree,
        append_eq_insert hp child⟩
      · simp [hinsert, hshow]
      · simp [hinsert]

/-- Three siblings, and an uncle with a child that refers to it. -/
def siblings : List Call :=
  [.create "r" none, .add ⟨0, 0⟩ "p" none, .add ⟨0, 0⟩ "q" none, .add ⟨1, 0⟩ "a" none,
    .add ⟨1, 0⟩ "b" none, .add ⟨1, 0⟩ "c" none, .add ⟨2, 0⟩ "d" (some (.ref ⟨2, 0⟩))]

def siblingsStore : Store where
  slots := #[⟨0, some { name := "r", children := [⟨1, 0⟩, ⟨2, 0⟩] }⟩,
    ⟨0, some { name := "p", parent := some ⟨0, 0⟩, children := [⟨3, 0⟩, ⟨4, 0⟩, ⟨5, 0⟩] }⟩,
    ⟨0, some { name := "q", parent := some ⟨0, 0⟩, children := [⟨6, 0⟩] }⟩,
    ⟨0, some { name := "a", parent := some ⟨1, 0⟩ }⟩,
    ⟨0, some { name := "b", parent := some ⟨1, 0⟩ }⟩,
    ⟨0, some { name := "c", parent := some ⟨1, 0⟩ }⟩,
    ⟨0, some { name := "d", value := some (.ref ⟨2, 0⟩), parent := some ⟨2, 0⟩ }⟩]
  live := 7

/-- The first of three siblings is moved in front of the last one; a node is moved between them
from another parent; their parent cannot be moved below them, and the refusal names both; and
where a child refers to its parent, the refusal to move the parent below it never ends. -/
theorem insert_places_siblings :
    empty.performAll siblings = some siblingsStore ∧ Linked siblingsStore ∧
    (∃ t, siblingsStore.insert ⟨1, 0⟩ 2 ⟨3, 0⟩ = .ok t ∧
      t.childList ⟨1, 0⟩ = [⟨4, 0⟩, ⟨3, 0⟩, ⟨5, 0⟩]) ∧
    (∃ t, siblingsStore.insert ⟨1, 0⟩ 2 ⟨6, 0⟩ = .ok t ∧
      t.childList ⟨1, 0⟩ = [⟨3, 0⟩, ⟨4, 0⟩, ⟨6, 0⟩, ⟨5, 0⟩] ∧ t.childList ⟨2, 0⟩ = []) ∧
    (∃ c p, siblingsStore.insert ⟨3, 0⟩ 0 ⟨1, 0⟩ = .error (.cyclic c p) ∧
      c.name = "p" ∧ p.name = "a") ∧
    ∃ e, siblingsStore.insert ⟨6, 0⟩ 0 ⟨2, 0⟩ = .error (.fault e) := by
  have hrun : empty.performAll siblings = some siblingsStore := by cbv
  have hl : Linked siblingsStore :=
    performAll_linked hrun balanced_empty linked_empty (unwrapped_of_slots (by decide))
  -- no circle where the test finds none
  have hfree : ∀ parent child, siblingsStore.wouldCycle parent child = false →
      ¬ (child = parent ∨ Relation.TransGen siblingsStore.ChildOf parent child) := by
    intro parent child hcycle habove
    rw [← Relation.reflTransGen_iff_eq_or_transGen, ← hl.wouldCycle_iff, hcycle] at habove
    simp at habove
  refine ⟨hrun, hl, ?_, ?_, ?_, ?_⟩
  · obtain ⟨t, hok, hplaced⟩ :=
      (insert_places hl rfl rfl 2).2.2.2.1 (hfree ⟨1, 0⟩ ⟨3, 0⟩ (by decide))
    exact ⟨t, hok, hplaced.children⟩
  · obtain ⟨t, hok, hplaced⟩ :=
      (insert_places hl rfl rfl 2).2.2.2.1 (hfree ⟨1, 0⟩ ⟨6, 0⟩ (by decide))
    exact ⟨t, hok, hplaced.children, (hplaced.left rfl (by decide)).2⟩
  -- a node is not inserted below its own child
  · have hshow : Showable siblingsStore ⟨1, 0⟩ := showable_iff.2 ⟨_, by cbv⟩
    have ha : siblingsStore.isAlive ⟨3, 0⟩ = true := rfl
    have hp : siblingsStore.isAlive ⟨1, 0⟩ = true := rfl
    have hplaces := insert_places hl ha hp 0
    obtain ⟨c, p, hrefused⟩ := hplaces.1.2 ⟨.inr (.single rfl), hshow⟩
    obtain ⟨hchild, hparent, -⟩ := hplaces.2.1 c p hrefused
    exact ⟨c, p, hrefused, name_of_describe rfl hchild, name_of_describe rfl hparent⟩
  -- and where a reference closes a circle, the refusal cannot even be described
  · have hcircle : Relation.TransGen siblingsStore.Sees ⟨6, 0⟩ ⟨6, 0⟩ :=
      .single ⟨_, rfl, .inr ⟨⟨2, 0⟩, rfl, by decide⟩⟩
    have hsees : siblingsStore.Sees ⟨2, 0⟩ ⟨6, 0⟩ := ⟨_, rfl, .inl (by decide)⟩
    exact (insert_places hl rfl rfl 0).2.2.1 (.inr (.single rfl)) fun hshow =>
      hshow.acyclic (.single hsees) hcircle

end TreeScript.Store
