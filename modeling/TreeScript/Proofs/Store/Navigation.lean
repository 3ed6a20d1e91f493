import TreeScript.Proofs.Outcome
import TreeScript.Proofs.Store.Descent
import TreeScript.Proofs.Store.Siblings
import TreeScript.Proofs.Store.Signal
import TreeScript.Store.Shape

/-!
# TreeScript — the way up and the way down agree

Upwards one follows the parents, downwards one walks with a stack of what is still to be visited,
and sideways one looks for a place in a list of children. Where parents and children agree, all
three tell the same tree.

* `Preorder` — the listing of a forest, each node before what is below it;
* `preorder_of_walk`, `Linked.descendants_eq` — a walk lists the forest on its stack;
* `Preorder.mem_iff`, `Preorder.nodup` — what is listed, and that it is listed once;
* `Linked.isAncestor_iff`, `Linked.root?_eq_iff` — looking up against looking down;
* `Linked.child?_eq_some_iff`, `Linked.previousSibling?_eq_some_iff` — places;
* `navigation_agrees` — all of it.
-/

namespace TreeScript.Store

variable {s : Store} {h a c p r x y : Handle} {n : Node} {i fuel : Nat}
  {front rest found found' met : List Handle}

-- ---------------------------------------------------------------------------
-- The listing of a forest
-- ---------------------------------------------------------------------------

/-- The listing of a forest whose trees begin with the nodes of the first list: each of them is
followed by the listing of its children, and then by what comes of the other trees. -/
inductive Preorder (s : Store) : List Handle → List Handle → Prop
  | nil : Preorder s [] []
  | cons {h : Handle} {n : Node} {rest below after : List Handle} : s.node? h = some n →
    Preorder s n.children below → Preorder s rest after →
    Preorder s (h :: rest) (h :: (below ++ after))

namespace Preorder

/-- A forest has one listing only. -/
theorem unique (hf : Preorder s front found) (hf' : Preorder s front found') : found = found' := by
  induction hf generalizing found' with
  | nil =>
    cases hf'
    rfl
  | cons hn _ _ ihbelow ihafter =>
    cases hf' with
    | cons hn' hbelow hafter =>
      obtain rfl := Option.some.inj (hn.symm.trans hn')
      rw [ihbelow hbelow, ihafter hafter]

/-- The listing of a forest is cut where the forest is cut. -/
theorem append_inv (hf : Preorder s (front ++ rest) found) :
    ∃ before after, found = before ++ after ∧ Preorder s front before ∧ Preorder s rest after := by
  induction front generalizing found with
  | nil => exact ⟨[], found, rfl, .nil, hf⟩
  | cons h front ih =>
    cases hf with
    | @cons _ n _ below after hn hbelow hafter =>
      obtain ⟨before, last, rfl, hfront, hrest⟩ := ih hafter
      exact ⟨h :: (below ++ before), last, by simp, .cons hn hbelow hfront, hrest⟩

/-- What is listed stands below one of the trees' first nodes. -/
theorem mem_iff (hl : Linked s) (hlive : LiveChildren s) (hf : Preorder s front found) :
    x ∈ found ↔ ∃ a ∈ front, s.Under x a := by
  induction hf with
  | nil => simp
  | @cons h n rest below after hn _ _ ihbelow ihafter =>
    -- below a node is the node itself and what is below its children
    have hhead : s.Under x h ↔ x = h ∨ x ∈ below := by
      rw [ihbelow]
      constructor
      · intro hx
        rcases Relation.ReflTransGen.cases_tail hx with heq | ⟨c, hxc, hc⟩
        · exact Or.inl heq.symm
        · obtain ⟨m, hm, hmp⟩ := childOf_iff.1 hc
          obtain ⟨n', hn', hmem⟩ := hl.lists hm hmp
          obtain rfl := Option.some.inj (hn.symm.trans hn')
          exact Or.inr ⟨c, hmem, hxc⟩
      · rintro (rfl | ⟨c, hc, hxc⟩)
        · exact Relation.ReflTransGen.refl
        · exact Relation.ReflTransGen.tail hxc (hl.childOf_of_mem hlive hn hc)
    rw [List.mem_cons, List.mem_append, ← or_assoc, ← hhead, ihafter]
    simp

/-- Nothing is listed twice if no node stands below two of the trees' first nodes. -/
theorem nodup (hl : Linked s) (hlive : LiveChildren s) (hf : Preorder s front found)
    (hapart : front.Pairwise fun a b => ∀ x, s.Under x a → ¬ s.Under x b) : found.Nodup := by
  induction hf with
  | nil => exact List.nodup_nil
  | @cons h n rest below after hn hbelow hafter ihbelow ihafter =>
    obtain ⟨hbeside, hrest⟩ := List.pairwise_cons.1 hapart
    have hmem : ∀ {x}, x ∈ below → ∃ c ∈ n.children, s.Under x c := (hbelow.mem_iff hl hlive).1
    have hout : ∀ {x}, x ∈ after → ¬ s.Under x h := by
      intro x hx hxh
      obtain ⟨b, hb, hxb⟩ := (hafter.mem_iff hl hlive).1 hx
      exact hbeside b hb x hxh hxb
    refine List.nodup_cons.2 ⟨fun hself => ?_, ?_⟩
    · rcases List.mem_append.1 hself with hin | hin
      · obtain ⟨c, hc, hup⟩ := hmem hin
        exact hl.not_under_child (hl.childOf_of_mem hlive hn hc) hup
      · exact hout hin .refl
    · refine (ihbelow (hl.children_apart hlive hn)).append (ihafter hrest) fun x hx hx' => ?_
      obtain ⟨c, hc, hxc⟩ := hmem hx
      exact hout hx' (Relation.ReflTransGen.tail hxc (hl.childOf_of_mem hlive hn hc))

end Preorder

/-- A walk lists the forest that is on its stack. -/
theorem preorder_of_walk (hok : s.walk fuel front = .ok found) : Preorder s front found := by
  induction fuel generalizing front found with
  | zero =>
    cases front with
    | nil =>
      obtain rfl : [] = found := Except.ok.inj hok
      exact .nil
    | cons h rest => cases hok
  | succ fuel ih =>
    cases front with
    | nil =>
      obtain rfl : [] = found := Except.ok.inj hok
      exact .nil
    | cons h rest =>
      rw [walk] at hok
      obtain ⟨cs, hcs, hok⟩ := bind_eq_ok_iff.1 hok
      obtain ⟨later, hlater, hok⟩ := bind_eq_ok_iff.1 hok
      obtain rfl := Except.ok.inj hok
      obtain ⟨n, hn, rfl⟩ := children_eq_ok.1 hcs
      obtain ⟨below, after, rfl, hbelow, hafter⟩ := (ih hlater).append_inv
      exact .cons hn hbelow hafter

-- ---------------------------------------------------------------------------
-- Up and down
-- ---------------------------------------------------------------------------

/-- The nodes below a live node are listed in preorder. -/
theorem Linked.descendants_eq (hl : Linked s) (hlive : LiveChildren s) (ha : s.isAlive a = true) :
    ∃ below, s.descendants a = .ok below ∧ Preorder s (s.childList a) below := by
  obtain ⟨below, hbelow⟩ := hl.descendants hlive ha
  obtain ⟨cs, hcs, hwalk⟩ := bind_eq_ok_iff.1 hbelow
  obtain ⟨n, hn, rfl⟩ := children_eq_ok.1 hcs
  exact ⟨below, hbelow, childList_eq hn ▸ preorder_of_walk hwalk⟩

/-- The nodes that are found on the way down from a node are those that stand below it. -/
theorem Linked.mem_descendants_iff (hl : Linked s) (hlive : LiveChildren s)
    (hok : s.descendants a = .ok found) : x ∈ found ↔ Relation.TransGen s.ChildOf x a := by
  obtain ⟨cs, hcs, -⟩ := bind_eq_ok_iff.1 hok
  obtain ⟨n, hn, rfl⟩ := children_eq_ok.1 hcs
  obtain ⟨below, hbelow, hlist⟩ := hl.descendants_eq hlive (isAlive_iff.2 ⟨n, hn⟩)
  obtain rfl := Except.ok.inj (hbelow.symm.trans hok)
  have hs := hl.coherent hlive
  rw [hlist.mem_iff hl hlive, Relation.TransGen.tail'_iff]
  constructor
  · rintro ⟨c, hc, hxc⟩
    exact ⟨c, hxc, hs.listed hc⟩
  · rintro ⟨c, hxc, hc⟩
    exact ⟨c, hs.lists hc, hxc⟩

theorem Linked.isAncestor_iff (hl : Linked s) :
    s.isAncestor a x = true ↔ Relation.TransGen s.ChildOf x a := by
  rw [isAncestor, List.contains_iff_mem, hl.mem_ancestors_iff]

/-- A stale handle stands above no node. -/
theorem Linked.not_isAncestor (hl : Linked s) (ha : s.isAlive a = false) :
    s.isAncestor a x = false := by
  refine Bool.eq_false_iff.2 fun habove => ?_
  obtain ⟨c, -, hc⟩ := Relation.TransGen.tail'_iff.1 (hl.isAncestor_iff.1 habove)
  simp [hl.isAlive_parent hc] at ha

/-- The root of a live node is the one node without parent that it is or stands below. -/
theorem Linked.root?_eq_iff (hl : Linked s) (hlive : LiveChildren s) (hx : s.isAlive x = true) :
    s.root? x = some r ↔ s.isAlive r = true ∧ s.parent? r = none ∧
      (r = x ∨ ∃ below, s.descendants r = .ok below ∧ x ∈ below) := by
  -- standing below a live node is being found on the way down from it
  have hdown : s.isAlive r = true → ((∃ below, s.descendants r = .ok below ∧ x ∈ below) ↔
      Relation.TransGen s.ChildOf x r) := by
    intro hr
    obtain ⟨below, hbelow, -⟩ := hl.descendants_eq hlive hr
    constructor
    · rintro ⟨found, hfound, hmem⟩
      exact (hl.mem_descendants_iff hlive hfound).1 hmem
    · intro hup
      exact ⟨below, hbelow, (hl.mem_descendants_iff hlive hbelow).2 hup⟩
  rw [hl.root?_eq_some_iff, Relation.reflTransGen_iff_eq_or_transGen]
  constructor
  · rintro ⟨-, hup, hparent⟩
    have hr : s.isAlive r = true := by
      rcases hup with rfl | hup
      · exact hx
      · obtain ⟨c, -, hc⟩ := Relation.TransGen.tail'_iff.1 hup
        exact hl.isAlive_parent hc
    exact ⟨hr, hparent, hup.imp_right (hdown hr).2⟩
  · rintro ⟨hr, hparent, hup⟩
    exact ⟨hx, hup.imp_right (hdown hr).1, hparent⟩

-- ---------------------------------------------------------------------------
-- Sideways
-- ---------------------------------------------------------------------------

/-- The child at a place is the one that finds itself there. -/
theorem Linked.child?_eq_some_iff (hl : Linked s) (hlive : LiveChildren s) :
    s.child? p i = some c ↔ s.parent? c = some p ∧ s.indexOf? c = some i := by
  constructor
  · intro hc
    have hp := (hl.coherent hlive).listed (List.mem_of_getElem? hc)
    exact ⟨hp, (hl.indexOf?_eq_some_iff hp).2 hc⟩
  · rintro ⟨hp, hi⟩
    exact (hl.indexOf?_eq_some_iff hp).1 hi

/-- A sibling stands one place further on below the same parent. -/
theorem Linked.nextSibling?_eq_some_iff (hl : Linked s) (hlive : LiveChildren s) :
    s.nextSibling? x = some y ↔
      ∃ p i, s.child? p i = some x ∧ s.child? p (i + 1) = some y := by
  simp only [nextSibling?, Option.bind_eq_some_iff, hl.child?_eq_some_iff hlive (c := x)]
  constructor
  · rintro ⟨p, hp, i, hi, hy⟩
    exact ⟨p, i, ⟨hp, hi⟩, hy⟩
  · rintro ⟨p, i, ⟨hp, hi⟩, hy⟩
    exact ⟨p, hp, i, hi, hy⟩

/-- The previous sibling stands at the place before. -/
theorem Linked.previousSibling?_eq_some_iff (hl : Linked s) (hlive : LiveChildren s) :
    s.previousSibling? y = some x ↔
      ∃ p i, s.child? p i = some x ∧ s.child? p (i + 1) = some y := by
  simp only [previousSibling?, Option.bind_eq_some_iff, hl.child?_eq_some_iff hlive (c := y)]
  constructor
  · rintro ⟨p, hp, hx⟩
    split at hx
    next i hi => exact ⟨p, i, hx, hp, hi⟩
    next => cases hx
  · rintro ⟨p, i, hx, hp, hi⟩
    exact ⟨p, hp, by rw [hi]; exact hx⟩

-- ---------------------------------------------------------------------------
-- All of it
-- ---------------------------------------------------------------------------

/-- Looking up, down and sideways tells one tree: the way down from a live node lists what is below
it in preorder and once; a node stands above another just if it is met on the way down from it; the
root of a live node is the one node without parent from which it is met; a child stands where it
finds itself; and the neighbour of a neighbour is the node itself. -/
theorem navigation_agrees (hl : Linked s) (hlive : LiveChildren s) :
    (∀ a, s.isAlive a = true → ∃ below, s.descendants a = .ok below ∧
      (∀ l, Preorder s (s.childList a) l ↔ l = below) ∧ below.Nodup ∧
      ∀ n, s.isAncestor a n = true ↔ n ∈ below) ∧
    (∀ a n, s.isAlive a = false → s.isAncestor a n = false) ∧
    (∀ n, s.isAlive n = true → ∃ r, s.root? n = some r ∧
      ∀ r', (s.isAlive r' = true ∧ s.parent? r' = none ∧
        (r' = n ∨ ∃ below, s.descendants r' = .ok below ∧ n ∈ below)) ↔ r' = r) ∧
    (∀ p i c, s.child? p i = some c ↔ s.parent? c = some p ∧ s.indexOf? c = some i) ∧
    ∀ x y, s.nextSibling? x = some y ↔ s.previousSibling? y = some x := by
  refine ⟨fun a ha => ?_, fun a n ha => hl.not_isAncestor ha, fun n hn => ?_,
    fun p i c => hl.child?_eq_some_iff hlive, fun x y => ?_⟩
  · obtain ⟨below, hbelow, hlist⟩ := hl.descendants_eq hlive ha
    obtain ⟨m, hm⟩ := isAlive_iff.1 ha
    have hapart := hl.children_apart hlive hm
    rw [← childList_eq hm] at hapart
    -- the walk and the preorder listing are the same list
    refine ⟨below, hbelow, fun l => ⟨fun hl' => hl'.unique hlist, fun heq => heq ▸ hlist⟩,
      hlist.nodup hl hlive hapart, fun n => ?_⟩
    rw [hl.isAncestor_iff, hl.mem_descendants_iff hlive hbelow]
  · obtain ⟨r, hr⟩ : ∃ r, s.root? n = some r := by simp [root?, hn]
    refine ⟨r, hr, fun r' => ?_⟩
    rw [← hl.root?_eq_iff hlive hn, hr, Option.some.injEq, eq_comm]
  · rw [hl.nextSibling?_eq_some_iff hlive, hl.previousSibling?_eq_some_iff hlive]

/-- A tree with three children, the second of which has a child itself. -/
def grove : Store :=
  (Store.empty.plant (.plain "" none [.plain "a" none [], .plain "b" none [.plain "deep" none []],
    .plain "c" none []])).2

/-- From the top the child of the second child is met between it and the third one. -/
theorem navigation_agrees_grove :
    Linked grove ∧ LiveChildren grove ∧
      Preorder grove (grove.childList ⟨0, 0⟩) [⟨1, 0⟩, ⟨2, 0⟩, ⟨3, 0⟩, ⟨4, 0⟩] ∧
      grove.isAncestor ⟨0, 0⟩ ⟨3, 0⟩ = true ∧ grove.isAncestor ⟨9, 0⟩ ⟨3, 0⟩ = false ∧
      grove.root? ⟨3, 0⟩ = some ⟨0, 0⟩ ∧ grove.child? ⟨0, 0⟩ 2 = some ⟨4, 0⟩ ∧
      grove.previousSibling? ⟨4, 0⟩ = some ⟨2, 0⟩ := by
  have hd : Disciplined grove :=
    ((Since.refl disciplined_empty).plant _ (unwrapped_of_slots (by cbv; decide))).disciplined
  obtain ⟨hdown, hstale, hroot, hchild, hsibling⟩ := navigation_agrees hd.linked hd.live
  have hwalk : grove.descendants ⟨0, 0⟩ = .ok [⟨1, 0⟩, ⟨2, 0⟩, ⟨3, 0⟩, ⟨4, 0⟩] := by rfl
  obtain ⟨below, hbelow, hlist, -, hancestor⟩ := hdown ⟨0, 0⟩ (by decide)
  obtain rfl := Except.ok.inj (hwalk.symm.trans hbelow)
  obtain ⟨r, hr, honly⟩ := hroot ⟨3, 0⟩ (by decide)
  obtain rfl := (honly ⟨0, 0⟩).1 ⟨by decide, by decide, Or.inr ⟨_, hwalk, by decide⟩⟩
  exact ⟨hd.linked, hd.live, (hlist _).2 rfl, (hancestor ⟨3, 0⟩).2 (by decide),
    hstale ⟨9, 0⟩ ⟨3, 0⟩ (by decide), hr, (hchild _ _ _).2 ⟨by decide, by decide⟩,
    (hsibling _ _).1 (by decide)⟩

end TreeScript.Store
