import TreeScript.Proofs.Store.Links

/-!
# TreeScript — places among siblings

On a linked store a node stands in one list of children, once, so its place there is all
there is to say about its neighbours.

* `Coherent` — parents and children agree and are all alive;
* `Linked.indexOf?_eq_some_iff` — the place of a node in that list;
* `Linked.nextSibling?_of_getElem?` — the neighbour behind a place;
* `Coherent.detach` — taking a node out.
-/

namespace TreeScript.Store

variable {s : Store} {p c : Handle} {i : Nat}

/-- The children of every node are the nodes that it is the parent of. A node that has a parent
or is listed is therefore alive, and so is its parent. Circles are not excluded. -/
structure Coherent (s : Store) : Prop where
  lists {c p : Handle} : s.parent? c = some p → c ∈ s.childList p
  listed {c p : Handle} : c ∈ s.childList p → s.parent? c = some p

/-- Links in order and live children are all that coherence asks for. -/
theorem Linked.coherent (hl : Linked s) (hlive : LiveChildren s) : Coherent s where
  lists hp := hl.mem_childList_of_parent? hp
  listed {c p} hc := by
    obtain ⟨n, hn, hmem⟩ := mem_childList_iff.1 hc
    exact (hl.parent?_eq_some_iff (hlive hn hmem)).2 hc

/-- In a coherent store only live children are listed. -/
theorem Coherent.live (hs : Coherent s) : LiveChildren s := by
  intro p n c hn hc
  exact isAlive_of_parent? (hs.listed (mem_childList_iff.2 ⟨n, hn, hc⟩))

/-- In a coherent store parents are alive. -/
theorem Coherent.isAlive_parent (hs : Coherent s) (hp : s.parent? c = some p) :
    s.isAlive p = true := by
  obtain ⟨n, hn, -⟩ := mem_childList_iff.1 (hs.lists hp)
  exact isAlive_iff.2 ⟨n, hn⟩

/-- The place of a child is where the list of the children has it. -/
theorem Linked.indexOf?_eq_some_iff (hl : Linked s) (hp : s.parent? c = some p) :
    s.indexOf? c = some i ↔ (s.childList p)[i]? = some c := by
  simp only [indexOf?, hp, Option.bind_some]
  rw [List.idxOf?_eq_some_iff, List.getElem?_eq_some_iff]
  constructor
  · rintro ⟨hi, heq, -⟩
    exact ⟨hi, heq⟩
  · rintro ⟨hi, rfl⟩
    refine ⟨hi, rfl, fun j hj heq => ?_⟩
    exact absurd ((hl.nodup_childList p).getElem_inj_iff.1 heq) (Nat.ne_of_lt hj)

/-- The next sibling is the next one in the parent's list. -/
theorem Linked.nextSibling?_of_getElem? (hl : Linked s) (hp : s.parent? c = some p)
    (hi : (s.childList p)[i]? = some c) : s.nextSibling? c = (s.childList p)[i + 1]? := by
  simp [nextSibling?, hp, (hl.indexOf?_eq_some_iff hp).2 hi, child?]

-- ---------------------------------------------------------------------------
-- Taking nodes out
-- ---------------------------------------------------------------------------

/-- Taking a node out keeps a store coherent. -/
theorem Coherent.detach (hs : Coherent s) (h : Handle) : Coherent (s.detach h) where
  lists {c p} hp := by
    rw [parent?_detach] at hp
    split at hp
    next => simp at hp
    next hne =>
      rw [childList_detach]
      split
      next => exact List.mem_filter.2 ⟨hs.lists hp, bne_iff_ne.2 hne⟩
      next => exact hs.lists hp
  listed {c p} hc := by
    rw [childList_detach] at hc
    rw [parent?_detach]
    split at hc
    next =>
      obtain ⟨hc, hne⟩ := List.mem_filter.1 hc
      rw [if_neg (bne_iff_ne.1 hne)]
      exact hs.listed hc
    next hparent =>
      rw [if_neg fun heq : c = h => hparent (heq ▸ hs.listed hc)]
      exact hs.listed hc

end TreeScript.Store
