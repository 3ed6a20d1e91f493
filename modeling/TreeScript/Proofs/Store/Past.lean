import TreeScript.Proofs.Store.Since

/-!
# TreeScript — a store as it may have been

Some nodes of a store, with all that hold them, may be what was there first: the store comes from
one in which only they are alive. So what is known of edits since an earlier store is known of
edits of any store, whatever has happened to it before.

* `vacate` — a slot before it got its node;
* `Balanced.exists_vacated` — a store before some nodes came in;
* `Disciplined.exists_since` — the same for nodes that nobody else holds.
-/

namespace TreeScript.Store

variable {s : Store} {h x : Handle} {n : Node}

/-- A store before a node came in: its slot is empty and will be filled next. -/
def vacate (s : Store) (h : Handle) : Store :=
  { slots := s.slots.setIfInBounds h.index ⟨s.freedAt h.index, none⟩
    free := h.index :: s.free
    live := s.live - 1 }

/-- The books of the earlier store are in order. -/
theorem Balanced.vacate (hs : Balanced s) (hn : s.node? h = some n) : Balanced (s.vacate h) := by
  obtain ⟨hi, -, hslot⟩ := slot_of_node? hn
  have hocc := occupied_setIfInBounds ⟨s.freedAt h.index, none⟩ (h.index :: s.free) (s.live - 1) hi
  simp only [hslot, Option.isSome_some, if_true, Option.isSome_none, Bool.false_eq_true,
    if_false] at hocc
  have hlive := hs.live_eq
  refine ⟨List.nodup_cons.2 ⟨fun hmem => ?_, hs.free_nodup⟩, fun i => ?_, ?_⟩
  · obtain ⟨slot, hslot', hnone⟩ := (hs.mem_free _).1 hmem
    rw [Array.getElem?_eq_getElem hi] at hslot'
    rw [Option.some.inj hslot', hnone] at hslot
    simp at hslot
  · rw [Store.vacate, List.mem_cons, hs.mem_free, Array.getElem?_setIfInBounds]
    by_cases hx : h.index = i
    · subst hx
      simp [hi]
    · simp [hx, Ne.symm hx]
  · simp only [Store.vacate]
    omega

/-- The node comes in again. -/
theorem Balanced.allocate_vacate (hs : Balanced s) (hn : s.node? h = some n) :
    (s.vacate h).allocate n = (h, s) := by
  obtain ⟨hi, hgen, hslot⟩ := slot_of_node? hn
  have hlive : 0 < s.live := by
    rw [hs.live_eq]
    exact Array.countP_pos_iff.2 ⟨_, Array.getElem_mem hi, by simp [hslot]⟩
  have hfreed : (s.vacate h).freedAt h.index = s.freedAt h.index := by
    simp [Store.vacate, freedAt, hi]
  have hfreed' : s.freedAt h.index = s.slots[h.index].freed := by simp [freedAt, hi]
  have hback : (s.slots.setIfInBounds h.index ⟨s.freedAt h.index, none⟩).setIfInBounds h.index
      ⟨s.freedAt h.index, some n⟩ = s.slots := by
    rw [hfreed', ← hslot, Array.setIfInBounds_setIfInBounds, Array.setIfInBounds, dif_pos hi]
    exact Array.set_getElem_self hi
  show (⟨h.index, Slot.generation ⟨(s.vacate h).freedAt h.index, some n⟩⟩,
    { slots := (s.slots.setIfInBounds h.index ⟨s.freedAt h.index, none⟩).setIfInBounds h.index
        ⟨(s.vacate h).freedAt h.index, some n⟩, free := s.free, live := s.live - 1 + 1 }) = (h, s)
  rw [hfreed, hback, Nat.sub_add_cancel hlive, hfreed']
  obtain ⟨i, g⟩ := h
  exact congrArg (·, s) (congrArg (Handle.mk i) hgen)

/-- It was not there before, and all others were. -/
theorem Balanced.node?_vacate (hs : Balanced s) (hn : s.node? h = some n) (x : Handle) :
    (s.vacate h).node? x = if x = h then none else s.node? x := by
  have hbefore := hs.vacate hn
  have hview := hbefore.node?_allocate n x
  have hnew := hbefore.node?_allocate_fst n
  rw [hs.allocate_vacate hn] at hview hnew
  by_cases hx : x = h
  · rw [if_pos hx, hx]
    exact hnew
  · rw [if_neg hx] at hview ⊢
    exact hview.symm

theorem Balanced.evolves_vacate (hs : Balanced s) (hn : s.node? h = some n) :
    Evolves (s.vacate h) s := by
  have hevolves := Evolves.allocate (s.vacate h) n
  rwa [hs.allocate_vacate hn] at hevolves

/-- A store comes from one in which none of these nodes was there. -/
theorem Balanced.exists_vacated (hs : Balanced s) (gone : List Handle) :
    ∃ s₀, Evolves s₀ s ∧ ∀ x, s₀.node? x = if x ∈ gone then none else s.node? x := by
  induction gone generalizing s with
  | nil => exact ⟨s, .refl s, by simp⟩
  | cons h rest ih =>
    cases hn : s.node? h with
    | none =>
      obtain ⟨s₀, hevolves, hview⟩ := ih hs
      refine ⟨s₀, hevolves, fun x => ?_⟩
      by_cases hx : x = h
      · simp [hview, hx, hn]
      · simp [hview, hx]
    | some n =>
      obtain ⟨s₀, hevolves, hview⟩ := ih (hs.vacate hn)
      refine ⟨s₀, hevolves.trans (hs.evolves_vacate hn), fun x => ?_⟩
      rw [hview, hs.node?_vacate hn]
      by_cases hx : x = h <;> simp [hx]

/-- A store comes from one in which only some nodes are alive that nobody else holds. -/
theorem Disciplined.exists_since (hd : Disciplined s) (first : Handle → Prop)
    (hfirst : ∀ a b, s.Holds a b → first b → first a) :
    ∃ s₀, Since s₀ { x | s.Top x } s ∧
      ∀ x, s₀.isAlive x = true ↔ s.isAlive x = true ∧ first x := by
  have hfinite : { x | s.isAlive x = true }.Finite := finite_isAlive s
  obtain ⟨all, hall⟩ := hfinite.exists_finset
  classical
  -- the store from before is this one without the nodes that came later
  obtain ⟨s₀, hevolves, hgone⟩ := hd.balanced.exists_vacated
    (all.filter fun x => ¬ first x).toList
  have hview : ∀ x, first x → s₀.node? x = s.node? x := fun x hx => by
    rw [hgone, if_neg (by simp [hx])]
  -- in it is alive what is alive now and came first
  have halive : ∀ x, s₀.isAlive x = true ↔ s.isAlive x = true ∧ first x := fun x => by
    by_cases hx : first x
    · simp [isAlive, hview x hx, hx]
    · rw [isAlive, hgone]
      cases hlive : s.isAlive x with
      | true => simp [hall, hx, hlive]
      | false => simp [hall, hx, hlive, not_isAlive_iff.1 hlive]
  refine ⟨s₀, ⟨hevolves, hd, fun {a b} hb hb' hab => ?_, fun {a b} hb hb' hab => ?_,
    fun x => Iff.rfl⟩, halive⟩
  · have ha := hfirst a b hab ((halive b).1 hb).2
    obtain ⟨k, hk, hmem⟩ := hab
    exact ⟨k, (hview a ha).trans hk, hmem⟩
  · rw [parent?, parent?, hview b ((halive b).1 hb).2]

end TreeScript.Store
