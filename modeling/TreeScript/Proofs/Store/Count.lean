import TreeScript.Proofs.Store.Edits

/-!
# TreeScript — how many nodes are alive

The counter of a store whose books are in order counts its live handles. So two stores with the
same nodes have the same counter, and one that has lost some nodes has lost as many as they are.
Edits of data and links do not touch the counter, and a new node adds one.

* `Balanced.exists_handles` — the live handles, each once, are as many as the counter says;
* `Balanced.live_eq_of_isAlive`, `Balanced.live_add_gone` — two stores compared;
* `live_modify` and the lemmas after it — one for each edit that frees nothing.
-/

namespace TreeScript.Store

variable {s t : Store}

-- ---------------------------------------------------------------------------
-- Handles
-- ---------------------------------------------------------------------------

/-- A slot is in use if some live handle names it. -/
theorem isOccupied_iff {i : Nat} :
    s.isOccupied i = true ↔ ∃ x, s.isAlive x = true ∧ x.index = i := by
  constructor
  · exact fun hi => ⟨⟨i, UInt32.ofNat (s.freedAt i)⟩, isAlive_iff_isOccupied.2 ⟨hi, rfl⟩, rfl⟩
  · rintro ⟨x, hx, rfl⟩
    exact (isAlive_iff_isOccupied.1 hx).1

/-- Occupied slots by their indexes. -/
theorem occupied_eq_countP (s : Store) :
    s.occupied = (List.range s.slots.size).countP s.isOccupied := by
  have hslots : s.slots.toList.map (fun slot => slot.node.isSome) =
      (List.range s.slots.size).map s.isOccupied := by
    refine List.ext_getElem (by simp) fun i hi hi' => ?_
    have hlt : i < s.slots.size := by simpa using hi'
    simp [isOccupied, hlt]
  have hcount := congrArg (List.countP id) hslots
  rw [List.countP_map, List.countP_map] at hcount
  rw [occupied, ← Array.countP_toList]
  exact hcount

/-- The live handles of a store, each once, are as many as its counter says. -/
theorem Balanced.exists_handles (hs : Balanced s) :
    ∃ all : List Handle, all.Nodup ∧ (∀ x, x ∈ all ↔ s.isAlive x = true) ∧ all.length = s.live := by
  let handle (i : Nat) : Handle := ⟨i, UInt32.ofNat (s.freedAt i)⟩
  refine ⟨((List.range s.slots.size).filter s.isOccupied).map handle, ?_, fun x => ?_, ?_⟩
  · refine (List.nodup_range.filter _).map fun i j hij => ?_
    exact congrArg Handle.index hij
  · rw [isAlive_iff_isOccupied, List.mem_map]
    constructor
    · rintro ⟨i, hi, rfl⟩
      exact ⟨(List.mem_filter.1 hi).2, rfl⟩
    · rintro ⟨hocc, hgen⟩
      have hlt : x.index < s.slots.size := by
        obtain ⟨n, hn⟩ := isAlive_iff.1 (isAlive_iff_isOccupied.2 ⟨hocc, hgen⟩)
        exact index_lt_size hn
      refine ⟨x.index, List.mem_filter.2 ⟨List.mem_range.2 hlt, hocc⟩, ?_⟩
      obtain ⟨i, g⟩ := x
      exact congrArg (Handle.mk i) hgen
  · rw [List.length_map, ← List.countP_eq_length_filter, ← occupied_eq_countP, hs.live_eq]

/-- A store that has lost some nodes and gained none has lost as many as they are. -/
theorem Balanced.live_add_gone (hs : Balanced s) (ht : Balanced t)
    (hsub : ∀ x, t.isAlive x = true → s.isAlive x = true) {gone : List Handle} (hnodup : gone.Nodup)
    (hgone : ∀ x, x ∈ gone ↔ s.isAlive x = true ∧ t.isAlive x = false) :
    t.live + gone.length = s.live := by
  obtain ⟨all, hall, hmem, hlen⟩ := hs.exists_handles
  obtain ⟨left, hleft, hmem', hlen'⟩ := ht.exists_handles
  have hdisjoint : (left ++ gone).Nodup := by
    refine List.nodup_append.2 ⟨hleft, hnodup, ?_⟩
    rintro x hx y hy rfl
    have halive := (hmem' x).1 hx
    simp [((hgone x).1 hy).2] at halive
  have hperm : (left ++ gone).Perm all := by
    refine (List.perm_ext_iff_of_nodup hdisjoint hall).2 fun x => ?_
    rw [List.mem_append, hmem', hgone, hmem]
    cases hx : t.isAlive x with
    | true => simp [hsub x hx]
    | false => simp
  rw [← hlen, ← hlen', ← List.length_append, hperm.length_eq]

/-- Stores with the same nodes have the same counter. -/
theorem Balanced.live_eq_of_isAlive (hs : Balanced s) (ht : Balanced t)
    (h : ∀ x, t.isAlive x = s.isAlive x) : t.live = s.live :=
  hs.live_add_gone ht (fun x hx => h x ▸ hx) List.nodup_nil (by simp [h])

-- ---------------------------------------------------------------------------
-- Edits that free nothing
-- ---------------------------------------------------------------------------

theorem live_modify (s : Store) (h : Handle) (f : Node → Node) : (s.modify h f).live = s.live := by
  unfold modify
  split <;> rfl

theorem live_detach (s : Store) (h : Handle) : (s.detach h).live = s.live := by
  unfold detach
  split
  · rfl
  · rw [live_modify, live_modify]

theorem live_link (s : Store) (p : Handle) (i : Nat) (c : Handle) :
    (s.link p i c).live = s.live := by
  rw [link, live_modify, live_modify]

theorem live_linkLast (s : Store) (p c : Handle) : (s.linkLast p c).live = s.live :=
  live_link _ _ _ _

theorem live_write (s : Store) (h : Handle) (v : Option Value) : (s.write h v).live = s.live := by
  unfold write
  cases v.bind Value.owned? with
  | none => rw [live_modify]
  | some nested => rw [live_modify, live_detach]

theorem live_allocate (s : Store) (n : Node) : (s.allocate n).2.live = s.live + 1 := by
  unfold allocate
  split <;> rfl

/-- One more node is alive, whatever its value. -/
theorem Balanced.live_create (hs : Balanced s) (name : String) (v : Option Value) :
    (s.create name v).2.live = s.live + 1 := by
  cases v with
  | none => rw [create_none, live_allocate]
  | some v => rw [hs.create_eq_write, live_write, live_allocate]

end TreeScript.Store
