import TreeScript.Proofs.Store.Count
import TreeScript.Proofs.Store.Signal

/-!
# TreeScript — what is freed with a node

Three edits free nodes: removing one, clearing its children, and giving a value to a node that
owned another. Each begins at some nodes and frees these with all that they hold, at any depth, and
nobody else; a reference is not a way to be freed. The nodes that are left are edited in one place.

* `Freed` — what has gone, what is left and how many;
* `Disciplined.freed_remove`, `Disciplined.freed_clear`, `Disciplined.freed_setValue` — the edits;
* `removal_frees` — all three of any node.
-/

namespace TreeScript.Store

variable {s t : Store} {h x : Handle}

/-- A node is among those that some nodes lead to. -/
def Below (s : Store) (roots : List Handle) (x : Handle) : Prop := ∃ r ∈ roots, s.Reaches r x

/-- Some nodes have been freed with all that they led to. Every other node is there as before, but
edited. The counter has gone down by the number of nodes that have gone. What a node refers to
has not gone for that, whether that node has gone or not. -/
structure Freed (s : Store) (roots : List Handle) (edit : Handle → Node → Node) (t : Store) :
    Prop where
  gone {x : Handle} : s.Below roots x → t.isAlive x = false
  left {x : Handle} : ¬ s.Below roots x → t.node? x = (s.node? x).map (edit x)
  counted : ∃ gone : List Handle, gone.Nodup ∧
    (∀ x, x ∈ gone ↔ s.isAlive x = true ∧ s.Below roots x) ∧ t.live + gone.length = s.live
  referred {x g : Handle} {n : Node} : s.node? x = some n → n.value = some (.ref g) →
    ¬ s.Below roots g → t.isAlive g = s.isAlive g

/-- Where exactly the nodes below some others have gone, the counter tells their number. -/
theorem Balanced.freed {roots : List Handle} {edit : Handle → Node → Node} (hs : Balanced s)
    (ht : Balanced t) (hgone : ∀ x, s.Below roots x → t.isAlive x = false)
    (hleft : ∀ x, ¬ s.Below roots x → t.node? x = (s.node? x).map (edit x)) :
    Freed s roots edit t := by
  -- what is not below the roots is alive as before
  have hsame : ∀ x, ¬ s.Below roots x → t.isAlive x = s.isAlive x := by
    intro x hx
    rw [isAlive, hleft x hx, Option.isSome_map, isAlive]
  refine ⟨hgone _, hleft _, ?_, fun _ _ hg => hsame _ hg⟩
  -- the freed nodes are listed, so that they can be counted
  classical
  obtain ⟨all, hnodup, hall, -⟩ := hs.exists_handles
  have hmem : ∀ x, x ∈ all.filter (fun x => decide (s.Below roots x)) ↔
      s.isAlive x = true ∧ s.Below roots x := by
    intro x
    rw [List.mem_filter, hall, decide_eq_true_eq]
  refine ⟨_, hnodup.filter _, hmem, hs.live_add_gone ht (fun x hx => ?_) (hnodup.filter _) ?_⟩
  · by_cases hbelow : s.Below roots x
    · simp [hgone x hbelow] at hx
    · rwa [← hsame x hbelow]
  · intro x
    rw [hmem]
    refine and_congr_right fun hx => ⟨hgone x, fun hdead => ?_⟩
    by_contra hbelow
    rw [hsame x hbelow, hx] at hdead
    simp at hdead

/-- A node loses one of its children. -/
def withoutChild (s : Store) (h x : Handle) (n : Node) : Node :=
  if s.parent? h = some x then { n with children := n.children.filter (· != h) } else n

/-- A node that is removed goes with all that it leads to, and its parent lists it no more. -/
theorem Disciplined.freed_remove (hd : Disciplined s) (h : Handle) :
    Freed s [h] (s.withoutChild h) (s.remove h) := by
  have hbelow : ∀ x, s.Below [h] x ↔ s.Reaches h x := by simp [Below]
  refine hd.balanced.freed ((Evolves.remove s h).balanced hd.balanced) (fun x hx => ?_)
    fun x hx => ?_
  · refine Bool.eq_false_iff.2 fun halive => ?_
    exact ((hd.isAlive_remove h x).1 halive).2 ((hbelow x).1 hx)
  -- what is left has changed in one list, that of the parent
  · rw [hbelow] at hx
    cases hh : s.isAlive h with
    | false =>
      have hroot : s.parent? h = none := by simp [parent?, not_isAlive_iff.1 hh]
      rw [remove, if_neg (by simp [hh])]
      cases s.node? x with
      | none => rfl
      | some n => simp [withoutChild, hroot]
    | true =>
      rw [(hd.freedOnly_remove hh).left x hx]
      cases hn : s.node? x with
      | none => rfl
      | some n =>
        by_cases hparent : s.parent? h = some x
        · simp [withoutChild, hparent]
        · -- only the parent lists the node
          have hnot : h ∉ n.children := fun hmem =>
            hparent (hd.childOf_of_mem (by rwa [childList_eq hn]))
          simp [withoutChild, hparent, filter_ne_of_not_mem hnot]

/-- A node that is cleared lists nobody any more, and its children have gone with all that they
led to. -/
theorem Disciplined.freed_clear (hd : Disciplined s) (hok : s.clear h = .ok t) :
    Freed s (s.childList h) (fun x n => if x = h then { n with children := [] } else n) t := by
  have hview := hd.node?_clear_iff hok
  refine hd.balanced.freed ((Evolves.clear hok).balanced hd.balanced) (fun x hx => ?_)
    fun x hx => Option.ext fun m => ?_
  · obtain ⟨c, hc, hreach⟩ := hx
    refine Bool.eq_false_iff.2 fun halive => ?_
    exact ((hd.isAlive_clear hok x).1 halive).2 c hc hreach
  · have hnot : ∀ c ∈ s.childList h, ¬ s.Reaches c x := fun c hc hreach => hx ⟨c, hc, hreach⟩
    rw [hview, and_iff_left hnot, node?_modify]
    by_cases heq : x = h
    · subst heq
      simp
    · simp [heq]

/-- The tree of an owned node is freed when its owner is given another value. -/
theorem Disciplined.node?_remove_owned (hd : Disciplined s) {old : Handle} (hown : s.Owns h old)
    (v : Option Value) (x : Handle) (m : Node) :
    ((s.modify h fun n => { n with value := v }).remove old).node? x = some m ↔
      (s.modify h fun n => { n with value := v }).node? x = some m ∧ ¬ s.Reaches old x := by
  set u := s.modify h fun n => { n with value := v } with hu
  have hreaches : u.Reaches old x ↔ s.Reaches old x := hd.reaches_owned hown v
  rw [← hreaches, remove]
  split
  next halive =>
    -- an owned tree has no parent, so nobody's list is changed
    have hroot : u.parent? old = none := by
      rw [hu, isAlive_modify] at halive
      have hparent := hd.apart hown halive
      rw [parent?, hu, node?_modify]
      split
      next heq =>
        cases hn : s.node? h with
        | none => rfl
        | some n => simpa [parent?, heq, hn] using hparent
      next => exact hparent
    rw [detach_eq_self hroot, node?_releaseAll_eq_some]
    simp
  next hdead =>
    exact (and_iff_left_of_imp fun hm hreach =>
      hdead (hreach.isAlive (isAlive_iff.2 ⟨m, hm⟩))).symm

/-- A node that owned another is given a value that owns nobody: the old one has gone with all that
it led to. -/
theorem Disciplined.freed_setValue (hd : Disciplined s) {v : Option Value}
    (hv : v.bind Value.owned? = none) (hok : s.setValue h v = .ok t) :
    Freed s ((s.node? h).bind Node.owned?).toList
      (fun x n => if x = h then { n with value := v } else n) t := by
  have hassign : s.assign h v = t := by
    unfold setValue at hok
    split at hok
    next => exact Except.ok.inj hok
    next => simp at hok
  have hwrite : s.write h v = s.modify h fun n => { n with value := v } := by
    rw [write, hv]
  have hedit : ∀ x, (s.modify h fun n => { n with value := v }).node? x =
      (s.node? x).map fun n => if x = h then { n with value := v } else n := by
    intro x
    rw [node?_modify]
    by_cases heq : x = h
    · simp [heq]
    · simp [heq]
  have ht : Balanced t := hassign ▸ (Evolves.assign s h v).balanced hd.balanced
  rcases s.assign_cases h v with ⟨heq, hsame⟩ | ⟨old, hown, -, heq⟩
  · -- nobody was owned
    have hnone : (s.node? h).bind Node.owned? = none := by
      refine Option.eq_none_iff_forall_ne_some.2 fun old hold => ?_
      simp [hsame old hold] at hv
    refine hd.balanced.freed ht (fun x hx => ?_) fun x _ => ?_
    · simp [hnone, Below] at hx
    · rw [← hassign, heq, hwrite, hedit]
  -- the tree owned before is freed, and nothing else
  · have hbelow : ∀ x, s.Below ((s.node? h).bind Node.owned?).toList x ↔ s.Reaches old x := by
      simp [Below, hown]
    have hview := hd.node?_remove_owned hown v
    rw [← hwrite, ← heq, hassign] at hview
    refine hd.balanced.freed ht (fun x hx => ?_) fun x hx => Option.ext fun m => ?_
    · refine Bool.eq_false_iff.2 fun halive => ?_
      obtain ⟨m, hm⟩ := isAlive_iff.1 halive
      exact ((hview x m).1 hm).2 ((hbelow x).1 hx)
    · rw [hview, and_iff_left fun hreach => hx ((hbelow x).2 hreach), hwrite, hedit]

/-- Removing a node, clearing it and giving it a value that owns nobody free exactly what is below
the node, below its children and below the node that it owned. -/
theorem removal_frees (hd : Disciplined s) (h : Handle) :
    Freed s [h] (s.withoutChild h) (s.remove h) ∧
    (s.isAlive h = true → ∃ t, s.clear h = .ok t ∧
      Freed s (s.childList h) (fun x n => if x = h then { n with children := [] } else n) t) ∧
    (s.isAlive h = true → ∀ v : Option Value, v.bind Value.owned? = none →
      ∃ t, s.setValue h v = .ok t ∧ Freed s ((s.node? h).bind Node.owned?).toList
        (fun x n => if x = h then { n with value := v } else n) t) := by
  refine ⟨hd.freed_remove h, fun hh => ?_, fun hh v hv => ?_⟩
  · obtain ⟨t, hok⟩ := hd.clear_isOk hh
    exact ⟨t, hok, hd.freed_clear hok⟩
  · have hok : s.setValue h v = .ok (s.assign h v) := by rw [setValue, if_pos hh]
    exact ⟨_, hok, hd.freed_setValue hv hok⟩

/-- A node that owns another and has a child, which refers to a node beside them. -/
def shelf : Store :=
  (empty.plant (.plain "root" none
    [.holder "box" (.plain "inner" none [.plain "leaf" none []]) [.pointer "see" ⟨5, 0⟩ []],
      .plain "other" none []])).2

/-- A node with a child and an owned node is removed, cleared and given another value; the neighbour
is left. -/
theorem removal_frees_shelf :
    Disciplined shelf ∧ shelf.isAlive ⟨3, 0⟩ = true ∧
    (some (Value.ref ⟨5, 0⟩)).bind Value.owned? = none ∧
    (shelf.remove ⟨3, 0⟩).isAlive ⟨2, 0⟩ = false ∧ (shelf.remove ⟨3, 0⟩).isAlive ⟨5, 0⟩ = true ∧
    (shelf.remove ⟨3, 0⟩).childList ⟨0, 0⟩ = [⟨5, 0⟩] ∧
    (∃ t, shelf.clear ⟨3, 0⟩ = .ok t ∧ t.isAlive ⟨4, 0⟩ = false) ∧
    ∃ t, shelf.setValue ⟨3, 0⟩ (some (.ref ⟨5, 0⟩)) = .ok t ∧ t.isAlive ⟨2, 0⟩ = false := by
  have hd : Disciplined shelf :=
    ((Since.refl disciplined_empty).plant _ (unwrapped_of_slots (by cbv; decide))).disciplined
  have halive : shelf.isAlive ⟨3, 0⟩ = true := by cbv
  obtain ⟨hremove, hclear, hset⟩ := removal_frees hd ⟨3, 0⟩
  obtain ⟨t, hok, hcleared⟩ := hclear halive
  obtain ⟨u, hok', hgiven⟩ := hset halive (some (.ref ⟨5, 0⟩)) rfl
  have hroot : shelf.node? ⟨0, 0⟩ = some { name := "root", children := [⟨3, 0⟩, ⟨5, 0⟩] } := by cbv
  have hlisted : shelf.childList ⟨3, 0⟩ = [⟨4, 0⟩] := by cbv
  have howned : ((shelf.node? ⟨3, 0⟩).bind Node.owned?).toList = [⟨1, 0⟩] := by cbv
  have hinner : shelf.Reaches ⟨1, 0⟩ ⟨2, 0⟩ := .single ⟨_, by cbv, Or.inl List.mem_cons_self⟩
  have hleaf : shelf.Reaches ⟨3, 0⟩ ⟨2, 0⟩ := .head ⟨_, by cbv, Or.inr rfl⟩ hinner
  -- the node that is referred to stands beside the one that goes
  have hfar : ¬ shelf.Below [⟨3, 0⟩] ⟨5, 0⟩ := by
    rintro ⟨r, hr, hreach⟩
    obtain rfl := List.mem_singleton.1 hr
    rcases hd.reaches_holder (by cbv) ⟨_, hroot, Or.inl (by simp)⟩ hreach with heq | hback
    · simp at heq
    · exact hd.not_reaches_holder ⟨_, hroot, Or.inl List.mem_cons_self⟩ hback
  have hfar' : ¬ shelf.Below [⟨3, 0⟩] ⟨0, 0⟩ := by
    rintro ⟨r, hr, hreach⟩
    obtain rfl := List.mem_singleton.1 hr
    exact hd.not_reaches_holder ⟨_, hroot, Or.inl List.mem_cons_self⟩ hreach
  refine ⟨hd, halive, rfl, hremove.gone ⟨_, List.mem_cons_self, hleaf⟩, ?_, ?_,
    ⟨t, hok, hcleared.gone ⟨_, hlisted ▸ List.mem_cons_self, .refl _ _⟩⟩,
    ⟨u, hok', hgiven.gone ⟨_, howned ▸ List.mem_cons_self, hinner⟩⟩⟩
  · rw [hremove.referred (x := ⟨4, 0⟩) (by cbv) rfl hfar]
    cbv
  · rw [childList, hremove.left hfar', hroot]
    cbv

end TreeScript.Store
