import TreeScript.Proofs.Store.Signal
import TreeScript.Proofs.Twin.Pairing

/-!
# TreeScript — stores that say the same

Two stores are twins if the handles that stand for each other name nodes that say the same.
What else is in them does not matter. From nodes that stand for each other, every way leads to
nodes that do.

* `Store.Twins` — stores that say the same;
* `Twins.node`, `Twins.childList`, `Twins.parent?` and so on — one lemma for each way to go;
* `Twins.root?`, `Twins.isAncestor` — all the way up, in stores of which each ends;
* `Twins.walk`, `Twins.descendants` — all the way down.
-/

namespace TreeScript.Store

open Paired

/-- Two stores in which the handles that stand for each other name nodes that say the same. -/
structure Twins (ρ : Pairing) (s t : Store) : Prop where
  oneToOne : ρ.OneToOne
  node? {a b : Handle} : ρ a b → Matches ρ (s.node? a) (t.node? b)

variable {ρ : Pairing} {s t : Store} {a b a' b' : Handle}

/-- Above a removed node there is nothing. -/
theorem ancestors_of_not_isAlive (hdead : s.isAlive a = false) : s.ancestors a = [] := by
  have hparent : s.parent? a = none := by simp [Store.parent?, not_isAlive_iff.1 hdead]
  rw [ancestors]
  cases s.slots.size with
  | zero => rfl
  | succ n => rw [ancestorsWithin, hparent]

namespace Twins

-- ---------------------------------------------------------------------------
-- Data
-- ---------------------------------------------------------------------------

/-- Nodes that stand for each other are alive on both sides or on none. -/
theorem isAlive (h : Twins ρ s t) (hab : ρ a b) : s.isAlive a = t.isAlive b := by
  have hnode := h.node? hab
  rw [Store.isAlive, Store.isAlive]
  generalize s.node? a = x, t.node? b = y at hnode
  cases hnode <;> rfl

/-- Reading a node gives nodes that say the same, or the same fault. -/
theorem node (h : Twins ρ s t) (hab : ρ a b) : Concur ρ (s.node a) (t.node b) := by
  have hnode := h.node? hab
  rw [Store.node, Store.node]
  generalize s.node? a = x, t.node? b = y at hnode
  cases hnode with
  | none => exact .error _
  | some hnm => exact .ok hnm

theorem name (h : Twins ρ s t) (hab : ρ a b) : Concur ρ (s.name a) (t.name b) :=
  (h.node hab).map fun _ _ hnm => Node.Same.name hnm

theorem value (h : Twins ρ s t) (hab : ρ a b) : Concur ρ (s.value a) (t.value b) :=
  (h.node hab).map fun _ _ hnm => Node.Same.value hnm

theorem children (h : Twins ρ s t) (hab : ρ a b) : Concur ρ (s.children a) (t.children b) :=
  (h.node hab).map fun _ _ hnm => Node.Same.children hnm

theorem childCount (h : Twins ρ s t) (hab : ρ a b) : Concur ρ (s.childCount a) (t.childCount b) :=
  (h.node hab).map fun _ _ hnm => Paired.Matches.length (Node.Same.children hnm)

-- ---------------------------------------------------------------------------
-- Neighbours
-- ---------------------------------------------------------------------------

/-- The children, as a list that is empty for a removed node. -/
theorem childList (h : Twins ρ s t) (hab : ρ a b) : Matches ρ (s.childList a) (t.childList b) := by
  have hnode := h.node? hab
  rw [Store.childList, Store.childList]
  generalize s.node? a = x, t.node? b = y at hnode
  cases hnode with
  | none => exact .nil
  | some hnm => exact Node.Same.children hnm

/-- The parents, if there are any, stand for each other. -/
theorem parent? (h : Twins ρ s t) (hab : ρ a b) : Matches ρ (s.parent? a) (t.parent? b) :=
  (h.node? hab).optionBind fun _ _ hnm => Node.Same.parent hnm

theorem firstChild? (h : Twins ρ s t) (hab : ρ a b) :
    Matches ρ (s.firstChild? a) (t.firstChild? b) := (h.childList hab).head?

theorem child? (h : Twins ρ s t) (hab : ρ a b) (i : Nat) :
    Matches ρ (s.child? a i) (t.child? b i) := (h.childList hab).getElem? i

/-- The search of a name stops at the same place, also at a removed node. -/
theorem findNamed (h : Twins ρ s t) (name : String) {xs ys : List Handle} (hxs : Matches ρ xs ys) :
    Concur ρ (s.findNamed name xs) (t.findNamed name ys) := by
  induction hxs with
  | nil => exact .ok .none
  | @cons a b _ _ hab _ ih =>
    have hnode := h.node? hab
    rw [Store.findNamed, Store.findNamed]
    generalize s.node? a = x, t.node? b = y at hnode
    cases hnode with
    | none => exact .error _
    | some hnm =>
      simp only [Node.Same.name hnm]
      split
      · exact .ok (.some hab)
      · exact ih

theorem childNamed? (h : Twins ρ s t) (hab : ρ a b) (name : String) :
    Concur ρ (s.childNamed? a name) (t.childNamed? b name) := h.findNamed name (h.childList hab)

/-- Nodes that stand for each other have the same place below their parents. -/
theorem indexOf? (h : Twins ρ s t) (hab : ρ a b) : s.indexOf? a = t.indexOf? b := by
  have hparent := h.parent? hab
  rw [Store.indexOf?, Store.indexOf?]
  generalize s.parent? a = x, t.parent? b = y at hparent
  cases hparent with
  | none => rfl
  | some hpq => exact h.oneToOne.idxOf? (h.childList hpq) hab

/-- The nodes behind them stand for each other. -/
theorem nextSibling? (h : Twins ρ s t) (hab : ρ a b) :
    Matches ρ (s.nextSibling? a) (t.nextSibling? b) := by
  refine (h.parent? hab).optionBind fun p q hpq => ?_
  rw [h.indexOf? hab]
  cases t.indexOf? b with
  | none => exact .none
  | some i => exact h.child? hpq (i + 1)

/-- The nodes in front of them stand for each other. -/
theorem previousSibling? (h : Twins ρ s t) (hab : ρ a b) :
    Matches ρ (s.previousSibling? a) (t.previousSibling? b) := by
  refine (h.parent? hab).optionBind fun p q hpq => ?_
  rw [h.indexOf? hab]
  split
  · exact h.child? hpq _
  · exact .none

-- ---------------------------------------------------------------------------
-- Upwards
-- ---------------------------------------------------------------------------

/-- The nodes above, as long as neither walk uses its bound up. -/
theorem ancestorsWithin (h : Twins ρ s t) {n m : Nat} (hab : ρ a b)
    (hn : (s.ancestorsWithin n a).length < n) (hm : (t.ancestorsWithin m b).length < m) :
    Matches ρ (s.ancestorsWithin n a) (t.ancestorsWithin m b) := by
  induction n generalizing m a b with
  | zero => simp at hn
  | succ n ih =>
    cases m with
    | zero => simp at hm
    | succ m =>
      have hparent := h.parent? hab
      rw [Store.ancestorsWithin] at hn ⊢
      rw [Store.ancestorsWithin] at hm ⊢
      generalize s.parent? a = x, t.parent? b = y at hparent hn hm
      cases hparent with
      | none => exact .nil
      | some hpq => exact .cons hpq (ih hpq (by simpa using hn) (by simpa using hm))

/-- The nodes above stand for each other one by one: in linked stores both walks end at a root. -/
theorem ancestors (h : Twins ρ s t) (hs : Linked s) (ht : Linked t) (hab : ρ a b) :
    Matches ρ (s.ancestors a) (t.ancestors b) := by
  have hsame := h.isAlive hab
  cases ha : s.isAlive a with
  | true =>
    exact h.ancestorsWithin hab (hs.length_ancestors_lt ha)
      (ht.length_ancestors_lt (hsame.symm.trans ha))
  | false =>
    rw [ancestors_of_not_isAlive ha, ancestors_of_not_isAlive (hsame.symm.trans ha)]
    exact .nil

theorem root? (h : Twins ρ s t) (hs : Linked s) (ht : Linked t) (hab : ρ a b) :
    Matches ρ (s.root? a) (t.root? b) := by
  rw [Store.root?, Store.root?, h.isAlive hab]
  split
  · refine .some ?_
    have hlast := (h.ancestors hs ht hab).getLast?
    generalize (s.ancestors a).getLast? = x, (t.ancestors b).getLast? = y at hlast
    cases hlast with
    | none => exact hab
    | some hpq => exact hpq
  · exact .none

theorem isAncestor (h : Twins ρ s t) (hs : Linked s) (ht : Linked t) (hab : ρ a b)
    (hab' : ρ a' b') : s.isAncestor a a' = t.isAncestor b b' := by
  rw [Store.isAncestor, Store.isAncestor, Bool.eq_iff_iff, List.contains_iff_mem,
    List.contains_iff_mem]
  exact h.oneToOne.mem_iff (h.ancestors hs ht hab') hab

theorem wouldCycle (h : Twins ρ s t) (hs : Linked s) (ht : Linked t) (hab : ρ a b)
    (hab' : ρ a' b') : s.wouldCycle a a' = t.wouldCycle b b' := by
  rw [Store.wouldCycle, Store.wouldCycle, h.oneToOne.beq_eq hab' hab, h.isAncestor hs ht hab' hab]

theorem frontOf? (h : Twins ρ s t) (hs : Linked s) (ht : Linked t) (hab : ρ a b) :
    Matches ρ (s.frontOf? a) (t.frontOf? b) :=
  (h.root? hs ht hab).optionBind fun _ _ hpq => h.firstChild? hpq

theorem pending (h : Twins ρ s t) (hs : Linked s) (ht : Linked t) (hab : ρ a b) :
    Concur ρ (s.pending a) (t.pending b) := by
  have hfront := h.frontOf? hs ht hab
  rw [Store.pending, Store.pending]
  generalize s.frontOf? a = x, t.frontOf? b = y at hfront
  cases hfront with
  | none => exact .ok rfl
  | some hpq => exact (h.name hpq).map fun _ _ hname => congrArg Control.ofName (Plain.eq hname)

-- ---------------------------------------------------------------------------
-- Downwards
-- ---------------------------------------------------------------------------

/-- The nodes below, as far as neither walk runs out of its bound. -/
theorem walk (h : Twins ρ s t) {n m : Nat} {xs ys : List Handle} (hxs : Matches ρ xs ys) :
    Concur ρ (s.walk n xs) (t.walk m ys) := by
  induction n generalizing m xs ys with
  | zero =>
    cases hxs with
    | nil => cases m <;> exact .ok .nil
    | cons => exact .left _
  | succ n ih =>
    cases hxs with
    | nil => cases m <;> exact .ok .nil
    | cons hab hrest =>
      cases m with
      | zero => exact .right _
      | succ m =>
        rw [Store.walk, Store.walk]
        exact (h.children hab).bind fun _ _ hbelow =>
          (ih (Paired.Matches.append hbelow hrest)).bind fun _ _ hfound => .ok (.cons hab hfound)

/-- The nodes below stand for each other one by one, as far as both walks end. -/
theorem descendants (h : Twins ρ s t) (hab : ρ a b) :
    Concur ρ (s.descendants a) (t.descendants b) :=
  (h.children hab).bind fun _ _ hbelow => h.walk hbelow

end Twins

end TreeScript.Store
