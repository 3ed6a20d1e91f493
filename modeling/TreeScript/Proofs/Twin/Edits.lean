import TreeScript.Proofs.Store.Load
import TreeScript.Proofs.Store.Calls
import TreeScript.Proofs.Twin.Store

/-!
# TreeScript — the same edit on both sides

An edit that is made at nodes that stand for each other leaves stores that say the same. A new
node is paired with its counterpart: neither has been given out before, so no handle comes to
stand for two.

* `Twins.modify`, `Twins.detach`, `Twins.link`, `Twins.moveBelow` — data and places;
* `Twins.reaches_iff`, `Twins.releaseAll`, `Twins.remove`, `Twins.clear` — freeing;
* `Twins.assign` — values;
* `Alike`, `Alike.create` — new nodes.
-/

namespace TreeScript.Store

open Paired

variable {ρ : Pairing} {s t : Store} {a b a' b' x y : Handle}

theorem node?_releaseAll_of_reaches (hx : s.Reaches a x) : (s.releaseAll [a]).node? x = none := by
  rw [Option.eq_none_iff_forall_ne_some]
  exact fun n hn => ((node?_releaseAll_eq_some s [a] x n).1 hn).2 a (by simp) hx

/-- What a freed node does not lead to is as it was. -/
theorem node?_releaseAll_of_not_reaches (hx : ¬ s.Reaches a x) :
    (s.releaseAll [a]).node? x = s.node? x := by
  refine Option.ext fun n => ?_
  rw [node?_releaseAll_eq_some]
  simpa using fun _ => hx

namespace Twins

-- ---------------------------------------------------------------------------
-- Data and places
-- ---------------------------------------------------------------------------

/-- The same change of nodes that stand for each other. -/
theorem modify (h : Twins ρ s t) (hab : ρ a b) {f g : Node → Node}
    (hfg : ∀ n m, Node.Same ρ n m → Node.Same ρ (f n) (g m)) :
    Twins ρ (s.modify a f) (t.modify b g) := by
  refine ⟨h.oneToOne, fun {x y} hxy => ?_⟩
  rw [node?_modify, node?_modify]
  by_cases hx : x = a
  · have hy := (h.oneToOne.eq_iff hxy hab).1 hx
    have hnode := h.node? hab
    rw [if_pos hx, if_pos hy]
    generalize s.node? a = n, t.node? b = m at hnode
    cases hnode with
    | none => exact .none
    | some hnm => exact .some (hfg _ _ hnm)
  · have hy := fun hy => hx ((h.oneToOne.eq_iff hxy hab).2 hy)
    rw [if_neg hx, if_neg hy]
    exact h.node? hxy

/-- New parents that stand for each other. -/
theorem modifyParent (h : Twins ρ s t) (hab : ρ a b) {p q : Option Handle} (hpq : Matches ρ p q) :
    Twins ρ (s.modify a fun n => { n with parent := p }) (t.modify b fun n => { n with parent := q }) :=
  h.modify hab fun _ _ hnm => ⟨hnm.name, hnm.value, hpq, hnm.children⟩

theorem modifyValue (h : Twins ρ s t) (hab : ρ a b) {v w : Option Value} (hvw : Matches ρ v w) :
    Twins ρ (s.modify a fun n => { n with value := v }) (t.modify b fun n => { n with value := w }) :=
  h.modify hab fun _ _ hnm => ⟨hnm.name, hvw, hnm.parent, hnm.children⟩

/-- New children, made from the old ones in a way that keeps the pairing. -/
theorem modifyChildren (h : Twins ρ s t) (hab : ρ a b) {f g : List Handle → List Handle}
    (hfg : ∀ xs ys, Matches ρ xs ys → Matches ρ (f xs) (g ys)) :
    Twins ρ (s.modify a fun n => { n with children := f n.children })
      (t.modify b fun n => { n with children := g n.children }) :=
  h.modify hab fun _ _ hnm => ⟨hnm.name, hnm.value, hnm.parent, hfg _ _ hnm.children⟩

/-- Nodes that stand for each other leave their parents, which do so as well. -/
theorem detach (h : Twins ρ s t) (hab : ρ a b) : Twins ρ (s.detach a) (t.detach b) := by
  have hparent := h.parent? hab
  rw [Store.detach, Store.detach]
  generalize s.parent? a = p, t.parent? b = q at hparent
  cases hparent with
  | none => exact h
  | some hpq =>
    refine (h.modifyChildren hpq fun xs ys hxs => ?_).modifyParent hab .none
    exact Paired.Matches.filter hxs fun x y hxy => by
      rw [bne, bne, h.oneToOne.beq_eq hxy hab]

/-- A node is put at the same place below nodes that stand for each other. -/
theorem link (h : Twins ρ s t) (hab : ρ a b) (hab' : ρ a' b') (i : Nat) :
    Twins ρ (s.link a i a') (t.link b i b') := by
  refine (h.modifyParent hab' (.some hab)).modifyChildren hab fun xs ys hxs => ?_
  exact Paired.Matches.insertIdx hxs hab' i

theorem targetIndex (h : Twins ρ s t) (hab : ρ a b) (hab' : ρ a' b') (i : Nat) :
    s.targetIndex a i a' = t.targetIndex b i b' := by
  have hplace := h.oneToOne.option_eq_iff (h.parent? hab') (.some hab)
  rw [Store.targetIndex, Store.targetIndex, h.indexOf? hab']
  simp only [hplace]

/-- Two edits that may fail leave stores that say the same, or fail in the same way. -/
inductive Edited (ρ : Pairing) : Except Fault Store → Except Fault Store → Prop
  | ok {s t : Store} : Twins ρ s t → Edited ρ (.ok s) (.ok t)
  | error (e : Fault) : Edited ρ (.error e) (.error e)

/-- A move is refused on both sides or made on both. -/
theorem moveBelow (h : Twins ρ s t) (hab : ρ a b) (hab' : ρ a' b') (i : Nat) :
    Edited ρ (s.moveBelow a i a') (t.moveBelow b i b') := by
  have hd := h.detach hab'
  rw [Store.moveBelow, Store.moveBelow]
  simp only [h.targetIndex hab hab', hd.isAlive hab, hd.isAlive hab',
    Paired.Matches.length (hd.childList hab)]
  split
  · exact .ok (hd.link hab hab' _)
  · exact .error _

-- ---------------------------------------------------------------------------
-- Freeing
-- ---------------------------------------------------------------------------

/-- What is held on the left has a partner that is held on the right. -/
theorem holds_right (h : Twins ρ s t) (hab : ρ a b) (hx : s.Holds a x) :
    ∃ y, ρ x y ∧ t.Holds b y := by
  obtain ⟨n, hn, hx⟩ := hx
  obtain ⟨m, hm, hnm⟩ := (h.node? hab).some_right hn
  rcases hx with hx | hx
  · obtain ⟨y, hy, hxy⟩ := Paired.Matches.exists_right (Node.Same.children hnm) hx
    exact ⟨y, hxy, m, hm, .inl hy⟩
  · obtain ⟨y, hy, hxy⟩ := (Paired.Matches.owned? (Node.Same.value hnm)).some_right hx
    exact ⟨y, hxy, m, hm, .inr hy⟩

/-- What is held on the right has a partner that is held on the left. -/
theorem holds_left (h : Twins ρ s t) (hab : ρ a b) (hy : t.Holds b y) :
    ∃ x, ρ x y ∧ s.Holds a x := by
  obtain ⟨m, hm, hy⟩ := hy
  obtain ⟨n, hn, hnm⟩ := (h.node? hab).some_left hm
  rcases hy with hy | hy
  · obtain ⟨x, hx, hxy⟩ := Paired.Matches.exists_left (Node.Same.children hnm) hy
    exact ⟨x, hxy, n, hn, .inl hx⟩
  · obtain ⟨x, hx, hxy⟩ := (Paired.Matches.owned? (Node.Same.value hnm)).some_left hy
    exact ⟨x, hxy, n, hn, .inr hx⟩

/-- What is reached from nodes that stand for each other does so too. -/
theorem reaches_iff (h : Twins ρ s t) (hab : ρ a b) (hxy : ρ x y) :
    s.Reaches a x ↔ t.Reaches b y := by
  constructor
  · intro hx
    -- the way is followed on the other side edge by edge; the pairing is one to one
    obtain ⟨y', hxy', hy'⟩ : ∃ y', ρ x y' ∧ t.Reaches b y' := by
      clear hxy
      induction hx with
      | refl => exact ⟨b, hab, .refl _ _⟩
      | tail _ hstep ih =>
        obtain ⟨z, hz, hreach⟩ := ih
        obtain ⟨y', hy', hholds⟩ := h.holds_right hz hstep
        exact ⟨y', hy', hreach.tail hholds⟩
    exact h.oneToOne.left hxy' hxy ▸ hy'
  · intro hy
    obtain ⟨x', hxy', hx'⟩ : ∃ x', ρ x' y ∧ s.Reaches a x' := by
      clear hxy
      induction hy with
      | refl => exact ⟨a, hab, .refl _ _⟩
      | tail _ hstep ih =>
        obtain ⟨z, hz, hreach⟩ := ih
        obtain ⟨x', hx', hholds⟩ := h.holds_left hz hstep
        exact ⟨x', hx', hreach.tail hholds⟩
    exact h.oneToOne.right hxy' hxy ▸ hx'

/-- Nodes that stand for each other are freed, and with them all that they lead to. -/
theorem releaseAll (h : Twins ρ s t) (hab : ρ a b) :
    Twins ρ (s.releaseAll [a]) (t.releaseAll [b]) := by
  refine ⟨h.oneToOne, fun {x y} hxy => ?_⟩
  have hreach := h.reaches_iff hab hxy
  by_cases hx : s.Reaches a x
  · rw [node?_releaseAll_of_reaches hx, node?_releaseAll_of_reaches (hreach.1 hx)]
    exact .none
  · rw [node?_releaseAll_of_not_reaches hx,
      node?_releaseAll_of_not_reaches fun hy => hx (hreach.2 hy)]
    exact h.node? hxy

/-- Nodes that stand for each other are removed. -/
theorem remove (h : Twins ρ s t) (hab : ρ a b) : Twins ρ (s.remove a) (t.remove b) := by
  rw [Store.remove, Store.remove, h.isAlive hab]
  split
  · exact (h.detach hab).releaseAll hab
  · exact h

/-- Lists of nodes that say the same are removed one by one. -/
theorem removeEach (h : Twins ρ s t) {xs ys : List Handle} (hxs : Matches ρ xs ys) :
    Edited ρ (s.removeEach xs) (t.removeEach ys) := by
  induction hxs generalizing s t with
  | nil => exact .ok h
  | cons hab _ ih =>
    rw [Store.removeEach, Store.removeEach, h.isAlive hab]
    split
    · exact ih ((h.modifyParent hab .none).releaseAll hab)
    · exact .error _

/-- The children are removed on both sides, or both nodes are gone. -/
theorem clear (h : Twins ρ s t) (hab : ρ a b) : Edited ρ (s.clear a) (t.clear b) := by
  have hnode := h.node? hab
  rw [Store.clear, Store.clear, Store.children, Store.children, Store.node, Store.node]
  generalize s.node? a = n, t.node? b = m at hnode
  cases hnode with
  | none => exact .error _
  | some hnm =>
    exact (h.modifyChildren hab fun _ _ _ => .nil).removeEach (Node.Same.children hnm)

-- ---------------------------------------------------------------------------
-- Values
-- ---------------------------------------------------------------------------

/-- Values that say the same are written, and what they own gets its parent on both sides. -/
theorem write (h : Twins ρ s t) (hab : ρ a b) {v w : Option Value} (hvw : Matches ρ v w) :
    Twins ρ (s.write a v) (t.write b w) := by
  have hin := Paired.Matches.owned? hvw
  rw [Store.write, Store.write]
  generalize v.bind Value.owned? = i, w.bind Value.owned? = j at hin
  cases hin with
  | none => exact h.modifyValue hab hvw
  | some hij => exact (h.detach hij).modifyValue hab hvw

/-- Values that say the same take the place of others, which are freed if they own nodes. -/
theorem assign (h : Twins ρ s t) (hab : ρ a b) {v w : Option Value} (hvw : Matches ρ v w) :
    Twins ρ (s.assign a v) (t.assign b w) := by
  have hwrite := h.write hab hvw
  have hin := Paired.Matches.owned? hvw
  have hout : Matches ρ ((s.node? a).bind Node.owned?) ((t.node? b).bind Node.owned?) :=
    (h.node? hab).optionBind fun _ _ hnm => Paired.Matches.owned? (Node.Same.value hnm)
  rcases s.assign_cases a v with ⟨hs, hkept⟩ | ⟨old, hold, hne, hs⟩
  · rcases t.assign_cases b w with ⟨ht, -⟩ | ⟨old', hold', hne', ht⟩
    · rwa [hs, ht]
    · obtain ⟨old, hold, hpair⟩ := hout.some_left hold'
      exact absurd ((h.oneToOne.option_eq_iff hin (.some hpair)).1 (hkept old hold)) hne'
  · obtain ⟨old', hold', hpair⟩ := hout.some_right hold
    rcases t.assign_cases b w with ⟨-, hkept'⟩ | ⟨old'', hold'', -, ht⟩
    · exact absurd ((h.oneToOne.option_eq_iff hin (.some hpair)).2 (hkept' old' hold')) hne
    · obtain rfl := Option.some.inj (hold'.symm.trans hold'')
      rw [hs, ht]
      exact hwrite.remove hpair

/-- Values that say the same are set on both sides, or both nodes are gone. -/
theorem setValue (h : Twins ρ s t) (hab : ρ a b) {v w : Option Value} (hvw : Matches ρ v w) :
    Edited ρ (s.setValue a v) (t.setValue b w) := by
  rw [Store.setValue, Store.setValue, h.isAlive hab]
  split
  · exact .ok (h.assign hab hvw)
  · exact .error _

-- ---------------------------------------------------------------------------
-- Signals
-- ---------------------------------------------------------------------------

/-- The signal in front is taken away on both sides if it is a return. -/
theorem stripReturn (h : Twins ρ s t) (hab : ρ a b) :
    Edited ρ (s.stripReturn a) (t.stripReturn b) := by
  have hfirst := h.firstChild? hab
  rw [Store.stripReturn, Store.stripReturn]
  generalize s.firstChild? a = f, t.firstChild? b = g at hfirst
  cases hfirst with
  | none => exact .ok h
  | @some f g hfg =>
    have hnode := h.node? hfg
    have hgone := h.remove hfg
    simp only [Store.name, Store.node]
    generalize s.node? f = n, t.node? g = m at hnode
    cases hnode with
    | none => exact .error _
    | some hnm =>
      simp only [Except.map, bind, Except.bind, Node.Same.name hnm]
      split
      · exact .ok hgone
      · exact .ok h

end Twins

-- ---------------------------------------------------------------------------
-- New nodes
-- ---------------------------------------------------------------------------

/-- A store whose books are in order and in which parents and children agree. -/
structure Sound (s : Store) : Prop where
  balanced : Balanced s
  linked : Linked s

/-- A new node leaves a store sound as long as no slot has been worn out. -/
theorem Sound.create (h : Sound s) (name : String) (v : Option Value)
    (hu : Unwrapped (s.create name v).2) : Sound (s.create name v).2 :=
  ⟨(Evolves.create s name v).balanced h.balanced, h.linked.create h.balanced name v (.inl hu)⟩

/-- Stores that say the same, in order both, and with handles that have been given out. -/
structure Alike (ρ : Pairing) (s t : Store) : Prop extends Twins ρ s t where
  known {a b : Handle} : ρ a b → s.Issued a ∧ t.Issued b
  left : Sound s
  right : Sound t

namespace Alike

variable {s' t' : Store}

/-- New nodes that say the same become a pair: their handles have stood for nothing before. -/
theorem allocate (h : Alike ρ s t) (hu : Unwrapped s) (hu' : Unwrapped t) {n m : Node}
    (hnm : Node.Same ρ n m) : Twins (ρ.with (s.allocate n).1 (t.allocate m).1)
      (s.allocate n).2 (t.allocate m).2 := by
  have hnew : ∀ y, ¬ ρ (s.allocate n).1 y := fun y hy =>
    h.left.balanced.not_issued_allocate hu n (h.known hy).1
  have hnew' : ∀ x, ¬ ρ x (t.allocate m).1 := fun x hx =>
    h.right.balanced.not_issued_allocate hu' m (h.known hx).2
  refine ⟨h.oneToOne.with hnew hnew', fun {x y} hxy => ?_⟩
  rw [h.left.balanced.node?_allocate, h.right.balanced.node?_allocate]
  rcases hxy with hxy | ⟨rfl, rfl⟩
  · have hx : x ≠ (s.allocate n).1 := fun heq => hnew y (heq ▸ hxy)
    have hy : y ≠ (t.allocate m).1 := fun heq => hnew' x (heq ▸ hxy)
    rw [if_neg hx, if_neg hy]
    exact mono (Pairing.le_with _ _ _) (h.node? hxy)
  · rw [if_pos rfl, if_pos rfl]
    exact .some (mono (Pairing.le_with _ _ _) hnm)

/-- Stores that still say the same after more has been done, as far as nodes were paired or have
come since. -/
theorem later {ρ' : Pairing} (h : Alike ρ s t) (hs : Evolves s s') (ht : Evolves t t')
    (hu : Unwrapped s') (hu' : Unwrapped t') (htwins : Twins ρ' s' t')
    (hnew : ∀ a b, ρ' a b → ρ a b ∨ s'.isAlive a = true ∧ t'.isAlive b = true)
    (hleft : Sound s') (hright : Sound t') : Alike ρ' s' t' where
  toTwins := htwins
  known {a b} hab := by
    rcases hnew a b hab with hold | ⟨ha, hb⟩
    · exact ⟨hs.issued hu (h.known hold).1, ht.issued hu' (h.known hold).2⟩
    · exact ⟨.inr ha, .inr hb⟩
  left := hleft
  right := hright

/-- A new node with a value. -/
theorem create (h : Alike ρ s t) (name : String) {v w : Option Value} (hvw : Matches ρ v w)
    (hu : Unwrapped (s.create name v).2) (hu' : Unwrapped (t.create name w).2) :
    Alike (ρ.with (s.create name v).1 (t.create name w).1) (s.create name v).2
      (t.create name w).2 := by
  have hs := Evolves.create s name v
  have ht := Evolves.create t name w
  refine h.later hs ht hu hu' ?_ (fun x y hxy => ?_) (h.left.create name v hu)
    (h.right.create name w hu')
  · have halloc := h.allocate (hs.unwrapped hu) (ht.unwrapped hu')
      (n := { name }) (m := { name }) ⟨rfl, .none, .none, .nil⟩
    rw [create_fst, create_fst]
    cases hvw with
    | none => exact halloc
    | some hvw =>
      exact halloc.assign (Pairing.with_self _ _ _) (.some (mono (Pairing.le_with _ _ _) hvw))
  · rcases hxy with hxy | ⟨rfl, rfl⟩
    · exact .inl hxy
    · exact .inr ⟨isAlive_iff.2 ⟨_, h.left.balanced.node?_create_self name v⟩,
        isAlive_iff.2 ⟨_, h.right.balanced.node?_create_self name w⟩⟩

end Alike

end TreeScript.Store
