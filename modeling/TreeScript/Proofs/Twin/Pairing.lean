import Mathlib.Data.List.Forall2
import Mathlib.Order.Basic
import TreeScript.Engine.Execute

/-!
# TreeScript — the same up to handles

Two stores may hold the same things under different handles. Which handle of the one stands
for which of the other is told by a pairing; data of the two is the same if it is equal up
to the pairing. Pairings only grow: what is the same stays the same.

* `Pairing`, `Pairing.OneToOne` — which handles stand for each other;
* `Paired`, `Matches` — data that is the same up to a pairing, one instance for each type;
* `HandleFree`, `Plain` — data that is the same only if it is equal;
* `Concur` — two computations that come to the same, as far as both come to an end.
-/

namespace TreeScript

/-- Which handles of two stores stand for each other. -/
abbrev Pairing : Type := Handle → Handle → Prop

/-- No handle stands for two. -/
structure Pairing.OneToOne (ρ : Pairing) : Prop where
  left {a b b' : Handle} : ρ a b → ρ a b' → b = b'
  right {a a' b : Handle} : ρ a b → ρ a' b → a = a'

/-- Two handles are the same on one side just if their partners are on the other. -/
theorem Pairing.OneToOne.eq_iff {ρ : Pairing} (hρ : ρ.OneToOne) {a a' b b' : Handle} (h : ρ a b)
    (h' : ρ a' b') : a = a' ↔ b = b' := by
  constructor
  · rintro rfl
    exact hρ.left h h'
  · rintro rfl
    exact hρ.right h h'

/-- One more pair. -/
def Pairing.with (ρ : Pairing) (x y : Handle) : Pairing := fun a b => ρ a b ∨ a = x ∧ b = y

theorem Pairing.le_with (ρ : Pairing) (x y : Handle) : ρ ≤ ρ.with x y := fun _ _ => Or.inl

theorem Pairing.with_self (ρ : Pairing) (x y : Handle) : ρ.with x y x y := Or.inr ⟨rfl, rfl⟩

/-- No handle stands for two after a pair is added whose handles stood for nothing. -/
theorem Pairing.OneToOne.with {ρ : Pairing} (hρ : ρ.OneToOne) {x y : Handle}
    (hx : ∀ b, ¬ ρ x b) (hy : ∀ a, ¬ ρ a y) : (ρ.with x y).OneToOne where
  left h h' := by
    rcases h with h | ⟨rfl, rfl⟩ <;> rcases h' with h' | ⟨heq, rfl⟩
    · exact hρ.left h h'
    · exact absurd (heq ▸ h) (hx _)
    · exact absurd h' (hx _)
    · rfl
  right h h' := by
    rcases h with h | ⟨rfl, rfl⟩ <;> rcases h' with h' | ⟨rfl, heq⟩
    · exact hρ.right h h'
    · exact absurd (heq ▸ h) (hy _)
    · exact absurd h' (hy _)
    · rfl

/-- Data of which two may be the same up to a pairing. -/
class Paired (α : Type) where
  Matches : Pairing → α → α → Prop
  mono {ρ ρ' : Pairing} {a b : α} : ρ ≤ ρ' → Matches ρ a b → Matches ρ' a b

open Paired

variable {ρ ρ' : Pairing} {α β : Type} [Paired α] [Paired β]

-- ---------------------------------------------------------------------------
-- Data
-- ---------------------------------------------------------------------------

instance : Paired Handle := ⟨fun ρ => ρ, fun hle h => hle _ _ h⟩

instance : Paired (Option α) :=
  ⟨fun ρ => Option.Rel (Matches ρ), fun hle h => by
    cases h with
    | some h => exact .some (mono hle h)
    | none => exact .none⟩

instance : Paired (List α) := ⟨fun ρ => List.Forall₂ (Matches ρ), fun hle h => h.imp fun _ _ => mono hle⟩

instance : Paired (α × β) :=
  ⟨fun ρ x y => Matches ρ x.1 y.1 ∧ Matches ρ x.2 y.2, fun hle h => ⟨mono hle h.1, mono hle h.2⟩⟩

/-- Results that are both there and the same, or errors that are equal. -/
inductive SameResult {ε : Type} (ρ : Pairing) : Except ε α → Except ε α → Prop
  | ok {a b : α} : Matches ρ a b → SameResult ρ (.ok a) (.ok b)
  | error (e : ε) : SameResult ρ (.error e) (.error e)

instance {ε : Type} : Paired (Except ε α) :=
  ⟨SameResult, fun hle h => by
    cases h with
    | ok h => exact .ok (mono hle h)
    | error e => exact .error e⟩

/-- Values that are the same up to a pairing. -/
inductive Value.Same (ρ : Pairing) : Value → Value → Prop
  | scalar (v : Scalar) : Same ρ (.scalar v) (.scalar v)
  | node {a b : Handle} : ρ a b → Same ρ (.node a) (.node b)
  | ref {a b : Handle} : ρ a b → Same ρ (.ref a) (.ref b)

instance : Paired Value :=
  ⟨Value.Same, fun hle h => by
    cases h with
    | scalar v => exact .scalar v
    | node h => exact .node (hle _ _ h)
    | ref h => exact .ref (hle _ _ h)⟩

/-- Nodes that are the same up to a pairing. -/
structure Node.Same (ρ : Pairing) (n m : Node) : Prop where
  name : n.name = m.name
  value : Matches ρ n.value m.value
  parent : Matches ρ n.parent m.parent
  children : Matches ρ n.children m.children

instance : Paired Node :=
  ⟨Node.Same, fun hle h => ⟨h.name, mono hle h.value, mono hle h.parent, mono hle h.children⟩⟩

/-- Items that are the same up to a pairing. -/
inductive Item.Same (ρ : Pairing) : Item → Item → Prop
  | node {a b : Handle} : ρ a b → Same ρ (.node a) (.node b)
  | value {v w : Value} : Matches ρ v w → Same ρ (.value v) (.value w)
  | name (s : String) : Same ρ (.name s) (.name s)
  | count (n : Nat) : Same ρ (.count n) (.count n)

instance : Paired Item :=
  ⟨Item.Same, fun hle h => by
    cases h with
    | node h => exact .node (hle _ _ h)
    | value h => exact .value (mono hle h)
    | name s => exact .name s
    | count n => exact .count n⟩

instance : Paired Source :=
  ⟨fun ρ x y => ρ x.block y.block ∧ x.owned = y.owned, fun hle h => ⟨hle _ _ h.1, h.2⟩⟩

instance : Paired Surroundings :=
  ⟨fun ρ x y => Matches ρ x.parent y.parent ∧ Matches ρ x.previous y.previous ∧
    Matches ρ x.following y.following,
    fun hle h => ⟨mono hle h.1, mono hle h.2.1, mono hle h.2.2⟩⟩

-- ---------------------------------------------------------------------------
-- Data without handles
-- ---------------------------------------------------------------------------

/-- Types of data without handles. -/
class HandleFree (α : Type) : Type

instance {α : Type} [HandleFree α] : Paired α := ⟨fun _ a b => a = b, fun _ h => h⟩

/-- Types of data that is the same only if it is equal. -/
class Plain (α : Type) [Paired α] : Prop where
  matches_iff {ρ : Pairing} {a b : α} : Matches ρ a b ↔ a = b

instance {α : Type} [HandleFree α] : Plain α := ⟨Iff.rfl⟩

theorem Plain.eq [Plain α] {a b : α} (h : Matches ρ a b) : a = b := Plain.matches_iff.1 h

/-- Plain data is the same as itself, whatever the pairing. -/
theorem Plain.refl [Plain α] (a : α) : Matches ρ a a := Plain.matches_iff.2 rfl

instance [Plain α] : Plain (List α) := ⟨fun {ρ xs ys} => by
  have heq : (Matches ρ : α → α → Prop) = Eq := by
    funext a b
    exact propext Plain.matches_iff
  show List.Forall₂ (Matches ρ) xs ys ↔ xs = ys
  rw [heq, List.forall₂_eq_eq_eq]⟩

instance [Plain α] : Plain (Option α) := ⟨fun {ρ x y} => by
  constructor
  · rintro (h | _)
    · rw [Plain.eq h]
    · rfl
  · rintro rfl
    cases x with
    | none => exact .none
    | some a => exact .some (Plain.refl a)⟩

instance [Plain α] [Plain β] : Plain (α × β) := ⟨fun {ρ x y} => by
  constructor
  · exact fun h => Prod.ext (Plain.eq h.1) (Plain.eq h.2)
  · rintro rfl
    exact ⟨Plain.refl _, Plain.refl _⟩⟩

instance : HandleFree Unit where
instance : HandleFree Bool where
instance : HandleFree Nat where
instance : HandleFree String where
instance : HandleFree Scalar where
instance : HandleFree Doc where
instance : HandleFree NodeContext where
instance : HandleFree Control where
instance : HandleFree Widget where
instance : HandleFree RenderType where

-- ---------------------------------------------------------------------------
-- Values and lists
-- ---------------------------------------------------------------------------

namespace Value.Same

variable {v w : Value}

/-- Values that say the same refer to nodes that stand for each other, if they refer to any. -/
theorem target? (h : Value.Same ρ v w) : Matches ρ v.target? w.target? := by
  cases h with
  | scalar => exact .none
  | node h => exact .some h
  | ref h => exact .some h

/-- Values that say the same own nodes that stand for each other, if they own any. -/
theorem owned? (h : Value.Same ρ v w) : Matches ρ v.owned? w.owned? := by
  cases h with
  | node h => exact .some h
  | _ => exact .none

/-- Values that say the same have the same text: handles have none. -/
theorem scalarText? (h : Value.Same ρ v w) (encode : Bool) :
    v.scalarText? encode = w.scalarText? encode := by cases h <;> rfl

/-- Values that say the same hold of the same conditions. -/
theorem toBool (h : Value.Same ρ v w) : v.toBool = w.toBool := by cases h <;> rfl

end Value.Same

theorem Paired.Matches.optionBind {x y : Option α} {f g : α → Option β} (h : Matches ρ x y)
    (hf : ∀ a b, Matches ρ a b → Matches ρ (f a) (g b)) : Matches ρ (x.bind f) (y.bind g) := by
  cases h with
  | none => exact .none
  | some h => exact hf _ _ h

/-- What is there on the left has a partner on the right. -/
theorem Paired.Matches.some_right {x y : Option α} {a : α} (h : Matches ρ x y) (hx : x = some a) :
    ∃ b, y = some b ∧ Matches ρ a b := by
  subst hx
  cases h with
  | some h => exact ⟨_, rfl, h⟩

/-- What is there on the right has a partner on the left. -/
theorem Paired.Matches.some_left {x y : Option α} {b : α} (h : Matches ρ x y) (hy : y = some b) :
    ∃ a, x = some a ∧ Matches ρ a b := by
  subst hy
  cases h with
  | some h => exact ⟨_, rfl, h⟩

/-- The nodes owned by optional values that say the same. -/
theorem Paired.Matches.owned? {v w : Option Value} (h : Matches ρ v w) :
    Matches ρ (v.bind Value.owned?) (w.bind Value.owned?) :=
  h.optionBind fun _ _ hab => Value.Same.owned? hab

/-- The nodes referred to by optional values that say the same. -/
theorem Paired.Matches.target? {v w : Option Value} (h : Matches ρ v w) :
    Matches ρ (v.bind Value.target?) (w.bind Value.target?) :=
  h.optionBind fun _ _ hab => Value.Same.target? hab

-- ---------------------------------------------------------------------------
-- Lists of handles
-- ---------------------------------------------------------------------------

section

variable {xs ys : List α}

/-- Lists that say the same do so at every place, also behind their ends. -/
theorem Paired.Matches.getElem? (h : Matches ρ xs ys) (i : Nat) : Matches ρ xs[i]? ys[i]? := by
  induction h generalizing i with
  | nil => exact .none
  | cons hab _ ih =>
    cases i with
    | zero => exact .some hab
    | succ i => simpa using ih i

theorem Paired.Matches.head? (h : Matches ρ xs ys) : Matches ρ xs.head? ys.head? := by
  cases h with
  | nil => exact .none
  | cons hab _ => exact .some hab

theorem Paired.Matches.getLast? (h : Matches ρ xs ys) : Matches ρ xs.getLast? ys.getLast? := by
  rw [← List.head?_reverse, ← List.head?_reverse]
  exact Paired.Matches.head? (List.forall₂_reverse_iff.2 h)

theorem Paired.Matches.length (h : Matches ρ xs ys) : xs.length = ys.length := List.Forall₂.length_eq h

theorem Paired.Matches.append {xs' ys' : List α} (h : Matches ρ xs ys) (h' : Matches ρ xs' ys') :
    Matches ρ (xs ++ xs') (ys ++ ys') := List.rel_append h h'

/-- What is filtered by tests that agree on what says the same. -/
theorem Paired.Matches.filter {p q : α → Bool} (h : Matches ρ xs ys)
    (hpq : ∀ a b, Matches ρ a b → p a = q b) : Matches ρ (xs.filter p) (ys.filter q) := by
  induction h with
  | nil => exact .nil
  | cons hab _ ih =>
    rw [List.filter_cons, List.filter_cons, hpq _ _ hab]
    split
    · exact .cons hab ih
    · exact ih

/-- The longest front that passes tests that agree on what says the same. -/
theorem Paired.Matches.takeWhile {p q : α → Bool} (h : Matches ρ xs ys)
    (hpq : ∀ a b, Matches ρ a b → p a = q b) : Matches ρ (xs.takeWhile p) (ys.takeWhile q) := by
  induction h with
  | nil => exact .nil
  | cons hab _ ih =>
    rw [List.takeWhile_cons, List.takeWhile_cons, hpq _ _ hab]
    split
    · exact .cons hab ih
    · exact .nil

theorem Paired.Matches.insertIdx {a b : α} (h : Matches ρ xs ys) (hab : Matches ρ a b) (i : Nat) :
    Matches ρ (xs.insertIdx i a) (ys.insertIdx i b) := by
  induction h generalizing i with
  | nil =>
    cases i with
    | zero => exact .cons hab .nil
    | succ i => exact .nil
  | cons hxy hrest ih =>
    cases i with
    | zero => exact .cons hab (.cons hxy hrest)
    | succ i => exact .cons hxy (ih i)

/-- What functions make that take what says the same to what does. -/
theorem Paired.Matches.map {f g : α → β} (h : Matches ρ xs ys)
    (hfg : ∀ a b, Matches ρ a b → Matches ρ (f a) (g b)) : Matches ρ (xs.map f) (ys.map g) := by
  induction h with
  | nil => exact .nil
  | cons hab _ ih => exact .cons (hfg _ _ hab) ih

/-- What optional functions make that take what says the same to what does. -/
theorem Paired.Matches.filterMap {f g : α → Option β} (h : Matches ρ xs ys)
    (hfg : ∀ a b, Matches ρ a b → Matches ρ (f a) (g b)) :
    Matches ρ (xs.filterMap f) (ys.filterMap g) := by
  induction h with
  | nil => exact .nil
  | @cons a b _ _ hab _ ih =>
    have hfirst := hfg _ _ hab
    rw [List.filterMap_cons, List.filterMap_cons]
    cases hx : f a <;> cases hy : g b <;> rw [hx, hy] at hfirst <;> cases hfirst
    · exact ih
    · exact .cons ‹_› ih

theorem Paired.Matches.flatten {xs ys : List (List α)} (h : Matches ρ xs ys) :
    Matches ρ xs.flatten ys.flatten := by
  induction h with
  | nil => exact .nil
  | cons hab _ ih => exact Paired.Matches.append hab ih

/-- Every member on the left has a partner among those on the right. -/
theorem Paired.Matches.exists_right {a : α} (h : Matches ρ xs ys) (ha : a ∈ xs) :
    ∃ b ∈ ys, Matches ρ a b := by
  induction h with
  | nil => simp at ha
  | cons hab _ ih =>
    rcases List.mem_cons.1 ha with rfl | ha
    · exact ⟨_, List.mem_cons_self, hab⟩
    · obtain ⟨b, hb, hab⟩ := ih ha
      exact ⟨b, List.mem_cons_of_mem _ hb, hab⟩

/-- Every member on the right has a partner among those on the left. -/
theorem Paired.Matches.exists_left {b : α} (h : Matches ρ xs ys) (hb : b ∈ ys) :
    ∃ a ∈ xs, Matches ρ a b := by
  induction h with
  | nil => simp at hb
  | cons hab _ ih =>
    rcases List.mem_cons.1 hb with rfl | hb
    · exact ⟨_, List.mem_cons_self, hab⟩
    · obtain ⟨a, ha, hab⟩ := ih hb
      exact ⟨a, List.mem_cons_of_mem _ ha, hab⟩

/-- Handles that stand for each other in one pairing do in another that has the pairs of the lists'
own members. -/
theorem Paired.Matches.imp_of_mem {R R' : Pairing} {xs ys : List Handle} (h : Matches R xs ys)
    (himp : ∀ a ∈ xs, ∀ b ∈ ys, R a b → R' a b) : Matches R' xs ys := by
  induction h with
  | nil => exact .nil
  | cons hab _ ih =>
    exact .cons (himp _ List.mem_cons_self _ List.mem_cons_self hab)
      (ih fun a ha b hb => himp a (List.mem_cons_of_mem _ ha) b (List.mem_cons_of_mem _ hb))

theorem Paired.Matches.toList {x y : Option α} (h : Matches ρ x y) : Matches ρ x.toList y.toList := by
  cases h with
  | none => exact .nil
  | some h => exact .cons h .nil

end

namespace Pairing.OneToOne

variable {xs ys : List Handle} {a b : Handle}

/-- Handles that stand for each other are members of the same lists: here no handle may stand for
two. -/
theorem mem_iff (hρ : ρ.OneToOne) (h : Matches ρ xs ys) (hab : ρ a b) : a ∈ xs ↔ b ∈ ys := by
  induction h with
  | nil => simp
  | cons hxy _ ih => simp only [List.mem_cons, ih, hρ.eq_iff hab hxy]

/-- Lists without those that are in two others. -/
theorem filter_not_mem (hρ : ρ.OneToOne) {known known' : List Handle} (h : Matches ρ xs ys)
    (hknown : Matches ρ known known') :
    Matches ρ (xs.filter fun x => !known.contains x) (ys.filter fun y => !known'.contains y) := by
  refine Paired.Matches.filter h fun x y hxy => ?_
  have hmem := hρ.mem_iff hknown hxy
  rw [← List.contains_iff_mem, ← List.contains_iff_mem, ← Bool.eq_iff_iff] at hmem
  rw [hmem]

theorem beq_eq (hρ : ρ.OneToOne) {a' b' : Handle} (h : ρ a b) (h' : ρ a' b') :
    (a == a') = (b == b') := by
  rw [Bool.eq_iff_iff, beq_iff_eq, beq_iff_eq, hρ.eq_iff h h']

theorem option_eq_iff (hρ : ρ.OneToOne) {x x' y y' : Option Handle} (h : Matches ρ x y)
    (h' : Matches ρ x' y') : x = x' ↔ y = y' := by
  cases h with
  | none => cases h' <;> simp
  | some h =>
    cases h' with
    | none => simp
    | some h' => simp only [Option.some.injEq, hρ.eq_iff h h']

theorem option_beq_eq (hρ : ρ.OneToOne) {x x' y y' : Option Handle} (h : Matches ρ x y)
    (h' : Matches ρ x' y') : (x == x') = (y == y') := by
  rw [Bool.eq_iff_iff, beq_iff_eq, beq_iff_eq, hρ.option_eq_iff h h']

/-- Handles that stand for each other stand at the same place of their lists. -/
theorem idxOf? (hρ : ρ.OneToOne) (h : Matches ρ xs ys) (hab : ρ a b) :
    xs.idxOf? a = ys.idxOf? b := by
  induction h with
  | nil => rfl
  | cons hxy _ ih => rw [List.idxOf?_cons, List.idxOf?_cons, hρ.beq_eq hxy hab, ih]

theorem eraseDups (hρ : ρ.OneToOne) (h : Matches ρ xs ys) :
    Matches ρ xs.eraseDups ys.eraseDups := by
  induction hn : xs.length using Nat.strongRecOn generalizing xs ys with
  | ind n ih =>
    cases h with
    | nil => exact .nil
    | @cons a b xs ys hab hrest =>
      rw [List.eraseDups_cons, List.eraseDups_cons]
      refine .cons hab (ih _ ?_ (Paired.Matches.filter hrest fun x y hxy => ?_) rfl)
      · rw [← hn]
        exact Nat.lt_succ_of_le (List.length_filter_le _ _)
      · rw [hρ.beq_eq hxy hab]

end Pairing.OneToOne

-- ---------------------------------------------------------------------------
-- Computations
-- ---------------------------------------------------------------------------

/-- Errors among which there is one for a walk without end. -/
class EndlessError (ε : Type) where
  endless : ε

instance : EndlessError Fault := ⟨.endless⟩

instance : EndlessError Halt := ⟨.fault .endless⟩

/-- Two computations that come to the same, as far as both come to an end. -/
inductive Concur {ε : Type} [EndlessError ε] (ρ : Pairing) : Except ε α → Except ε α → Prop
  | left (y : Except ε α) : Concur ρ (.error EndlessError.endless) y
  | right (x : Except ε α) : Concur ρ x (.error EndlessError.endless)
  | ok {a b : α} : Matches ρ a b → Concur ρ (.ok a) (.ok b)
  | error (e : ε) : Concur ρ (.error e) (.error e)

namespace Concur

variable {ε : Type} [EndlessError ε]

/-- One computation after another comes to the same if each does, from results that say the same. -/
theorem bind {x y : Except ε α} {f g : α → Except ε β} (h : Concur ρ x y)
    (hfg : ∀ a b, Matches ρ a b → Concur ρ (f a) (g b)) : Concur ρ (x >>= f) (y >>= g) := by
  cases h with
  | left y => exact .left _
  | right x => exact .right _
  | ok h => exact hfg _ _ h
  | error e => exact .error e

/-- Results that say the same, each passed through a function. -/
theorem map {x y : Except ε α} {f g : α → β} (h : Concur ρ x y)
    (hfg : ∀ a b, Matches ρ a b → Matches ρ (f a) (g b)) : Concur ρ (x.map f) (y.map g) := by
  cases h with
  | left y => exact .left _
  | right x => exact .right _
  | ok h => exact .ok (hfg _ _ h)
  | error e => exact .error e

/-- What comes to the same still does in a larger pairing. -/
theorem mono (hle : ρ ≤ ρ') {x y : Except ε α} (h : Concur ρ x y) : Concur ρ' x y := by
  cases h with
  | left y => exact .left _
  | right x => exact .right _
  | ok h => exact .ok (Paired.mono hle h)
  | error e => exact .error e

theorem ofFault {x y : Except Fault α} (h : Concur ρ x y) :
    Concur ρ (Halt.ofFault x) (Halt.ofFault y) := by
  cases h with
  | left y => exact .left _
  | right x => exact .right _
  | ok h => exact .ok h
  | error e => exact .error _

theorem mapM {γ δ : Type} {R : γ → δ → Prop} {xs : List γ} {ys : List δ} {f : γ → Except ε β}
    {g : δ → Except ε β} (h : List.Forall₂ R xs ys) (hfg : ∀ a b, R a b → Concur ρ (f a) (g b)) :
    Concur ρ (xs.mapM f) (ys.mapM g) := by
  induction h with
  | nil => exact .ok .nil
  | cons hab _ ih =>
    rw [List.mapM_cons, List.mapM_cons]
    exact (hfg _ _ hab).bind fun _ _ hxy => ih.bind fun _ _ hrest => .ok (.cons hxy hrest)

end Concur

end TreeScript
