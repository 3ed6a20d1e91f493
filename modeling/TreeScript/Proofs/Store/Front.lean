import Mathlib.Data.List.TakeWhile
import TreeScript.Proofs.Store.Signal

/-!
# TreeScript — signals in front of a node

Sentinels may pile up in front of a node's children. The signal that is pending at a root is
the first of them. Removing a signal, or stripping a `_return`, removes the first sentinel at
most; those behind it stay, and the next one comes to the front.

* `signalOf`, `signals` — the signal of a node, those in front of a node's children;
* `dropFront`, `LiveChildren.stripReturn_eq`, `LiveChildren.clearSignal_eq` — what is removed;
* `behindSignal`, `Disciplined.childList_dropFront_isActive` — the children that are left;
* `Disciplined.childList_remove_first`, `Disciplined.signals_dropFront` — the signals that are left;
* `LiveChildren.pending_eq` — the signal that is pending.
-/

namespace TreeScript.Store

variable {s : Store} {h f : Handle}

/-- The signal that a node stands for by its name. -/
def signalOf (s : Store) (h : Handle) : Control :=
  match s.node? h with
  | some n => Control.ofName n.name
  | none => .none

/-- The signals whose sentinels stand in front of the children of a node, the first one first. -/
def signals (s : Store) (h : Handle) : List Control :=
  ((s.childList h).map s.signalOf).takeWhile Control.isActive

/-- The store without the first child of a node, if that stands for one of some signals. -/
def dropFront (s : Store) (h : Handle) (p : Control → Bool) : Store :=
  match s.firstChild? h with
  | some f => if p (s.signalOf f) then s.remove f else s
  | none => s

/-- The children of a node without a signal in front of them. -/
def behindSignal (s : Store) (h : Handle) : List Handle :=
  match s.childList h with
  | [] => []
  | f :: rest => if (s.signalOf f).isActive then rest else f :: rest

/-- What is behind the signals are children. -/
theorem behindSignal_subset (s : Store) (h : Handle) : s.behindSignal h ⊆ s.childList h := by
  unfold behindSignal
  split
  next => exact List.nil_subset _
  next f rest hlist =>
    rw [hlist]
    split
    next => exact List.subset_cons_self f rest
    next => exact List.Subset.refl _

/-- The first signal in front is the one that is removed, if there is one. -/
theorem dropFront_eq_ite (s : Store) (h : Handle) {p : Control → Bool} (hp : p .none = false) :
    s.dropFront h p =
      if p ((s.signals h).headD .none) then s.dropFront h Control.isActive else s := by
  unfold dropFront signals firstChild?
  cases s.childList h with
  | nil => simp [hp]
  | cons f rest =>
    rw [List.map_cons, List.takeWhile_cons, List.head?_cons]
    dsimp only
    cases hactive : (s.signalOf f).isActive with
    | true => simp
    | false =>
      have hnone : s.signalOf f = .none := by simpa [Control.isActive] using hactive
      simp [hnone, hp]

/-- At most one child is removed. -/
theorem dropFront_cases (s : Store) (h : Handle) (p : Control → Bool) :
    s.dropFront h p = s ∨ ∃ f ∈ s.childList h, s.dropFront h p = s.remove f := by
  unfold dropFront
  split
  next f hf =>
    split
    next => exact Or.inr ⟨f, List.mem_of_head? hf, rfl⟩
    next => exact Or.inl rfl
  next => exact Or.inl rfl

/-- A live node has a name, which tells its signal. -/
theorem name_of_isAlive (hf : s.isAlive f = true) :
    ∃ name, s.name f = .ok name ∧ Control.ofName name = s.signalOf f := by
  obtain ⟨n, hn⟩ := isAlive_iff.1 hf
  exact ⟨n.name, by simp [Store.name, Store.node, hn, Except.map], by simp [signalOf, hn]⟩

theorem firstChild?_eq_some_iff {rest : List Handle} (hlist : s.childList h = f :: rest) :
    s.firstChild? h = some f := by rw [firstChild?, hlist, List.head?_cons]

/-- The signals in front begin with that of the first child, if it is one. -/
theorem signals_cons {rest : List Handle} (hlist : s.childList h = f :: rest) :
    s.signals h = if (s.signalOf f).isActive then
      s.signalOf f :: (rest.map s.signalOf).takeWhile Control.isActive else [] := by
  rw [signals, hlist, List.map_cons, List.takeWhile_cons]

theorem isActive_of_mem_signals {c : Control} (hc : c ∈ s.signals h) : c.isActive = true :=
  List.mem_takeWhile_imp hc

/-- There is a first signal exactly if there is a signal. -/
theorem headD_signals_eq_none_iff : (s.signals h).headD .none = .none ↔ s.signals h = [] := by
  cases hsignals : s.signals h with
  | nil => simp
  | cons c rest =>
    have hactive : c.isActive = true := isActive_of_mem_signals (s := s) (h := h) (by simp [hsignals])
    simpa using fun hc : c = .none => by simp [hc, Control.isActive] at hactive

-- ---------------------------------------------------------------------------
-- What is removed
-- ---------------------------------------------------------------------------

/-- With live children, a return is stripped by dropping it from the front. -/
theorem LiveChildren.stripReturn_eq (hlive : LiveChildren s) (h : Handle) :
    s.stripReturn h = .ok (s.dropFront h (· == .return)) := by
  unfold stripReturn dropFront
  cases hfirst : s.firstChild? h with
  | none => rfl
  | some f =>
    obtain ⟨name, hname, hc⟩ := name_of_isAlive (hlive.of_mem_childList (List.mem_of_head? hfirst))
    simp [hname, hc, bind, Except.bind]

/-- With live children, a signal is cleared at a root by dropping it from the front. -/
theorem LiveChildren.clearSignal_eq (hlive : LiveChildren s) (hroot : s.root? h = some h) :
    ∃ c, s.clearSignal h = .ok (c, s.dropFront h Control.isActive) := by
  unfold clearSignal dropFront frontOf?
  rw [hroot, Option.bind_some]
  cases hfirst : s.firstChild? h with
  | none => exact ⟨.none, rfl⟩
  | some f =>
    obtain ⟨name, hname, hc⟩ := name_of_isAlive (hlive.of_mem_childList (List.mem_of_head? hfirst))
    exact ⟨s.signalOf f, by simp [hname, hc, bind, Except.bind]⟩

/-- The signal that is pending at a root is the first of those in front. -/
theorem LiveChildren.pending_eq (hlive : LiveChildren s) (hroot : s.root? h = some h) :
    s.pending h = .ok ((s.signals h).headD .none) := by
  unfold pending frontOf?
  rw [hroot, Option.bind_some]
  cases hlist : s.childList h with
  | nil => simp [firstChild?, signals, hlist]
  | cons f rest =>
    obtain ⟨name, hname, hc⟩ := name_of_isAlive (hlive.of_mem_childList (s := s) (p := h) (c := f)
      (by simp [hlist]))
    rw [firstChild?_eq_some_iff hlist, signals_cons hlist]
    show (s.name f).map Control.ofName = _
    rw [hname, Except.map, hc]
    split
    next => rfl
    next hidle => simpa [Control.isActive] using hidle

-- ---------------------------------------------------------------------------
-- What is left
-- ---------------------------------------------------------------------------

namespace Disciplined

/-- A node that is freed is a child no more, and the children behind it have their names. -/
theorem childList_remove_first (hd : Disciplined s) {rest : List Handle}
    (hlist : s.childList h = f :: rest) :
    (s.remove f).childList h = rest ∧ ∀ y ∈ rest, (s.remove f).signalOf y = s.signalOf y := by
  have hmem : f ∈ s.childList h := by simp [hlist]
  have hfreed := hd.freedOnly_remove (hd.live.of_mem_childList hmem)
  have hholds : ∀ {y}, y ∈ s.childList h → s.Holds h y := fun hy => holds_iff_childList.2 (Or.inl hy)
  have hnot : ¬ s.Reaches f h := hd.not_reaches_holder (hholds hmem)
  obtain ⟨n, hn⟩ : ∃ n, s.node? h = some n := by
    cases hn : s.node? h with
    | none => simp [childList, hn] at hlist
    | some n => exact ⟨n, rfl⟩
  obtain ⟨hf, -⟩ := List.nodup_cons.1 (hlist ▸ hd.linked.nodup_childList h)
  rw [childList_eq hn] at hlist
  constructor
  · rw [childList, hfreed.left h hnot, hn]
    simp only [Option.map_some, Option.getD_some, hlist]
    rw [List.filter_cons_of_neg (by simp), filter_ne_of_not_mem hf]
  · intro y hy
    have hy' : y ∈ s.childList h := by rw [childList_eq hn, hlist]; exact List.mem_cons_of_mem _ hy
    -- siblings share nothing, so the others keep their signals
    have hreach : ¬ s.Reaches f y := fun hreach => by
      rcases hd.reaches_holder (hd.live.of_mem_childList hy') (hholds hy') hreach with heq | hback
      · exact hf (heq ▸ hy)
      · exact hnot hback
    rw [signalOf, signalOf, hfreed.left y hreach]
    cases s.node? y <;> rfl

/-- Without the signal in front, a node has the other children. -/
theorem childList_dropFront_isActive (hd : Disciplined s) (h : Handle) :
    (s.dropFront h Control.isActive).childList h = s.behindSignal h := by
  unfold dropFront behindSignal
  cases hlist : s.childList h with
  | nil => simp [firstChild?, hlist]
  | cons f rest =>
    simp only [firstChild?_eq_some_iff hlist]
    split
    next => exact (hd.childList_remove_first hlist).1
    next => exact hlist

/-- Without its first child, a node has the signals in front that stood behind it. -/
theorem signals_dropFront (hd : Disciplined s) (h : Handle) {p : Control → Bool}
    (hp : p .none = false) : (s.dropFront h p).signals h =
      match s.signals h with
      | [] => []
      | c :: rest => if p c then rest else c :: rest := by
  cases hlist : s.childList h with
  | nil =>
    have hsame : s.dropFront h p = s := by simp [dropFront, firstChild?, hlist]
    rw [hsame]
    simp [signals, hlist]
  | cons f rest =>
    rw [dropFront, firstChild?_eq_some_iff hlist]
    show (if p (s.signalOf f) = true then s.remove f else s).signals h = _
    rw [signals_cons hlist]
    cases hactive : (s.signalOf f).isActive with
    | true =>
      simp only [if_true]
      split
      next =>
        obtain ⟨hrest, hnames⟩ := hd.childList_remove_first hlist
        rw [signals, hrest, List.map_congr_left hnames]
      next => rw [signals_cons hlist, if_pos hactive]
    | false =>
      -- a node that stands for no signal is not removed
      have hnone : s.signalOf f = .none := by simpa [Control.isActive] using hactive
      rw [if_neg (by simp [hnone, hp]), signals_cons hlist, hactive]
      simp

/-- When the first signal has been dropped the others are left. -/
theorem signals_dropFront_isActive (hd : Disciplined s) (h : Handle) :
    (s.dropFront h Control.isActive).signals h = (s.signals h).tail := by
  rw [hd.signals_dropFront h rfl]
  cases hsignals : s.signals h with
  | nil => rfl
  | cons c rest =>
    exact if_pos (isActive_of_mem_signals (s := s) (h := h) (by simp [hsignals]))

end Disciplined

end TreeScript.Store
