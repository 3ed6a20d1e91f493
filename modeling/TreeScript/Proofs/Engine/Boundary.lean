import TreeScript.Proofs.Engine.Deliver
import TreeScript.Proofs.Engine.Program
import TreeScript.Proofs.Keyword.Around
import TreeScript.Proofs.Store.Front

/-!
# TreeScript — where signals end

A program ends with two steps against signals that are left at its root: a `_return` in front
is stripped, and then one signal is removed. So one sentinel in front is always removed, two
only if the first of them is a `_return`, and a third one stays.

A working copy ends with the removal of the one signal that has ended its loop. If there are
more sentinels among its new children, they are handed over like all other new children.

* `unclaimed` — the signals that are left when the two steps have been taken;
* `evaluate_pending_iff` — whether a signal is pending when a program has ended;
* `executeAll_pending` — a loop ends with the signal that is pending;
* `executeCopy_signal_iff` — which signals get out of a working copy.
-/

namespace TreeScript

open Store Engine

variable {σ τ : Session} {root : Handle}

/-- A registry of standard handlers, whatever names they have and however many share one. -/
def Registry.IsStandard (r : Registry) : Prop :=
  ∃ unknown handlers, r = ofList unknown handlers ∧
    ∀ x ∈ handlers, ∃ name, (name, x.2) ∈ Keyword.standard

theorem Registry.IsStandard.keeps {r : Registry} (hr : r.IsStandard) (b : Store)
    (settings : Settings) (fuel : Nat) : (r.scope settings fuel).Keeps Fence.wide b := by
  obtain ⟨unknown, handlers, rfl, hall⟩ := hr
  exact (keeps_of_mem_standard Fence.wide_sealed unknown hall).scope settings fuel

/-- Standard handlers keep the store in order while a root is executed, and it stays a root. -/
theorem Registry.IsStandard.executeAll_keeps {r : Registry} (hr : r.IsStandard) {settings : Settings}
    {fuel : Nat} {c : Control} (hd : Disciplined σ.nodes) (htop : σ.nodes.Top root)
    (hloop : executeAll (r.scope settings fuel) root σ = .ok c τ) (hu : Unwrapped τ.nodes) :
    Disciplined τ.nodes ∧ τ.nodes.Top root := by
  have hended := (ensures_executeAll (s := σ.nodes) (T := { x | σ.nodes.Top x })
    (hr.keeps σ.nodes settings fuel) root).ended σ (by rwa [after, hloop])
    ⟨hd.held, htop.1, Fence.inside_wide root⟩
  rw [hloop] at hended
  exact ⟨hended.disciplined, hended.since.top htop⟩

-- ---------------------------------------------------------------------------
-- The end of a program
-- ---------------------------------------------------------------------------

/-- What is left of the signals in front of a root when a `_return` in front has been stripped
and then one signal has been removed. -/
def unclaimed : List Control → List Control
  | .return :: rest => rest.tail
  | cs => cs.tail

/-- Nothing is left of the signals just if there is one at most, or a return with one other behind
it. -/
theorem unclaimed_eq_nil_iff (cs : List Control) :
    unclaimed cs = [] ↔ cs.length ≤ 1 ∨ ∃ c, cs = [.return, c] := by
  match cs with
  | [] => simp [unclaimed]
  | [c] => cases c <;> simp [unclaimed]
  | [c, d] => cases c <;> simp [unclaimed]
  | c :: d :: e :: rest => cases c <;> simp [unclaimed]

/-- A signal is pending when a program has ended, exactly if more sentinels stood in front of
its root at the end of its loop than the two last steps remove. What has been registered does
not matter, as long as the store is in order then and the root still a root. -/
theorem evaluate_pending_iff {scope : Scope} (hret : evaluate scope root σ = .ok () τ)
    (hu : ∀ i, τ.nodes.freedAt i < 2 ^ 32) :
    ∃ c σ₁, executeAll scope root { σ with depth := σ.depth + 1 } = .ok c σ₁ ∧
      (Disciplined σ₁.nodes → σ₁.nodes.Top root →
        τ.nodes.signals root = unclaimed (σ₁.nodes.signals root) ∧
        (τ.nodes.pending root = .ok .none ↔ (σ₁.nodes.signals root).length ≤ 1 ∨
          ∃ c, σ₁.nodes.signals root = [.return, c])) := by
  obtain ⟨⟨⟩, σ₃, hexec, hclear⟩ := bind_eq_ok hret
  obtain ⟨σ₂, hblock, rfl⟩ := nested_eq_ok hexec
  rw [if_pos rfl, Keyword.executeBlock_inPlace_eq] at hblock
  obtain ⟨⟨⟩, σ₀, hargs, hblock⟩ := bind_eq_ok hblock
  injection hargs with _ hσ₀
  subst hσ₀
  obtain ⟨c, σ₁, hloop, hstrip⟩ := bind_eq_ok hblock
  refine ⟨c, σ₁, hloop, fun hd htop => ?_⟩
  obtain ⟨s₂, hs₂, rfl⟩ := edit_eq_ok hstrip
  obtain ⟨c', σ₄, hclear, hend⟩ := bind_eq_ok hclear
  obtain ⟨s₃, hs₃, rfl⟩ := change_eq_ok hclear
  injection hend with _ hτ
  subst hτ
  -- the two steps one after the other; the root is a root throughout
  have hsince := Since.refl hd
  have hsince₂ := hsince.stripReturn hs₂ ((Evolves.clearSignal hs₃).unwrapped hu)
  have hsince₃ := hsince₂.clearSignal hs₃ hu
  have hd₂ := hsince₂.disciplined
  have hd₃ := hsince₃.disciplined
  have hroot₂ := Top.root? hd₂.linked (hsince₂.top htop)
  have hroot₃ := Top.root? hd₃.linked (hsince₃.top htop)
  obtain rfl : σ₁.nodes.dropFront root (· == .return) = s₂ :=
    Except.ok.inj ((hd.live.stripReturn_eq root).symm.trans hs₂)
  obtain ⟨c'', hcleared⟩ := hd₂.live.clearSignal_eq hroot₂
  obtain ⟨-, hdrop⟩ := Prod.mk.inj (Except.ok.inj (hcleared.symm.trans hs₃))
  subst hdrop
  have hleft : Store.signals (Store.dropFront (σ₁.nodes.dropFront root (· == .return)) root
      Control.isActive) root = unclaimed (σ₁.nodes.signals root) := by
    rw [hd₂.signals_dropFront_isActive, hd.signals_dropFront root rfl]
    match σ₁.nodes.signals root with
    | [] => rfl
    | c :: rest => cases c <;> rfl
  refine ⟨hleft, ?_⟩
  rw [hd₃.live.pending_eq hroot₃, ← unclaimed_eq_nil_iff, ← hleft, ← headD_signals_eq_none_iff]
  simp

/-- A keyword that is registered twice. -/
def twiceBroken : Registry :=
  .ofList .error [("break", Keyword.breakLoop), ("break", Keyword.breakLoop)]

/-- The registry with a keyword twice has standard handlers only. -/
theorem twiceBroken_isStandard : twiceBroken.IsStandard := by
  have hmem : ("break", Keyword.breakLoop) ∈ Keyword.standard := by simp [Keyword.standard]
  refine ⟨_, _, rfl, ?_⟩
  simp only [List.forall_mem_cons, List.not_mem_nil, false_imp_iff, implies_true, and_true]
  exact ⟨⟨_, hmem⟩, ⟨_, hmem⟩⟩

set_option maxRecDepth 100000 in
/-- A keyword that is registered twice leaves a signal at the root. -/
theorem evaluate_pending_iff_twice : ∃ τ c σ₁,
    evaluate (twiceBroken.scope {} 3) ⟨0, 0⟩ { nodes := Store.ofDocs [.plain "break" none []] } =
      .ok () τ ∧ τ.nodes.pending ⟨0, 0⟩ = .ok .break ∧
    executeAll (twiceBroken.scope {} 3) ⟨0, 0⟩
      { nodes := Store.ofDocs [.plain "break" none []], depth := 1 } = .ok c σ₁ ∧
    1 < (σ₁.nodes.signals ⟨0, 0⟩).length := by
  have hrun : Outcome.isOkWith
      (fun _ τ => τ.nodes.isUnwrapped && decide (τ.nodes.pending ⟨0, 0⟩ = .ok .break))
      (evaluate (twiceBroken.scope {} 3) ⟨0, 0⟩
        { nodes := Store.ofDocs [.plain "break" none []] }) = true := by cbv
  obtain ⟨⟨⟩, τ, hret, hτ⟩ := Outcome.of_isOkWith hrun
  rw [Bool.and_eq_true, decide_eq_true_eq] at hτ
  obtain ⟨hunwrapped, hpending⟩ := hτ
  obtain ⟨c, σ₁, hloop, hiff⟩ := evaluate_pending_iff hret (unwrapped_of_isUnwrapped hunwrapped)
  have hstart : Unwrapped (Store.ofDocs [.plain "break" none []]) :=
    unwrapped_of_isUnwrapped (by cbv)
  have hafter : Outcome.isOkWith (fun _ σ₁ => σ₁.nodes.isUnwrapped)
      (executeAll (twiceBroken.scope {} 3) ⟨0, 0⟩
        { nodes := Store.ofDocs [.plain "break" none []], depth := 1 }) = true := by cbv
  have hu : Unwrapped σ₁.nodes := unwrapped_of_isUnwrapped (by rwa [hloop] at hafter)
  obtain ⟨hd₁, htop₁⟩ := twiceBroken_isStandard.executeAll_keeps (disciplined_ofDocs hstart)
    (top_ofDocs hstart) hloop hu
  refine ⟨τ, c, σ₁, hret, hpending, hloop, ?_⟩
  -- with at most one sentinel nothing would be pending afterwards
  by_contra hfew
  have hnone := (hiff hd₁ htop₁).2.2 (Or.inl (Nat.le_of_not_lt hfew))
  rw [hpending] at hnone
  simp at hnone

-- ---------------------------------------------------------------------------
-- The end of a working copy
-- ---------------------------------------------------------------------------

variable {scope : Scope} {block copy destination : Handle} {args known : List Handle}
  {first : Bool} {c : Control}

/-- Where a loop has executed something, it ends with the signal that is pending then. -/
theorem loop_pending {marker current : Option Handle} {fuel : Nat}
    (h : loop scope block marker fuel current σ = .ok c τ) :
    (c = .none ∧ τ = σ) ∨ τ.nodes.pending block = .ok c := by
  induction fuel generalizing current σ with
  | zero =>
    cases current with
    | none =>
      injection h with hc hτ
      exact Or.inl ⟨hc.symm, hτ.symm⟩
    -- the loop never runs out of turns and returns
    | some x => exact absurd h throw_ne_ok
  | succ fuel ih =>
    cases current with
    | none =>
      injection h with hc hτ
      exact Or.inl ⟨hc.symm, hτ.symm⟩
    | some x =>
      rw [loop, nodes_bind_apply] at h
      obtain ⟨⟨⟩, σ₁, -, h⟩ := bind_eq_ok h
      rw [nodes_bind_apply] at h
      obtain ⟨c₁, σ₂, hlift, h⟩ := bind_eq_ok h
      obtain ⟨hpending, rfl⟩ := lift_eq_ok hlift
      split at h
      -- a signal is pending: the loop ends with it
      next =>
        injection h with hc hτ
        exact Or.inr (by rw [← hτ, ← hc, hpending])
      -- none is: either the last turn ends so as well, or a later one says what is pending
      next hidle =>
        obtain rfl : c₁ = .none := by simpa [Control.isActive] using hidle
        rcases ih h with ⟨rfl, rfl⟩ | hlast
        · exact Or.inr hpending
        · exact Or.inr hlast

/-- The loop over a block tells the signal that is pending, unless there was nothing to execute. -/
theorem executeAll_pending (h : executeAll scope block σ = .ok c τ) :
    (c = .none ∧ τ = σ) ∨ τ.nodes.pending block = .ok c := by
  rw [executeAll, nodes_bind_apply] at h
  obtain ⟨marker, σ₁, hlift, h⟩ := bind_eq_ok h
  obtain ⟨-, rfl⟩ := lift_eq_ok hlift
  obtain ⟨start, σ₂, hlift, h⟩ := bind_eq_ok h
  obtain ⟨-, rfl⟩ := lift_halt_eq_ok hlift
  cases start with
  | none =>
    injection h with hc hτ
    exact Or.inl ⟨hc.symm, hτ.symm⟩
  | some start => exact loop_pending h

/-- If the loop on a working copy has ended with the signal that is pending, what is done about
signals afterwards removes the first one in front, and no other. -/
theorem settle_eq_ok (hd : Disciplined σ.nodes) (htop : σ.nodes.Top copy)
    (hpending : σ.nodes.pending copy = .ok c) (h : settle copy c σ = .ok () τ) :
    τ = { σ with nodes := σ.nodes.dropFront copy Control.isActive } := by
  have hroot := Top.root? hd.linked htop
  have hfirst : c = (σ.nodes.signals copy).headD .none :=
    Except.ok.inj (hpending.symm.trans (hd.live.pending_eq hroot))
  obtain ⟨⟨⟩, σ', hedit, h⟩ := bind_eq_ok h
  obtain ⟨s, hstrip, rfl⟩ := edit_eq_ok hedit
  obtain rfl := Except.ok.inj ((hd.live.stripReturn_eq copy).symm.trans hstrip)
  -- which steps are taken depends on the signal that stands in front
  have hdrop : ∀ p : Control → Bool, p .none = false → σ.nodes.dropFront copy p =
      if p c then σ.nodes.dropFront copy Control.isActive else σ.nodes := fun p hp =>
    hfirst ▸ σ.nodes.dropFront_eq_ite copy hp
  rw [hdrop (· == .return) rfl] at h
  by_cases hreturn : c = .return
  · subst hreturn
    injection h with _ hτ
    exact hτ.symm
  rw [if_neg (show ¬ (c == Control.return) = true by simpa using hreturn)] at h
  by_cases hnone : c = .none
  · subst hnone
    rw [hdrop Control.isActive rfl]
    injection h with _ hτ
    exact hτ.symm
  · rw [if_pos ⟨hnone, hreturn⟩] at h
    obtain ⟨d, σ', hchange, h⟩ := bind_eq_ok h
    obtain ⟨s, hclear, rfl⟩ := change_eq_ok hchange
    injection h with _ hτ
    obtain ⟨d', hclear'⟩ := hd.live.clearSignal_eq hroot
    obtain ⟨-, rfl⟩ := Prod.mk.inj (Except.ok.inj (hclear'.symm.trans hclear))
    exact hτ.symm

/-- What a sentinel in front of a working copy is removed with is this sentinel alone. -/
theorem Store.Disciplined.mem_childList_dropFront {s : Store} {z : Handle} (hd : Disciplined s)
    (hz : z ∈ s.childList copy) (hactive : (s.signalOf z).isActive = true) :
    (z ∈ (s.dropFront copy Control.isActive).childList copy ↔ s.firstChild? copy ≠ some z) ∧
      ((s.dropFront copy Control.isActive).isAlive z = true ↔ s.firstChild? copy ≠ some z) := by
  cases hlist : s.childList copy with
  | nil => simp [hlist] at hz
  | cons f rest =>
    have hlive := hd.live.of_mem_childList hz
    have hmem : ∀ y ∈ f :: rest, s.Holds copy y := fun y hy =>
      holds_iff_childList.2 (Or.inl (by rwa [hlist]))
    have hfirst : some f ≠ some z ↔ z ≠ f := by simp [eq_comm]
    unfold dropFront
    simp only [firstChild?_eq_some_iff hlist]
    rw [hlist] at hz
    by_cases hf : (s.signalOf f).isActive = true
    -- the first child is a signal and is removed, with it nothing below another child
    · obtain ⟨hrest, -⟩ := hd.childList_remove_first hlist
      obtain ⟨hnot, -⟩ := List.nodup_cons.1 (hlist ▸ hd.linked.nodup_childList copy)
      rw [if_pos hf, hrest, hfirst, hd.isAlive_remove]
      refine ⟨⟨fun hz heq => hnot (heq ▸ hz), fun hne => (List.mem_cons.1 hz).resolve_left hne⟩,
        fun h heq => h.2 (heq ▸ .refl _ _), fun hne => ⟨hlive, fun hreach => ?_⟩⟩
      exact hd.siblings_share_nothing hne (hmem z hz) (hmem f (by simp)) hlive (.refl _ _) hreach
    -- the first child is no signal, so nothing is dropped
    · have hne : z ≠ f := fun heq => hf (heq ▸ hactive)
      rw [if_neg hf, hfirst, hlist]
      exact ⟨⟨fun _ => hne, fun _ => hz⟩, ⟨fun _ => hne, fun _ => hlive⟩⟩

theorem Store.Disciplined.isAlive_dropFront {s : Store} {x : Handle} {p : Control → Bool}
    (hd : Disciplined s)
    (hx : ∀ f ∈ s.childList copy, s.Reaches f x → s.isAlive x = true → False) :
    (s.dropFront copy p).isAlive x = s.isAlive x := by
  unfold dropFront
  cases hlist : s.childList copy with
  | nil => simp [firstChild?, hlist]
  | cons f rest =>
    simp only [firstChild?_eq_some_iff hlist]
    split
    next =>
      rw [Bool.eq_iff_iff, hd.isAlive_remove]
      exact ⟨And.left, fun hlive => ⟨hlive, fun hreach => hx f (by simp [hlist]) hreach hlive⟩⟩
    next => rfl

/-- When a block execution on a copy has given a result, a sentinel that was put among the
children of the copy meanwhile is alive exactly if it is not the first child at the end of the
loop and the destination is there: then it has been handed over. -/
theorem executeCopy_signal_iff {r : Registry} (hr : r.IsStandard) {settings : Settings}
    {fuel : Nat} (hd : Disciplined σ.nodes) (hdest : σ.nodes.isAlive destination = true)
    (hargs : ∀ a ∈ args, σ.nodes.isAlive a = true)
    (hret : executeCopy (r.scope settings fuel) block destination args first σ = .ok () τ)
    (hu : ∀ i, τ.nodes.freedAt i < 2 ^ 32) :
    ∃ copy s σ₀ c σ₁, σ.nodes.deepClone block = .ok (copy, s) ∧
      cloneInFront copy args { σ with nodes := s } = .ok () σ₀ ∧
      executeAll (r.scope settings fuel) copy σ₀ = .ok c σ₁ ∧
      ∀ z ∈ σ₁.nodes.childList copy, z ∉ σ₀.nodes.childList copy →
        (σ₁.nodes.signalOf z).isActive = true →
        (τ.nodes.isAlive z = true ↔
          σ₁.nodes.isAlive destination = true ∧ σ₁.nodes.firstChild? copy ≠ some z) ∧
        (τ.nodes.isAlive z = true → z ∈ τ.nodes.childList destination) := by
  obtain ⟨copy, s, σ₀, known, c, σ₁, σ₂, σ₃, hclone, hfront, hknown, hloop, hsettle, hdeliver,
    rfl⟩ := executeCopy_eq_ok hret
  refine ⟨copy, s, σ₀, c, σ₁, hclone, hfront, hloop, fun z hz hnew hactive => ?_⟩
  -- the stores on the way; whatever they are, all of them are in order
  have hwide : ∀ {t}, Disciplined t → Fenced Fence.wide σ.nodes t := fun ht =>
    ht.balanced.fenced_wide σ.nodes
  have hscope := hr.keeps σ.nodes settings fuel
  have hinside := Fence.inside_wide copy
  have hu₃ := (Evolves.remove σ₃.nodes copy).unwrapped hu
  have hsettled := ensures_settle (F := Fence.wide) (b := σ.nodes) (s := σ.nodes)
    (T := { x | σ.nodes.Top x } ∪ {copy}) (E := fun _ => True) Fence.wide_sealed copy c
  have hdelivered := ensures_deliver (F := Fence.wide) (b := σ.nodes) (s := σ.nodes)
    (T := { x | σ.nodes.Top x } ∪ {copy}) (K := fun _ => True) (E := fun _ => True) copy destination
    known first
  have hu₂ := (hdelivered.evolves_of_ok hdeliver).unwrapped hu₃
  have hu₁ := (hsettled.evolves_of_ok hsettle).unwrapped hu₂
  have hlooped := ensures_executeAll (s := σ.nodes) (T := { x | σ.nodes.Top x } ∪ {copy}) hscope copy
  have hu₀ := (hlooped.evolves_of_ok hloop).unwrapped hu₁
  have hfronted := ensures_cloneInFront (F := Fence.wide) (b := σ.nodes) (s := σ.nodes)
    (T := { x | σ.nodes.Top x } ∪ {copy}) (E := fun _ => True) copy (List.Subset.refl args)
  have hus : Unwrapped s := (hfronted.evolves_of_ok hfront).unwrapped hu₀
  have hsprout := hd.balanced.sprouted_deepClone hclone
  have hcloned := (Since.refl hd).deepClone hclone hus
  have hheld₀ := hfronted.gives hfront hu₀ ⟨⟨hinside.1, fun a _ => Or.inl (Fence.inside_wide a).1⟩,
    ⟨hcloned, hwide hcloned.disciplined⟩, hcloned.isAlive (Or.inr rfl),
    fun a ha => hsprout.isAlive (hargs a ha)⟩
  have hheld₁ := hlooped.gives hloop hu₁ ⟨hheld₀.1, hheld₀.2.1, hinside⟩
  have hheld₂ := hsettled.gives hsettle hu₂ ⟨hinside, hheld₁⟩
  have hdel : Delivers Fence.wide σ.nodes ({ x | σ.nodes.Top x } ∪ {copy}) copy destination :=
    ⟨Or.inr rfl, hinside, hsprout.fresh_root.1, hdest, (Fence.inside_wide destination).1⟩
  -- the loop has executed something, and so the first sentinel is removed
  have hpending : σ₁.nodes.pending copy = .ok c := by
    rcases executeAll_pending hloop with ⟨-, rfl⟩ | hpending
    · exact absurd hz hnew
    · exact hpending
  have hd₁ := hheld₁.disciplined
  have htop₁ := hheld₁.since.top hdel.top
  obtain rfl := settle_eq_ok hd₁ htop₁ hpending hsettle
  obtain ⟨hlisted, hlives⟩ := hd₁.mem_childList_dropFront hz hactive
  have hthere := hd₁.isAlive_dropFront (p := Control.isActive) (x := destination) fun f hf hreach hlive =>
    hdel.not_reaches hheld₁ hlive (.head (holds_iff_childList.2 (Or.inl hf)) hreach)
  by_cases hfirst : σ₁.nodes.firstChild? copy = some z
  · -- it has been removed, and nothing brings it back
    have hdead : (σ₁.nodes.dropFront copy Control.isActive).isAlive z = false :=
      Bool.eq_false_iff.2 fun hlive => hlives.1 hlive hfirst
    have hissued := (hsettled.evolves_of_ok hsettle).issued hu₂
      (Or.inr (hd₁.live.of_mem_childList hz))
    have hgone := ((hdelivered.evolves_of_ok hdeliver).trans (.remove _ copy)).not_isAlive hu hissued
      hdead
    simp [hgone, hfirst]
  · obtain ⟨halive, hmem⟩ := delivered_child hdel hheld₂ hdeliver hu (hlisted.2 hfirst) fun hmem =>
      hnew (by obtain ⟨n, hn, rfl⟩ := children_eq_ok.1 hknown; rwa [childList_eq hn])
    exact ⟨by rw [halive, hthere]; simp [hfirst], hmem⟩

/-- A block of its own that ends with a signal. -/
def broken : List Doc := [.plain "eval" none [.plain "break" none []]]

set_option maxRecDepth 100000 in
/-- A keyword that is registered twice delivers a signal to the destination. -/
theorem executeCopy_signal_iff_twice : ∃ τ,
    executeCopy (twiceBroken.scope {} 3) ⟨1, 0⟩ ⟨1, 0⟩ [] true { nodes := Store.ofDocs broken } =
      .ok () τ ∧
    (τ.nodes.isAlive ⟨5, 0⟩ = true ∧ ⟨5, 0⟩ ∈ τ.nodes.childList ⟨1, 0⟩) ∧
    τ.nodes.isAlive ⟨6, 0⟩ = false := by
  have hrun : Outcome.isOkWith (fun _ τ => τ.nodes.isUnwrapped)
      (executeCopy (twiceBroken.scope {} 3) ⟨1, 0⟩ ⟨1, 0⟩ [] true
        { nodes := Store.ofDocs broken }) = true := by cbv
  have hcloned : Outcome.isOkWith (fun copy σ₀ =>
      decide (copy = ⟨3, 0⟩ ∧ σ₀.nodes.childList ⟨3, 0⟩ = [⟨4, 0⟩]))
      (Engine.deepClone ⟨1, 0⟩ { nodes := Store.ofDocs broken }) = true := by cbv
  have hlooped : Outcome.isOkWith (fun _ σ₁ =>
      decide (σ₁.nodes.childList ⟨3, 0⟩ = [⟨6, 0⟩, ⟨5, 0⟩, ⟨4, 0⟩] ∧
        σ₁.nodes.signalOf ⟨5, 0⟩ = .break ∧ σ₁.nodes.signalOf ⟨6, 0⟩ = .break ∧
        σ₁.nodes.isAlive ⟨1, 0⟩ = true))
      ((Engine.deepClone ⟨1, 0⟩ >>= executeAll (twiceBroken.scope {} 3))
        { nodes := Store.ofDocs broken }) = true := by cbv
  obtain ⟨⟨⟩, τ, hret, hu⟩ := Outcome.of_isOkWith hrun
  have hstart : Unwrapped (Store.ofDocs broken) := unwrapped_of_isUnwrapped (by cbv)
  obtain ⟨copy, s, σ₀, c, σ₁, hclone, hfront, hloop, hsignals⟩ :=
    executeCopy_signal_iff twiceBroken_isStandard (disciplined_ofDocs hstart) (by cbv) (by simp)
      hret (unwrapped_of_isUnwrapped hu)
  -- the copy is the fourth node, with one child, and two sentinels come in front of that
  have hmade : Engine.deepClone ⟨1, 0⟩ { nodes := Store.ofDocs broken } = .ok copy σ₀ := by
    injection hfront with _ hσ₀
    rw [← hσ₀, Engine.deepClone, Engine.change, hclone]
  rw [hmade] at hcloned
  rw [bind_of_ok hmade, hloop] at hlooped
  obtain ⟨rfl, hbefore⟩ := of_decide_eq_true hcloned
  obtain ⟨hafter, hsecond, hfirst, hdest⟩ := of_decide_eq_true hlooped
  have hfront : σ₁.nodes.firstChild? ⟨3, 0⟩ = some ⟨6, 0⟩ := by rw [firstChild?, hafter]; rfl
  obtain ⟨halive, hmem⟩ := hsignals ⟨5, 0⟩ (by simp [hafter]) (by simp [hbefore]) (by rw [hsecond]; rfl)
  obtain ⟨hdead, -⟩ := hsignals ⟨6, 0⟩ (by simp [hafter]) (by simp [hbefore]) (by rw [hfirst]; rfl)
  have hlive := halive.2 ⟨hdest, by simp [hfront]⟩
  exact ⟨τ, hret, ⟨hlive, hmem hlive⟩,
    Bool.eq_false_iff.2 fun h => (hdead.1 h).2 hfront⟩

end TreeScript
