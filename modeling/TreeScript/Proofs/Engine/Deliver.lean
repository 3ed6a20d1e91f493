import TreeScript.Proofs.Engine.Block
import TreeScript.Proofs.Store.Handover

/-!
# TreeScript — what a working copy hands over

When a block has been executed on a copy, the new children of the copy are moved behind those
of the destination, or take their place, and the destination gets the value of the copy. The
trees that are moved stay as they are, and so do the old children that are not taken away; all
else that the copy or the old value held is freed.

* `Engine.insert_eq_ok`, `appendAll_eq_ok` — moving children;
* `Delivers.moveValue` — moving a value;
* `HandedOver`, `deliver_eq_ok` — all that is handed over;
* `HandedOver.freed` — what is freed to make place for it;
* `Delivered`, `HandedOver.delivered` — what is there when the copy has been freed.
-/

namespace TreeScript

open Store Engine

variable {F : Fence} {b s₀ s t u : Store} {T : Set Handle} {copy destination : Handle}
  {σ τ : Session} {cs : List Handle} {first : Bool}

-- ---------------------------------------------------------------------------
-- Moving children
-- ---------------------------------------------------------------------------

/-- An insertion that is made closes no circle and is the move. -/
theorem Engine.insert_eq_ok {p c : Handle} {i : Nat} (h : Engine.insert p i c σ = .ok () τ) :
    σ.nodes.wouldCycle p c = false ∧
      ∃ t, σ.nodes.moveBelow p i c = .ok t ∧ τ = { σ with nodes := t } := by
  rw [insert_eq, nodes_bind_apply] at h
  split at h
  next =>
    obtain ⟨s, σ₁, -, h⟩ := bind_eq_ok (x := Engine.nodes) h
    obtain ⟨_, σ₂, -, h⟩ := bind_eq_ok h
    obtain ⟨_, σ₃, -, h⟩ := bind_eq_ok h
    exact absurd h throw_ne_ok
  next hcycle => exact ⟨Bool.eq_false_iff.2 hcycle, edit_eq_ok h⟩

/-- An appending that is made is a move behind the last child. -/
theorem Engine.append_eq_ok {p c : Handle} (h : Engine.append p c σ = .ok () τ) :
    ∃ n, σ.nodes.node? p = some n ∧ σ.nodes.wouldCycle p c = false ∧
      ∃ t, σ.nodes.moveBelow p n.children.length c = .ok t ∧ τ = { σ with nodes := t } := by
  rw [append_eq, nodes_bind_apply] at h
  obtain ⟨count, σ₁, hlift, h⟩ := bind_eq_ok h
  obtain ⟨hcount, rfl⟩ := lift_eq_ok hlift
  cases hn : σ.nodes.node? p with
  | none => simp [childCount, Store.node, hn, Except.map] at hcount
  | some n =>
    obtain rfl : n.children.length = count := by
      simpa [childCount, Store.node, hn, Except.map] using hcount
    exact ⟨n, rfl, insert_eq_ok h⟩

/-- Children of one node are moved behind those of another one by one. -/
theorem appendAll_eq_ok (hne : copy ≠ destination) (hl : Linked σ.nodes)
    (hcs : ∀ c ∈ cs, σ.nodes.ChildOf c copy) (hnodup : cs.Nodup)
    (h : cs.forM (Engine.append destination) σ = .ok () τ) :
    ∃ t, τ = { σ with nodes := t } ∧ Moved copy destination cs σ.nodes t := by
  induction cs generalizing σ with
  | nil =>
    have hpure : (EStateM.Result.ok () σ : EStateM.Result Halt Session Unit) = .ok () τ := h
    injection hpure with _ hτ
    exact ⟨σ.nodes, hτ.symm, .nil hl⟩
  | cons c rest ih =>
    obtain ⟨hc, hrest⟩ := List.forall_mem_cons.1 hcs
    obtain ⟨hnot, hnodup⟩ := List.nodup_cons.1 hnodup
    obtain ⟨⟨⟩, σ₁, hone, h⟩ := bind_eq_ok (x := Engine.append destination c) h
    obtain ⟨n, hn, hcycle, t, hok, rfl⟩ := append_eq_ok hone
    have hmoved := hl.moved_last hne hc hn hcycle hok
    have hplaced : ∀ x ∈ rest, t.ChildOf x copy := fun x hx =>
      (hmoved.parents fun hmem => hnot (List.mem_singleton.1 hmem ▸ hx)).trans (hrest x hx)
    obtain ⟨u, rfl, hmore⟩ := ih (σ := { σ with nodes := t }) hmoved.linked hplaced hnodup h
    exact ⟨u, rfl, hmoved.cons hmore⟩

-- ---------------------------------------------------------------------------
-- Moving a value
-- ---------------------------------------------------------------------------

/-- The store when the value of the copy is at the destination, and what the destination owned
before is still there. -/
structure ValuePlaced (s : Store) (copy destination : Handle) (n c : Node) (w : Store) : Prop where
  target : w.node? destination = some { n with value := c.value }
  source : w.node? copy = some { c with value := none }
  others {x : Handle} : x ≠ copy → x ≠ destination → w.node? x = s.node? x

namespace ValuePlaced

variable {n c : Node} {w : Store} {old x : Handle}

/-- A way that touches neither of the two was there before. -/
theorem reaches (hw : ValuePlaced s copy destination n c w)
    (hfar : ∀ y, s.Reaches old y → ¬ (y = destination ∨ y = copy)) (hx : w.Reaches old x) :
    s.Reaches old x := by
  refine hx.transfer hfar ?_
  rintro y z hy ⟨k, hk, hz⟩
  rw [not_or] at hy
  exact ⟨k, by rwa [hw.others hy.2 hy.1] at hk, hz⟩

/-- What the destination owned is held by nobody any more. -/
theorem not_holds (hw : ValuePlaced s copy destination n c w) (hd : Disciplined s)
    (hne : copy ≠ destination) (hn : s.node? destination = some n) (hc : s.node? copy = some c)
    (hown : s.Owns destination old) (hnot : c.value.bind Value.owned? ≠ some old)
    (hlive : s.isAlive old = true) (a : Handle) : ¬ w.Holds a old := by
  rintro ⟨k, hk, hmem⟩
  by_cases had : a = destination
  · subst had
    rw [hw.target] at hk
    obtain rfl := Option.some.inj hk
    rcases hmem with hmem | hmem
    · exact hd.not_owns_of_mem_childList (by rwa [childList_eq hn]) hown
    · exact hnot hmem
  · by_cases hac : a = copy
    · subst hac
      rw [hw.source] at hk
      obtain rfl := Option.some.inj hk
      rcases hmem with hmem | hmem
      · exact hne (hd.unique hlive ⟨c, hc, Or.inl hmem⟩ hown.holds)
      · simp [Node.owned?] at hmem
    · rw [hw.others hac had] at hk
      exact had (hd.unique hlive ⟨k, hk, hmem⟩ hown.holds)

/-- All that it does not lead to stays when it is freed. -/
theorem node?_remove (hw : ValuePlaced s copy destination n c w) (hd : Disciplined s)
    (hdw : Disciplined w) (hne : copy ≠ destination) (hn : s.node? destination = some n)
    (hc : s.node? copy = some c) (hown : s.Owns destination old)
    (hnot : c.value.bind Value.owned? ≠ some old)
    (hfar : ∀ y, s.Reaches old y → ¬ (y = destination ∨ y = copy)) (hx : ¬ w.Reaches old x) :
    (w.remove old).node? x = w.node? x := by
  cases hlive : w.isAlive old with
  | false => simp [Store.remove, hlive]
  | true =>
    refine hdw.node?_remove_unheld (hw.not_holds hd hne hn hc hown hnot ?_) hx
    have hold := not_or.1 (hfar old (.refl _ _))
    rwa [Store.isAlive, hw.others hold.2 hold.1] at hlive

end ValuePlaced

/-- The value of a copy is moved to the destination, and what the destination owned before is
freed. -/
theorem Delivers.moveValue {v : Option Value} {n c : Node}
    (hdel : Delivers F s₀ T copy destination) (ht : Held F b s₀ T t)
    (hn : t.node? destination = some n) (hc : t.node? copy = some c)
    (htake : t.takeValue copy = .ok (v, s)) (hu : Unwrapped (s.assign destination v)) :
    (s.assign destination v).node? destination = some { n with value := c.value } ∧
    (s.assign destination v).node? copy = some { c with value := none } ∧
    (∀ x, x ≠ copy → x ≠ destination → (∀ old, t.Owns destination old → ¬ t.Reaches old x) →
      (s.assign destination v).node? x = t.node? x) ∧
    ∀ x, x ≠ copy → x ≠ destination → (s.assign destination v).isAlive x = true →
      (s.assign destination v).node? x = t.node? x := by
  have hd := ht.disciplined
  have hus := (Evolves.assign s destination v).unwrapped hu
  have halive : t.isAlive destination = true := isAlive_iff.2 ⟨n, hn⟩
  have hne := hdel.ne
  obtain ⟨hheld, hgive, -⟩ := hdel.givable ht halive htake hus
  obtain ⟨c', hc', rfl, rfl⟩ := takeValue_eq_ok htake
  obtain rfl := Option.some.inj (hc.symm.trans hc')
  -- the store when both values are in place
  have hwrite := write_eq_modify (x := destination) fun g hg =>
    hgive.parent?_eq_none hheld.since hg
  generalize hw : (t.modify copy fun n => { n with value := none }).write destination c.value = w
    at hwrite
  have hnode : ∀ x, w.node? x = if x = destination then some { n with value := c.value } else
      if x = copy then some { c with value := none } else t.node? x := by
    intro x
    rw [hwrite, node?_modify, node?_modify_of_ne _ hne.symm, hn, node?_modify, hc]
    rfl
  have hplaced : ValuePlaced t copy destination n c w :=
    ⟨by simp [hnode], by simp [hnode, hne], fun hx hx' => by rw [hnode, if_neg hx', if_neg hx]⟩
  rcases assign_cases (t.modify copy fun n => { n with value := none }) destination c.value with
    ⟨heq, -⟩ | ⟨old, hown, hnot, heq⟩
  · rw [heq, hw]
    exact ⟨hplaced.target, hplaced.source, fun x hx hx' _ => hplaced.others hx hx',
      fun x hx hx' _ => hplaced.others hx hx'⟩
  · rw [heq, hw] at hu ⊢
    have hdw : Disciplined w := by
      rw [← hw]
      exact (hheld.since.write (by rwa [isAlive_modify]) hgive
        (by rw [hw]; exact (Evolves.remove w old).unwrapped hu)).disciplined
    have hown : t.Owns destination old := by
      rw [node?_modify_of_ne _ hne.symm] at hown
      exact hown
    have hfar := hdel.far_of_holds ht hown.holds
    have hback : ∀ {x}, w.Reaches old x → t.Reaches old x := fun hx => hplaced.reaches hfar hx
    have hleft : ∀ {x}, ¬ w.Reaches old x → (w.remove old).node? x = w.node? x := fun hx =>
      hplaced.node?_remove hd hdw hne hn hc hown hnot hfar hx
    refine ⟨?_, ?_, fun x hx hx' hfree => ?_, fun x hx hx' hlive => ?_⟩
    · rw [hleft fun hreach => hfar _ (hback hreach) (Or.inl rfl), hplaced.target]
    · rw [hleft fun hreach => hfar _ (hback hreach) (Or.inr rfl), hplaced.source]
    · rw [hleft fun hreach => hfree old hown (hback hreach), hplaced.others hx hx']
    · rw [hleft ((hdw.isAlive_remove old x).1 hlive).2, hplaced.others hx hx']

-- ---------------------------------------------------------------------------
-- Handing over
-- ---------------------------------------------------------------------------

/-- A working copy has handed over some of its children and its value. -/
structure HandedOver (s : Store) (copy destination : Handle) (cs : List Handle) (first : Bool)
    (u : Store) : Prop where
  target {n c : Node} : s.node? destination = some n → s.node? copy = some c →
    u.node? destination =
      some { n with value := c.value, children := (if first then [] else n.children) ++ cs }
  source {c : Node} : s.node? copy = some c → u.node? copy =
    some { c with value := none, children := c.children.filter fun x => !cs.contains x }
  kept {x : Handle} : x ≠ copy → x ≠ destination →
    (first = true → ∀ k ∈ s.childList destination, ¬ s.Reaches k x) →
    (∀ old, s.Owns destination old → ¬ s.Reaches old x) → u.seen x = s.seen x
  left {x : Handle} : x ≠ copy → x ≠ destination → u.isAlive x = true → u.seen x = s.seen x

/-- The store when the destination is ready to take what it gets. -/
structure Cleared (s : Store) (copy destination : Handle) (first : Bool) (t : Store) : Prop where
  target {n : Node} : s.node? destination = some n →
    t.node? destination = some { n with children := if first then [] else n.children }
  kept {x : Handle} : x ≠ destination →
    (first = true → ∀ k ∈ s.childList destination, ¬ s.Reaches k x) → t.node? x = s.node? x
  left {x : Handle} : x ≠ destination → t.isAlive x = true → t.node? x = s.node? x

/-- A destination that is cleared loses what its children lead to, and keeps its value. -/
theorem Store.Disciplined.cleared (hd : Disciplined s) (hok : s.clear destination = .ok t) :
    Cleared s copy destination true t where
  target {n} hn := (hd.node?_clear_iff hok _ _).2 ⟨by simp [hn], fun c hc =>
    hd.not_reaches_holder (holds_iff_childList.2 (Or.inl hc))⟩
  kept {x} hx hfar := by
    cases hn : s.node? x with
    | none =>
      refine Option.eq_none_iff_forall_ne_some.2 fun m hm => ?_
      simpa [node?_modify_of_ne _ hx, hn] using ((hd.node?_clear_iff hok x m).1 hm).1
    | some n =>
      exact (hd.node?_clear_iff hok x n).2 ⟨by rw [node?_modify_of_ne _ hx, hn], hfar rfl⟩
  left {x} hx halive := by
    obtain ⟨m, hm⟩ := isAlive_iff.1 halive
    have hold := ((hd.node?_clear_iff hok x m).1 hm).1
    rw [node?_modify_of_ne _ hx] at hold
    rw [hm, hold]

/-- What is handed over when the destination is ready is handed over altogether. -/
theorem Cleared.handedOver (hcleared : Cleared s copy destination first t)
    (hdel : Delivers F s₀ T copy destination) (hs : Held F b s₀ T s)
    (halive : s.isAlive destination = true) (h : HandedOver t copy destination cs false u) :
    HandedOver s copy destination cs first u := by
  obtain ⟨n, hn⟩ := isAlive_iff.1 halive
  have hcopy : t.node? copy = s.node? copy := hcleared.kept hdel.ne fun _ k hk =>
    hdel.not_reaches_copy hs (holds_iff_childList.2 (Or.inl hk))
  refine ⟨fun {n' c} hn' hc => ?_, fun {c} hc => h.source (hcopy.trans hc),
    fun {x} hx hx' hfar hold => ?_, fun {x} hx hx' hlive => ?_⟩
  · exact h.target (hcleared.target hn') (hcopy.trans hc)
  · rw [h.kept hx hx' (by simp) fun old hown hreach => ?_,
      seen_eq_of_node?_eq (hcleared.kept hx' hfar)]
    -- what the old value leads to now, it led to before
    have hown : s.Owns destination old := by
      obtain ⟨k, hk, howned⟩ := owns_iff.1 hown
      obtain rfl := Option.some.inj ((hcleared.target hn).symm.trans hk)
      exact owns_iff.2 ⟨n, hn, howned⟩
    refine hold old hown (hreach.transfer (P := fun y => y = destination) ?_ ?_)
    · rintro y hway rfl
      exact hs.disciplined.not_reaches_holder hown.holds hway
    · intro y z hy hyz
      rwa [holds_of_seen_eq (seen_eq_of_node?_eq (hcleared.left hy hyz.isAlive))] at hyz
  · have hseen := h.left hx hx' hlive
    rw [isAlive_of_seen_eq hseen] at hlive
    rw [hseen, seen_eq_of_node?_eq (hcleared.left hx' hlive)]

/-- A destination that is there is made ready first. -/
theorem Delivers.deliver_eq_ok_cleared {known : List Handle}
    (hdel : Delivers F s₀ T copy destination) (hheld : Held F b s₀ T σ.nodes)
    (halive : σ.nodes.isAlive destination = true)
    (h : deliver copy destination known first σ = .ok () τ) :
    ∃ t, handOver copy destination known { σ with nodes := t } = .ok () τ ∧
      Cleared σ.nodes copy destination first t ∧ (Unwrapped t → Held F b s₀ T t) := by
  rw [deliver_eq, bind_of_ok (isAlive_apply destination σ), halive, if_pos rfl] at h
  cases hfirst : first with
  | true =>
    rw [hfirst, if_pos rfl] at h
    obtain ⟨⟨⟩, σ₂, hedit, h⟩ := bind_eq_ok h
    obtain ⟨t, hok, rfl⟩ := edit_eq_ok hedit
    exact ⟨t, h, hheld.disciplined.cleared hok, fun hut =>
      ⟨hheld.since.clear hok hut, hheld.fenced.clear hdel.isOpen hok⟩⟩
  | false =>
    rw [hfirst, if_neg (by simp)] at h
    exact ⟨σ.nodes, h, ⟨fun hk => by simpa using hk, fun _ _ => rfl, fun _ _ => rfl⟩,
      fun _ => hheld⟩

/-- The new children come behind those that the destination has, and the value in place of its
own. -/
theorem Delivers.handOver_eq_ok {known : List Handle} {c : Node}
    (hdel : Delivers F s₀ T copy destination) (hheld : Held F b s₀ T σ.nodes)
    (halive : σ.nodes.isAlive destination = true) (hc : σ.nodes.node? copy = some c)
    (h : handOver copy destination known σ = .ok () τ) (hu : Unwrapped τ.nodes) :
    ∃ u, τ = { σ with nodes := u } ∧ HandedOver σ.nodes copy destination
      (c.children.filter fun x => !known.contains x) false u := by
  obtain ⟨n, hn⟩ := isAlive_iff.1 halive
  rw [handOver, nodes_bind_apply] at h
  obtain ⟨below, σ₂, hlift, h⟩ := bind_eq_ok h
  obtain ⟨hbelow, rfl⟩ := lift_eq_ok hlift
  obtain ⟨⟨⟩, σ₃, happend, h⟩ := bind_eq_ok h
  obtain rfl : c.children = below := by
    obtain ⟨c', hc', heq⟩ := children_eq_ok.1 hbelow
    rw [← heq, Option.some.inj (hc.symm.trans hc')]
  -- the children
  have hchildren : ∀ x ∈ c.children.filter fun x => !known.contains x,
      σ.nodes.ChildOf x copy := fun x hx =>
    hheld.disciplined.childOf_of_mem (by rw [childList_eq hc]; exact List.mem_of_mem_filter hx)
  have hnodup : (c.children.filter fun x => !known.contains x).Nodup :=
    (hheld.disciplined.linked.nodup hc).filter _
  have hall := ensures_appendResults (F := F) (b := b) (s := s₀) (T := T) (K := fun _ => True)
    copy destination (c.children.filter fun x => !known.contains x) (E := fun _ => True)
  obtain ⟨t, rfl, hmoved⟩ := appendAll_eq_ok hdel.ne hheld.disciplined.linked hchildren hnodup
    happend
  -- the value
  obtain ⟨v, σ₄, htaken, h⟩ := bind_eq_ok h
  obtain ⟨t', htake, rfl⟩ := change_eq_ok htaken
  obtain ⟨u, hset, rfl⟩ := edit_eq_ok h
  obtain ⟨-, rfl⟩ := setValue_eq_ok hset
  have hut : Unwrapped t := by
    obtain ⟨-, -, -, rfl⟩ := takeValue_eq_ok htake
    exact ((Evolves.modify _ _ _).trans (.assign _ _ _)).unwrapped hu
  have hmoving := hall.gives happend hut ⟨⟨hdel, hnodup⟩, ⟨hheld, halive,
    fun _ _ => Or.inl trivial⟩, hchildren⟩
  obtain ⟨htarget, hsource, hkept, hleft⟩ := hdel.moveValue hmoving.held (hmoved.filled hn)
    (hmoved.emptied hc) htake hu
  refine ⟨_, rfl, fun {n' c'} hn' hc' => ?_, fun {c'} hc' => ?_, fun {x} hx hx' _ hold => ?_,
    fun {x} hx hx' hlive => ?_⟩
  · obtain rfl := Option.some.inj (hn.symm.trans hn')
    obtain rfl := Option.some.inj (hc.symm.trans hc')
    exact htarget
  · obtain rfl := Option.some.inj (hc.symm.trans hc')
    exact hsource
  · rw [seen_eq_of_node?_eq (hkept x hx hx' fun old hown hreach => ?_), hmoved.others hx hx']
    -- what the old value leads to now, it led to before
    have hown : σ.nodes.Owns destination old := by
      obtain ⟨k, hk, howned⟩ := owns_iff.1 hown
      obtain rfl := Option.some.inj ((hmoved.filled hn).symm.trans hk)
      exact owns_iff.2 ⟨n, hn, howned⟩
    refine hold old hown (hreach.transfer (hdel.far_of_holds hheld hown.holds) fun y z hy hyz => ?_)
    rw [not_or] at hy
    rwa [holds_of_seen_eq (hmoved.others hy.2 hy.1)] at hyz
  · have hseen := seen_eq_of_node?_eq (hleft x hx hx' hlive)
    rw [hseen, hmoved.others hx hx']

/-- Handing over, to a destination that is there. -/
theorem deliver_eq_ok {known : List Handle} {c : Node} (hdel : Delivers F s₀ T copy destination)
    (hheld : Held F b s₀ T σ.nodes) (halive : σ.nodes.isAlive destination = true)
    (hc : σ.nodes.node? copy = some c)
    (h : deliver copy destination known first σ = .ok () τ) (hu : Unwrapped τ.nodes) :
    ∃ u, τ = { σ with nodes := u } ∧ HandedOver σ.nodes copy destination
      (c.children.filter fun x => !known.contains x) first u := by
  obtain ⟨t, hover, hcleared, ht⟩ := hdel.deliver_eq_ok_cleared hheld halive h
  have hevolves := (ensures_handOver (F := F) (b := b) (s := s₀) (T := T) (K := fun _ => True)
    copy destination known (E := fun _ => True)).evolves_of_ok hover
  obtain ⟨n, hn⟩ := isAlive_iff.1 halive
  have hc' : t.node? copy = some c := by
    rw [hcleared.kept hdel.ne fun _ k hk =>
      hdel.not_reaches_copy hheld (holds_iff_childList.2 (Or.inl hk)), hc]
  obtain ⟨u, rfl, hgiven⟩ := hdel.handOver_eq_ok (ht (hevolves.unwrapped hu))
    (isAlive_iff.2 ⟨_, hcleared.target hn⟩) hc' hover hu
  exact ⟨u, rfl, hcleared.handedOver hdel hheld halive hgiven⟩

/-- Nothing is handed over to a destination that is gone. -/
theorem deliver_of_not_isAlive {known : List Handle}
    (hdead : σ.nodes.isAlive destination = false) :
    deliver copy destination known first σ = .ok () σ := by
  rw [deliver_eq, bind_of_ok (isAlive_apply destination σ), hdead]
  rfl

/-- What has been handed over is there when the copy has been freed. -/
structure Delivered (s : Store) (copy destination : Handle) (cs : List Handle) (first : Bool)
    (u : Store) : Prop where
  target {n c : Node} : s.node? destination = some n → s.node? copy = some c →
    u.node? destination =
      some { n with value := c.value, children := (if first then [] else n.children) ++ cs }
  given {x r : Handle} : r ∈ cs ∨ s.Owns copy r → s.Reaches r x → s.isAlive x = true →
    u.seen x = s.seen x
  old {x k : Handle} : first = false → k ∈ s.childList destination → s.Reaches k x →
    s.isAlive x = true → u.seen x = s.seen x

namespace HandedOver

/-- What a copy leads to when it has handed over are children that it keeps, and what they led to
before. -/
theorem reaches_copy (h : HandedOver s copy destination cs first u)
    (hdel : Delivers F s₀ T copy destination) (hs : Held F b s₀ T s)
    (halive : s.isAlive destination = true) {x : Handle} (hreach : u.Reaches copy x)
    (hx : x ≠ copy) : ∃ k ∈ s.childList copy, k ∉ cs ∧ s.Reaches k x := by
  obtain ⟨c, hc⟩ := isAlive_iff.1 (hs.isAlive hdel.top)
  rcases Relation.ReflTransGen.cases_head hreach with rfl | ⟨k, ⟨c', hc', hk⟩, hreach⟩
  · exact absurd rfl hx
  · rw [h.source hc] at hc'
    obtain rfl := Option.some.inj hc'
    rcases hk with hk | hk
    · obtain ⟨hk, hkept⟩ := List.mem_filter.1 hk
      have hholds : s.Holds copy k := ⟨c, hc, Or.inl hk⟩
      refine ⟨k, by rwa [childList_eq hc], by simpa using hkept, ?_⟩
      refine Reaches.transfer (P := fun y => y = destination ∨ y = copy) ?_ ?_ hreach
      · rintro y hway (rfl | rfl)
        · exact hdel.not_reaches hs halive (.head hholds hway)
        · exact hdel.not_reaches_copy hs hholds hway
      · intro y z hy hyz
        rw [not_or] at hy
        rwa [holds_of_seen_eq (h.left hy.2 hy.1 hyz.isAlive)] at hyz
    · simp [Node.owned?] at hk

/-- What the copy does not keep stays when the copy is freed. -/
theorem node?_remove (h : HandedOver s copy destination cs first u)
    (hdel : Delivers F s₀ T copy destination) (hs : Held F b s₀ T s) (hu : Held F b s₀ T u)
    (halive : s.isAlive destination = true) {x : Handle} (hx : x ≠ copy)
    (hfar : ∀ k ∈ s.childList copy, k ∉ cs → ¬ s.Reaches k x) :
    (u.remove copy).node? x = u.node? x := by
  refine hu.disciplined.node?_remove_unheld (hu.since.top hdel.top).2 fun hreach => ?_
  obtain ⟨k, hk, hkeep, hkx⟩ := h.reaches_copy hdel hs halive hreach hx
  exact hfar k hk hkeep hkx

/-- What has been moved to the destination is there as it was. -/
theorem delivered_given (h : HandedOver s copy destination cs first u)
    (hdel : Delivers F s₀ T copy destination) (hs : Held F b s₀ T s) (hu : Held F b s₀ T u)
    (halive : s.isAlive destination = true) (hcs : ∀ c ∈ cs, c ∈ s.childList copy) {x r : Handle}
    (hr : r ∈ cs ∨ s.Owns copy r) (hreach : s.Reaches r x) (hx : s.isAlive x = true) :
    (u.remove copy).seen x = s.seen x := by
  have hd := hs.disciplined
  have hholds : s.Holds copy r :=
    hr.elim (fun hr => holds_iff_childList.2 (Or.inl (hcs _ hr))) Owns.holds
  have hnot : ¬ s.Reaches r copy := hdel.not_reaches_copy hs hholds
  have hdest : ¬ s.Reaches r destination := fun hway =>
    hdel.not_reaches hs halive (.head hholds hway)
  have hxc : x ≠ copy := fun heq => hnot (heq ▸ hreach)
  have hxd : x ≠ destination := fun heq => hdest (heq ▸ hreach)
  -- nothing below the copy is below the destination
  have hapart : ∀ {k}, s.Holds destination k → ¬ s.Reaches k x := fun {k} hk hkx => by
    have hkr : k ≠ r := by
      rintro rfl
      exact hdel.ne (hd.unique (hreach.isAlive hx) hholds hk)
    exact hd.nothing_shared hkr hk hholds (hdel.not_reaches_copy hs hk) hdest hx hkx hreach
  have hseen := h.kept hxc hxd (fun _ k hk => hapart (holds_iff_childList.2 (Or.inl hk)))
    fun old hown => hapart hown.holds
  rw [seen_eq_of_node?_eq (h.node?_remove hdel hs hu halive hxc fun k hk hkeep hkx => ?_), hseen]
  have hkr : k ≠ r := by
    rintro rfl
    exact hr.elim hkeep (hd.not_owns_of_mem_childList hk)
  exact hd.siblings_share_nothing hkr (holds_iff_childList.2 (Or.inl hk)) hholds hx hkx hreach

/-- The old children of the destination are there as they were, unless they had to make place. -/
theorem delivered_old (h : HandedOver s copy destination cs false u)
    (hdel : Delivers F s₀ T copy destination) (hs : Held F b s₀ T s) (hu : Held F b s₀ T u)
    (halive : s.isAlive destination = true) {x k : Handle} (hk : k ∈ s.childList destination)
    (hreach : s.Reaches k x) (hx : s.isAlive x = true) :
    (u.remove copy).seen x = s.seen x := by
  have hd := hs.disciplined
  have hholds : s.Holds destination k := holds_iff_childList.2 (Or.inl hk)
  have hnot : ¬ s.Reaches k copy := hdel.not_reaches_copy hs hholds
  have hxc : x ≠ copy := fun heq => hnot (heq ▸ hreach)
  have hxd : x ≠ destination := fun heq => hd.not_reaches_holder hholds (heq ▸ hreach)
  have hseen := h.kept hxc hxd (by simp) fun old hown hold => by
    have hkold : k ≠ old := fun heq => hd.not_owns_of_mem_childList hk (heq ▸ hown)
    exact hd.siblings_share_nothing hkold hholds hown.holds hx hreach hold
  rw [seen_eq_of_node?_eq (h.node?_remove hdel hs hu halive hxc fun k' hk' _ hkx => ?_), hseen]
  have hholds' : s.Holds copy k' := holds_iff_childList.2 (Or.inl hk')
  have hkk : k' ≠ k := by
    rintro rfl
    exact hdel.ne (hd.unique (hs.live.of_mem_childList hk') hholds' hholds)
  have hdest' : ¬ s.Reaches k' destination := fun hway =>
    hdel.not_reaches hs halive (.head hholds' hway)
  exact hd.nothing_shared hkk hholds' hholds hdest' hnot hx hkx hreach

/-- Freeing a copy that has handed over takes nothing away from the destination. -/
theorem delivered (h : HandedOver s copy destination cs first u)
    (hdel : Delivers F s₀ T copy destination) (hs : Held F b s₀ T s) (hu : Held F b s₀ T u)
    (halive : s.isAlive destination = true) (hcs : ∀ c ∈ cs, c ∈ s.childList copy) :
    Delivered s copy destination cs first (u.remove copy) := by
  refine ⟨fun {n c} hn hc => ?_, fun hr hreach hx =>
    h.delivered_given hdel hs hu halive hcs hr hreach hx, fun hfirst hk hreach hx => ?_⟩
  · rw [h.node?_remove hdel hs hu halive hdel.ne.symm fun k hk _ hkx => ?_, h.target hn hc]
    exact hdel.not_reaches hs halive (.head (holds_iff_childList.2 (Or.inl hk)) hkx)
  · subst hfirst
    exact h.delivered_old hdel hs hu halive hk hreach hx

/-- Whoever holds a node now that was held before, but not by the copy, has held it before. Of
the destination it is an old child. -/
theorem holder_eq (h : HandedOver s copy destination cs first u)
    (hdel : Delivers F s₀ T copy destination) (hs : Held F b s₀ T s)
    (halive : s.isAlive destination = true) (hcs : ∀ c ∈ cs, c ∈ s.childList copy)
    {a y z : Handle} (hy : s.isAlive y = true) (ha : s.Holds a y) (hac : a ≠ copy)
    (hz : u.Holds z y) :
    z = a ∧ (z = destination → first = false ∧ y ∈ s.childList destination) := by
  have hd := hs.disciplined
  obtain ⟨n, hn⟩ := isAlive_iff.1 halive
  obtain ⟨c, hc⟩ := isAlive_iff.1 (hs.isAlive hdel.top)
  -- a node has one holder only, so the copy does not hold `y`
  have hnot : ¬ s.Holds copy y := fun hold => hac (hd.unique hy ha hold)
  by_cases hzc : z = copy
  -- the copy holds less than before
  · subst hzc
    obtain ⟨m, hm, hmem⟩ := hz
    rw [h.source hc] at hm
    obtain rfl := Option.some.inj hm
    rcases hmem with hmem | hmem
    · exact absurd ⟨c, hc, Or.inl (List.mem_of_mem_filter hmem)⟩ hnot
    · simp [Node.owned?] at hmem
  · by_cases hzd : z = destination
    -- the destination holds what it held, if it was kept, and what the copy gave away
    · subst hzd
      obtain ⟨m, hm, hmem⟩ := hz
      rw [h.target hn hc] at hm
      obtain rfl := Option.some.inj hm
      rcases hmem with hmem | hmem
      · rcases List.mem_append.1 hmem with hmem | hmem
        · cases first with
          | true => simp at hmem
          | false =>
            exact ⟨hd.unique hy ⟨n, hn, Or.inl hmem⟩ ha, fun _ =>
              ⟨rfl, by rwa [childList_eq hn]⟩⟩
        · exact absurd (holds_iff_childList.2 (Or.inl (hcs _ hmem))) hnot
      · exact absurd ⟨c, hc, Or.inr hmem⟩ hnot
    -- every other node holds what it did
    · rw [holds_of_seen_eq (h.left hzc hzd hz.isAlive)] at hz
      exact ⟨hd.unique hy hz ha, fun heq => absurd heq hzd⟩

/-- What the destination held before and does not hold any more is freed with all that it led to. -/
theorem freed (h : HandedOver s copy destination cs first u)
    (hdel : Delivers F s₀ T copy destination) (hs : Held F b s₀ T s) (hu : Held F b s₀ T u)
    (halive : s.isAlive destination = true) (hcs : ∀ c ∈ cs, c ∈ s.childList copy) {k x : Handle}
    (hk : (first = true ∧ k ∈ s.childList destination) ∨ s.Owns destination k)
    (hx : s.isAlive x = true) (hreach : s.Reaches k x) : u.isAlive x = false := by
  have hd := hs.disciplined
  have hholds : s.Holds destination k := hk.elim (fun hk => holds_iff_childList.2 (Or.inl hk.2))
    Owns.holds
  have hheld : ∀ {a y}, s.Holds a y → u.isAlive y = true → ∃ z, u.Holds z y := by
    intro a y ha hy
    by_contra hnone
    have htop : u.Top y := ⟨hy, fun z hz => hnone ⟨z, hz⟩⟩
    exact hs.since.not_mem_of_holds ha ((hu.since.tops y).1 htop)
  -- by induction on the way: who is freed does not hold the next one any more
  induction hreach with
  | refl =>
    refine Bool.eq_false_iff.2 fun hlive => ?_
    obtain ⟨z, hz⟩ := hheld hholds hlive
    obtain ⟨hzd, hzk⟩ := h.holder_eq hdel hs halive hcs hx hholds hdel.ne.symm hz
    obtain ⟨hfirst, hmem⟩ := hzk hzd
    rcases hk with ⟨hyes, -⟩ | hown
    · simp [hfirst] at hyes
    · exact hd.not_owns_of_mem_childList hmem hown
  | @tail y x hway hstep ih =>
    have hdead := ih hstep.isAlive
    have hyc : y ≠ copy := fun heq => hdel.not_reaches_copy hs hholds (heq ▸ hway)
    refine Bool.eq_false_iff.2 fun hlive => ?_
    obtain ⟨z, hz⟩ := hheld hstep hlive
    obtain ⟨rfl, -⟩ := h.holder_eq hdel hs halive hcs hx hstep hyc hz
    simp [hz.isAlive] at hdead

end HandedOver

/-- A new child of a copy is a child of the destination when the copy has been freed, unless
the destination was gone: then it is freed with the copy. -/
theorem delivered_child {known : List Handle} (hdel : Delivers F s₀ T copy destination)
    (hheld : Held F b s₀ T σ.nodes)
    (h : deliver copy destination known first σ = .ok () τ) (hu : Unwrapped (τ.nodes.remove copy))
    {z : Handle} (hz : z ∈ σ.nodes.childList copy) (hnew : z ∉ known) :
    ((τ.nodes.remove copy).isAlive z = true ↔ σ.nodes.isAlive destination = true) ∧
      ((τ.nodes.remove copy).isAlive z = true →
        z ∈ (τ.nodes.remove copy).childList destination) := by
  cases hdest : σ.nodes.isAlive destination with
  | false =>
    have hsame : deliver copy destination known first σ = .ok () σ := deliver_of_not_isAlive hdest
    injection hsame.symm.trans h with _ hτ
    subst hτ
    -- nobody takes the child, so it is freed with the copy
    have hdead : (σ.nodes.remove copy).isAlive z = false := by
      refine Bool.eq_false_iff.2 fun hlive => ?_
      exact ((hheld.disciplined.isAlive_remove copy z).1 hlive).2
        (.single (holds_iff_childList.2 (Or.inl hz)))
    simp [hdead]
  | true =>
    obtain ⟨n, hn⟩ := isAlive_iff.1 hdest
    obtain ⟨c, hc⟩ := isAlive_iff.1 (hheld.isAlive hdel.top)
    have hu' := (Evolves.remove τ.nodes copy).unwrapped hu
    have hend := (ensures_deliver (F := F) (b := b) (s := s₀) (T := T) (K := fun _ => True)
      (E := fun _ => True) copy destination known first).gives h hu'
      ⟨hdel, hheld, fun _ _ => trivial⟩
    obtain ⟨u, rfl, hover⟩ := deliver_eq_ok hdel hheld hdest hc h hu'
    -- the destination lists the children of the copy that are not known
    have hgiven := (hover.delivered hdel hheld hend.1 hdest fun x hx => by
      rw [childList_eq hc]; exact List.mem_of_mem_filter hx).target hn hc
    have hmem : z ∈ (u.remove copy).childList destination := by
      rw [childList_eq hgiven]
      refine List.mem_append_right _ (List.mem_filter.2 ⟨by rwa [childList_eq hc] at hz, ?_⟩)
      simpa using hnew
    have hlive := (hend.1.since.remove copy hu).disciplined.live.of_mem_childList hmem
    exact ⟨by simp [hlive], fun _ => hmem⟩

-- ---------------------------------------------------------------------------
-- The steps of a block execution
-- ---------------------------------------------------------------------------

variable {scope : Scope} {block : Handle} {args : List Handle}

/-- A block execution on a copy ends with the outcome of the run of the copy, and the copy is
freed. -/
theorem attempt_executeCopy_eq_ok {o : Except Failure Unit}
    (h : attempt (executeCopy scope block destination args first) σ = .ok o τ) :
    ∃ copy s σ₁, σ.nodes.deepClone block = .ok (copy, s) ∧
      attempt (runCopy scope copy destination args first) { σ with nodes := s } = .ok o σ₁ ∧
      τ = { σ₁ with nodes := σ₁.nodes.remove copy } := by
  unfold attempt executeCopy at h
  rw [bind_apply, Engine.deepClone, Engine.change] at h
  cases hclone : σ.nodes.deepClone block with
  | error e => simp [hclone] at h
  | ok r =>
    obtain ⟨copy, s⟩ := r
    rw [hclone] at h
    have hends : ∀ σ₁ f τ₁, Engine.remove copy σ₁ ≠ .error (.failure f) τ₁ := by
      intro σ₁ f τ₁ hfail
      injection hfail
    obtain ⟨σ₁, hrun, hend⟩ := attempt_always_eq_ok (Engine.remove copy) hends h
    obtain ⟨_, hremove, hτ⟩ := edit_eq_ok hend
    obtain rfl := Except.ok.inj hremove
    exact ⟨copy, s, σ₁, rfl, hrun, hτ⟩

/-- The steps of a block execution on a copy that gives a result. -/
theorem executeCopy_eq_ok (h : executeCopy scope block destination args first σ = .ok () τ) :
    ∃ copy s σ₀ known c σ₁ σ₂ σ₃, σ.nodes.deepClone block = .ok (copy, s) ∧
      cloneInFront copy args { σ with nodes := s } = .ok () σ₀ ∧
      σ₀.nodes.children copy = .ok known ∧ executeAll scope copy σ₀ = .ok c σ₁ ∧
      settle copy c σ₁ = .ok () σ₂ ∧ deliver copy destination known first σ₂ = .ok () σ₃ ∧
      τ = { σ₃ with nodes := σ₃.nodes.remove copy } := by
  obtain ⟨copy, σ', hmade, h⟩ := bind_eq_ok h
  obtain ⟨s, hclone, rfl⟩ := change_eq_ok hmade
  obtain ⟨σ₃, hrun, hlast⟩ := always_eq_ok h
  obtain ⟨_, hremove, hτ⟩ := edit_eq_ok hlast
  obtain rfl := Except.ok.inj hremove
  rw [runCopy_eq] at hrun
  obtain ⟨⟨⟩, σ₀, hfront, hrun⟩ := bind_eq_ok hrun
  rw [nodes_bind_apply] at hrun
  obtain ⟨known, σ', hlift, hrun⟩ := bind_eq_ok hrun
  obtain ⟨hknown, rfl⟩ := lift_eq_ok hlift
  obtain ⟨c, σ₁, hloop, hrun⟩ := bind_eq_ok hrun
  obtain ⟨⟨⟩, σ₂, hsettle, hrun⟩ := bind_eq_ok hrun
  exact ⟨copy, s, σ₀, known, c, σ₁, σ₂, σ₃, hclone, hfront, hknown, hloop, hsettle, hrun, hτ⟩

end TreeScript
