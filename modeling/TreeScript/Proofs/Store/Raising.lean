import TreeScript.Proofs.Store.Commute
import TreeScript.Proofs.Store.Place
import TreeScript.Proofs.Store.Signal

/-!
# TreeScript — a signal that is raised and cleared

Raising a signal makes a new node and puts it in front of the children of a root. No other node
changes but for that one list, so every node keeps its root, and what is pending in another tree
stays pending there. Clearing the signal frees the new node, which holds nobody, and every node is
again what it was. A sentinel that stood in front before is in front once more.

* `Linked.root?_congr`, `pending_congr` — what roots and pending signals depend on;
* `Fronted`, `exists_fronted` — a new node in front of the children of another, by raising a signal;
* `Fronted.root?_eq`, `Fronted.pending_eq` — what it changes for other nodes;
* `Fronted.node?_remove` — the new node is taken away again;
* `signal_clearSignal_cancel` — both together.
-/

namespace TreeScript.Store

variable {s t : Store} {h x r z : Handle} {c : Control} {name : String}

-- ---------------------------------------------------------------------------
-- What a pending signal depends on
-- ---------------------------------------------------------------------------

/-- A node has the same root where all nodes that were alive have the same parents. -/
theorem Linked.root?_congr (hl : Linked s) (hl' : Linked t) (hx : t.isAlive x = s.isAlive x)
    (hparent : ∀ y, s.isAlive y = true → t.parent? y = s.parent? y) : t.root? x = s.root? x := by
  cases hr : s.root? x with
  | none =>
    have hdead : s.isAlive x = false := by simpa [root?] using hr
    simp [root?, hx, hdead]
  | some r =>
    obtain ⟨halive, hup, hnone⟩ := hl.root?_eq_some_iff.1 hr
    have hup' : Relation.ReflTransGen t.ChildOf x r :=
      Relation.ReflTransGen.mono
        (fun y p hy => (hparent y (isAlive_of_parent? hy)).trans hy) _ _ hup
    exact hl'.root?_eq_some_iff.2
      ⟨hx.trans halive, hup', (hparent r (hl.isAlive_root? hr)).trans hnone⟩

/-- The same signal is pending at the same root with the same first child. -/
theorem pending_congr (hroot : t.root? x = s.root? x)
    (hfirst : ∀ q, s.root? x = some q → t.firstChild? q = s.firstChild? q)
    (hname : ∀ f, s.frontOf? x = some f → t.name f = s.name f) : t.pending x = s.pending x := by
  have hfront : t.frontOf? x = s.frontOf? x := by
    unfold frontOf?
    rw [hroot]
    exact Option.bind_congr hfirst
  unfold pending
  rw [hfront]
  split
  next => rfl
  next f hf => rw [hname f hf]

/-- A store in which every node is what it is in a linked one. -/
theorem Linked.congr (hl : Linked s) (hlive : LiveChildren s)
    (hview : ∀ x, t.node? x = s.node? x) : Linked t := by
  have hchild : t.ChildOf = s.ChildOf := by
    funext y p
    rw [ChildOf, ChildOf, parent?, parent?, hview]
  refine ⟨?_, ?_, ?_, ?_, fun x => hchild ▸ hl.acyclic x⟩
  · intro y p m hm hp
    obtain ⟨n, hn, hmem⟩ := hl.lists ((hview y).symm.trans hm) hp
    exact ⟨n, (hview p).trans hn, hmem⟩
  · intro p y n m hn hmem hm
    exact hl.listed ((hview p).symm.trans hn) hmem ((hview y).symm.trans hm)
  · intro p n hn
    exact hl.nodup ((hview p).symm.trans hn)
  · intro p y n hn hmem
    have halive := hlive ((hview p).symm.trans hn) hmem
    exact Or.inr (by rwa [isAlive, hview, ← isAlive])

/-- Where every node is what it was, the same signals are pending. -/
theorem Linked.pending_eq_of_node? (hl : Linked s) (hlive : LiveChildren s)
    (hview : ∀ x, t.node? x = s.node? x) (x : Handle) : t.pending x = s.pending x := by
  refine pending_congr ?_ (fun q _ => ?_) fun f _ => ?_
  · refine hl.root?_congr (hl.congr hlive hview) ?_ fun y _ => ?_
    · rw [isAlive, hview, ← isAlive]
    · rw [parent?, hview, ← parent?]
  · rw [firstChild?, childList, hview, ← childList, ← firstChild?]
  · rw [Store.name, Store.node, hview, ← Store.node, ← Store.name]

-- ---------------------------------------------------------------------------
-- A new first child
-- ---------------------------------------------------------------------------

/-- A new node stands in front of the children of a node without parent. Every other node is what
it was, and only this one lists one child more. -/
structure Fronted (s : Store) (r z : Handle) (name : String) (t : Store) : Prop where
  linked : Linked t
  balanced : Balanced t
  root : s.root? r = some r
  fresh : s.isAlive z = false
  view (x : Handle) : t.node? x = if x = z then some { name, parent := some r } else
    (s.node? x).map fun n => { n with children := if x = r then z :: n.children else n.children }

/-- A node that has just been made stands above nobody. -/
theorem Linked.not_above_create (hl : Linked s) (hs : Balanced s) (hlive : LiveChildren s)
    (hr : s.isAlive r = true) (name : String) :
    ¬ Relation.ReflTransGen (s.create name none).2.ChildOf r (s.create name none).1 := by
  have hlinked := hl.create hs name none (Or.inr hlive)
  exact hlinked.not_above_of_childless (hs.node?_create_self name none) rfl
    (hs.ne_create_fst hr name none)

/-- Every node once a node that has just been made has been put in front of the children of
another. -/
theorem Linked.node?_moveBelow_create (hl : Linked s) (hs : Balanced s) (hlive : LiveChildren s)
    (hr : s.isAlive r = true)
    (hok : (s.create name none).2.moveBelow r 0 (s.create name none).1 = .ok t) (x : Handle) :
    t.node? x = if x = (s.create name none).1 then some { name, parent := some r } else
      (s.node? x).map fun n =>
        { n with children := if x = r then (s.create name none).1 :: n.children
            else n.children } := by
  have hfresh := isAlive_create_fst hs name none
  have hne := hs.ne_create_fst hr name none
  rw [(hl.create hs name none (Or.inr hlive)).node?_moveBelow hok hne,
    hs.node?_create name (v := none) (by simp)]
  set z := (s.create name none).1
  by_cases hx : x = z
  · simp [hx, hne.symm]
  · rw [if_neg hx, if_neg hx]
    cases hn : s.node? x with
    | none => rfl
    | some n =>
      -- nobody lists a node that was not there
      have hnot : z ∉ n.children := fun hmem => by simp [hlive hn hmem] at hfresh
      simp [hx, placedAmong, filter_ne_of_not_mem hnot]

/-- Raising a signal inserts a new node with the name of the signal; the insertion is never
refused. -/
theorem exists_fronted (hs : Balanced s) (hl : Linked s) (hlive : LiveChildren s)
    (hr : s.root? h = some r) (hname : c.sentinel? = some name) :
    ∃ t, s.signal h c = .ok t ∧
      (s.create name none).2.insert r 0 (s.create name none).1 = .ok t ∧
      Fronted s r (s.create name none).1 name t := by
  have halive := hl.isAlive_root? hr
  have hlinked := hl.create hs name none (Or.inr hlive)
  -- the root is not below a node that has just been made
  have hup := hl.not_above_create hs hlive halive name
  have hkept := hs.isAlive_create name (v := none) (by simp)
  obtain ⟨t, ht⟩ := moveBelow_isOk ((hkept r).2 (Or.inl halive)) ((hkept _).2 (Or.inr rfl)) 0
  have hsignal : s.signal h c = .ok t := by
    rw [Store.signal, hr, hname]
    exact ht
  have hfree : (s.create name none).2.wouldCycle r (s.create name none).1 = false :=
    Bool.eq_false_iff.2 fun hcycle => hup (hlinked.wouldCycle_iff.1 hcycle)
  refine ⟨t, hsignal, ?_, ?_⟩
  · rw [Store.insert, hfree, ht]
    rfl
  constructor
  case linked => exact hlinked.moveBelow ht hup
  case balanced => exact (Evolves.signal hsignal).balanced hs
  case root => exact hl.root?_eq_some_iff.2 ⟨halive, .refl, (hl.root?_eq_some_iff.1 hr).2.2⟩
  case fresh => exact isAlive_create_fst hs name none
  case view => exact hl.node?_moveBelow_create hs hlive halive ht

namespace Fronted

variable (hf : Fronted s r z name t)
include hf

theorem ne_of_isAlive (hx : s.isAlive x = true) : x ≠ z := by
  rintro rfl
  simp [hf.fresh] at hx

/-- Except for the sentinel the same nodes are alive. -/
theorem isAlive_eq (hx : x ≠ z) : t.isAlive x = s.isAlive x := by
  rw [isAlive, hf.view, if_neg hx, Option.isSome_map, isAlive]

/-- Except for the sentinel everybody has the same parent. -/
theorem parent?_eq (hx : x ≠ z) : t.parent? x = s.parent? x := by
  rw [parent?, hf.view, if_neg hx, parent?]
  cases s.node? x <;> rfl

/-- Except for the sentinel everybody has the same name. -/
theorem name_eq (hx : x ≠ z) : t.name x = s.name x := by
  rw [Store.name, Store.node, hf.view, if_neg hx, Store.name, Store.node]
  cases s.node? x <;> rfl

/-- The root has the sentinel in front of its children, and everybody else has the same ones. -/
theorem childList_eq (hx : x ≠ z) :
    t.childList x = if x = r ∧ s.isAlive r = true then z :: s.childList x else s.childList x := by
  rw [childList, hf.view, if_neg hx, childList]
  by_cases hr : x = r
  · subst hr
    cases hn : s.node? x <;> simp [isAlive, hn]
  · cases s.node? x <;> simp [hr]

theorem isAlive_root : s.isAlive r = true := (root?_eq_some hf.root).1

theorem childOf : t.ChildOf z r := childOf_iff.2 ⟨_, by rw [hf.view, if_pos rfl], rfl⟩

/-- The new node is in the tree that it was put into; all others are in their trees. -/
theorem root?_eq (hl : Linked s) (x : Handle) :
    t.root? x = if x = z then some r else s.root? x := by
  have hkept : ∀ {y}, y ≠ z → t.root? y = s.root? y := fun hy =>
    hl.root?_congr hf.linked (hf.isAlive_eq hy) fun y hy => hf.parent?_eq (hf.ne_of_isAlive hy)
  by_cases hx : x = z
  · subst hx
    rw [if_pos rfl]
    exact hf.linked.root?_of_childOf hf.childOf
      ((hkept (hf.ne_of_isAlive hf.isAlive_root)).trans hf.root)
  · rw [if_neg hx, hkept hx]

/-- What is pending in another tree is pending there still. -/
theorem pending_eq (hl : Linked s) (hlive : LiveChildren s) (hx : t.root? x ≠ some r) :
    t.pending x = s.pending x := by
  have hxz : x ≠ z := by
    rintro rfl
    simp [hf.root?_eq hl] at hx
  have hroot : t.root? x = s.root? x := by rw [hf.root?_eq hl, if_neg hxz]
  rw [hroot] at hx
  refine pending_congr hroot (fun q hq => ?_) fun f hfront => ?_
  · have hqr : q ≠ r := by
      rintro rfl
      exact hx hq
    have hqz := hf.ne_of_isAlive (hl.isAlive_root? hq)
    rw [firstChild?, firstChild?, hf.childList_eq hqz, if_neg (by simp [hqr])]
  · obtain ⟨q, -, hfirst⟩ := Option.bind_eq_some_iff.1 hfront
    obtain ⟨n, hn, hmem⟩ := mem_childList_iff.1 (List.mem_of_head? hfirst)
    exact hf.name_eq (hf.ne_of_isAlive (hlive hn hmem))

theorem raised (hname : c.sentinel? = some name) : Raised t r z c where
  first := by
    rw [firstChild?, hf.childList_eq (hf.ne_of_isAlive hf.isAlive_root),
      if_pos ⟨rfl, hf.isAlive_root⟩, List.head?_cons]
  sentinel := ⟨_, by rw [hf.view, if_pos rfl], hname, rfl⟩

/-- The new node holds nobody and is freed alone, and its root lists the children that it listed. -/
theorem node?_remove (hlive : LiveChildren s) (x : Handle) :
    (t.remove z).node? x = s.node? x := by
  have hz : t.isAlive z = true := isAlive_of_parent? hf.childOf
  -- taken out again, the sentinel leaves every list as it was
  have hdetach : ∀ y, (t.detach z).node? y = if y = z then some { name } else s.node? y := by
    intro y
    rw [hf.linked.node?_detach, hf.view]
    simp only [if_pos hz]
    by_cases hy : y = z
    · simp [hy]
    · rw [if_neg hy, if_neg hy]
      cases hn : s.node? y with
      | none => rfl
      | some n =>
        have hnot : z ∉ n.children := fun hmem => hf.ne_of_isAlive (hlive hn hmem) rfl
        by_cases hr : y = r
        · subst hr
          simp [hy, filter_ne_of_not_mem hnot]
        · simp [hy, hr, filter_ne_of_not_mem hnot]
  -- and it holds nothing, so nothing else is freed with it
  have halone : ∀ y, ¬ (t.detach z).Holds z y := by
    rintro y ⟨n, hn, hheld⟩
    rw [hdetach, if_pos rfl] at hn
    obtain rfl := Option.some.inj hn
    simp [Node.owned?] at hheld
  have hreach : (t.detach z).Reaches z x ↔ x = z := by
    constructor
    · intro hway
      rcases Relation.ReflTransGen.cases_head hway with heq | ⟨y, hy, -⟩
      · exact heq.symm
      · exact absurd hy (halone y)
    · rintro rfl
      exact .refl _ _
  refine Option.ext fun n => ?_
  rw [remove, if_pos hz, node?_releaseAll_eq_some, hdetach]
  simp only [List.mem_singleton, forall_eq, hreach]
  by_cases hx : x = z
  · simp [hx, not_isAlive_iff.1 hf.fresh]
  · simp [hx]

end Fronted

-- ---------------------------------------------------------------------------
-- Raising and clearing
-- ---------------------------------------------------------------------------

/-- Raising a signal puts a new node into one tree. There the signal is pending for every node, and
what is pending in the other trees does not change. Clearing it from any node of that tree gives
the signal back, and every node is what it was before, as are the number of nodes and the signals
that are pending. -/
theorem signal_clearSignal_cancel (hs : Balanced s) (hl : Linked s) (hlive : LiveChildren s)
    (hh : s.isAlive h = true) (hc : c ≠ .none) :
    ∃ r z t, s.root? h = some r ∧ s.isAlive z = false ∧ s.signal h c = .ok t ∧
      (∃ name, c.sentinel? = some name ∧ (s.create name none).2.insert r 0 z = .ok t) ∧
      (∀ m, t.root? m = if m = z then some r else s.root? m) ∧
      (∀ m, t.root? m = some r → t.pending m = .ok c) ∧
      (∀ m, t.root? m ≠ some r → t.pending m = s.pending m) ∧
      ∀ m, t.root? m = some r → ∃ u, t.clearSignal m = .ok (c, u) ∧
        (∀ x, u.node? x = s.node? x) ∧ u.live = s.live ∧ ∀ x, u.pending x = s.pending x := by
  -- every signal but `none` has a name, and every live node a root
  obtain ⟨r, hr⟩ : ∃ r, s.root? h = some r := by simp [root?, hh]
  obtain ⟨name, hname⟩ : ∃ name, c.sentinel? = some name := by
    cases c with
    | none => exact absurd rfl hc
    | _ => exact ⟨_, rfl⟩
  obtain ⟨t, hsignal, hinsert, hf⟩ := exists_fronted hs hl hlive hr hname
  have hraised := hf.raised hname
  refine ⟨r, _, t, hr, hf.fresh, hsignal, ⟨name, hname, hinsert⟩, hf.root?_eq hl,
    fun m hm => hraised.pending hm, fun m hm => hf.pending_eq hl hlive hm, fun m hm => ?_⟩
  have hview := hf.node?_remove hlive
  refine ⟨_, hraised.clearSignal hm, hview, ?_, hl.pending_eq_of_node? hlive hview⟩
  -- the same nodes are alive, so as many are counted
  refine hs.live_eq_of_isAlive ((Evolves.remove t _).balanced hf.balanced) fun x => ?_
  rw [isAlive, hview, ← isAlive]

/-- A tree in which a break is pending, and another one in which a continue is. -/
def waiting : Store :=
  ((empty.plant (.plain "" none [.plain "_break" none [],
    .plain "block" none [.plain "inner" none []]])).2.plant
      (.plain "other" none [.plain "_continue" none []])).2

/-- A return is raised from deep inside the first tree and cleared from its own sentinel; the break
is pending there again. -/
theorem signal_clearSignal_cancel_waiting :
    Balanced waiting ∧ Linked waiting ∧ LiveChildren waiting ∧
      waiting.isAlive ⟨3, 0⟩ = true ∧ Control.return ≠ .none ∧
      waiting.pending ⟨3, 0⟩ = .ok .break ∧
      ∃ t u z, waiting.signal ⟨3, 0⟩ .return = .ok t ∧ t.pending ⟨1, 0⟩ = .ok .return ∧
        t.pending ⟨4, 0⟩ = .ok .continue ∧ t.clearSignal z = .ok (.return, u) ∧
        u.pending ⟨3, 0⟩ = .ok .break ∧ u.childList ⟨0, 0⟩ = [⟨1, 0⟩, ⟨2, 0⟩] ∧ u.live = 6 := by
  have hd : Disciplined waiting :=
    (((Since.refl disciplined_empty).plant _ (unwrapped_of_slots (by cbv; decide))).plant _
      (unwrapped_of_slots (by cbv; decide))).disciplined
  have halive : waiting.isAlive ⟨3, 0⟩ = true := by decide
  obtain ⟨r, z, t, hr, hz, hsignal, -, hroot, hhere, hthere, hclear⟩ :=
    signal_clearSignal_cancel hd.balanced hd.linked hd.live halive (c := .return) (by decide)
  have hr' : waiting.root? ⟨3, 0⟩ = some ⟨0, 0⟩ := by decide
  obtain rfl : r = ⟨0, 0⟩ := Option.some.inj (hr.symm.trans hr')
  have hne : ∀ {x}, waiting.isAlive x = true → x ≠ z := by
    rintro x hx rfl
    simp [hz] at hx
  -- nodes of the same tree see the new signal, those of the other see the old one
  have hfirst : t.root? ⟨1, 0⟩ = some ⟨0, 0⟩ := by
    rw [hroot, if_neg (hne (by decide))]
    decide
  have hother : t.root? ⟨4, 0⟩ ≠ some ⟨0, 0⟩ := by
    rw [hroot, if_neg (hne (by decide))]
    decide
  obtain ⟨u, hcleared, hview, hlive, hpending⟩ := hclear z (by rw [hroot, if_pos rfl])
  refine ⟨hd.balanced, hd.linked, hd.live, halive, by decide, rfl, t, u, z, hsignal, hhere _ hfirst,
    (hthere _ hother).trans rfl, hcleared, (hpending _).trans rfl, ?_, hlive⟩
  rw [childList, hview]
  rfl

end TreeScript.Store
