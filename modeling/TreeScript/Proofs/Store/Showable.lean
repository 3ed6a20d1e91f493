import TreeScript.Proofs.Outcome
import TreeScript.Proofs.Store.Links
import TreeScript.Store.Move

/-!
# TreeScript — nodes that can be shown

A node is shown with its children and with the children of the node that its value points at,
whoever owns that one, and these are shown in the same way. Showing it goes wrong in two ways: a
child is looked at that is gone, or the references lead in a circle. The first is met where it
stands; the second is given up after as many steps as there are slots, which no way without a circle
takes.

* `Sees`, `Showable` — what is looked at, and when nothing goes wrong;
* `showable_iff` — exactly then there is a document;
* `exists_describe_iff`, `Linked.refusal_cases` — a failure that shows one node, and one that shows
  two.
-/

namespace TreeScript.Store

variable {s : Store} {h x a b : Handle}

/-- One node is looked at when another one is shown: it is a child of it, or of the node that its
value points at. -/
def Sees (s : Store) (a b : Handle) : Prop := ∃ n, s.node? a = some n ∧
  (b ∈ n.children ∨ ∃ t, n.value.bind Value.target? = some t ∧ b ∈ s.childList t)

/-- All that is looked at is there, and none of it leads back to itself. -/
structure Showable (s : Store) (h : Handle) : Prop where
  alive {x : Handle} : Relation.ReflTransGen s.Sees h x → s.isAlive x = true
  acyclic {x : Handle} : Relation.ReflTransGen s.Sees h x → ¬ Relation.TransGen s.Sees x x

theorem Sees.isAlive (h : s.Sees a b) : s.isAlive a = true := by
  obtain ⟨n, hn, -⟩ := h
  exact isAlive_iff.2 ⟨n, hn⟩

/-- What is looked at on the way can be shown, too. -/
theorem Showable.of_sees (h : Showable s a) (hab : Relation.ReflTransGen s.Sees a b) :
    Showable s b :=
  ⟨fun hx => h.alive (hab.trans hx), fun hx => h.acyclic (hab.trans hx)⟩

-- ---------------------------------------------------------------------------
-- One step
-- ---------------------------------------------------------------------------

/-- A live node is shown if all that it looks at is. -/
theorem exists_viewWithin_succ {fuel : Nat} (hh : s.isAlive h = true)
    (hsees : ∀ x, s.Sees h x → ∃ d, s.viewWithin fuel x = .ok d) :
    ∃ d, s.viewWithin (fuel + 1) h = .ok d := by
  obtain ⟨n, hn⟩ := isAlive_iff.1 hh
  obtain ⟨ds, hds⟩ := exists_mapM_eq_ok_iff.2 fun c hc => hsees c ⟨n, hn, .inl hc⟩
  rw [viewWithin, node, hn]
  simp only [hds, bind, Except.bind]
  split
  next t ht =>
    obtain ⟨es, hes⟩ := exists_mapM_eq_ok_iff.2 fun c hc => hsees c ⟨n, hn, .inr ⟨t, ht, hc⟩⟩
    rw [hes]
    exact ⟨_, rfl⟩
  next => exact ⟨_, rfl⟩

/-- If a node is shown, so is all that it looks at, in fewer steps. -/
theorem exists_viewWithin_of_sees {fuel : Nat} {d : Doc} (hok : s.viewWithin (fuel + 1) h = .ok d)
    (hx : s.Sees h x) : ∃ e, s.viewWithin fuel x = .ok e := by
  obtain ⟨n, hn, hx⟩ := hx
  rw [viewWithin, node, hn] at hok
  obtain ⟨n', heq, hok⟩ := bind_eq_ok_iff.1 hok
  obtain rfl := Except.ok.inj heq
  split at hok
  next t ht =>
    obtain ⟨es, hes, hok⟩ := bind_eq_ok_iff.1 hok
    obtain ⟨ds, hds, -⟩ := bind_eq_ok_iff.1 hok
    rcases hx with hx | ⟨t', ht', hx⟩
    · exact exists_mapM_eq_ok_iff.1 ⟨ds, hds⟩ x hx
    · obtain rfl : t = t' := Option.some.inj (ht.symm.trans ht')
      exact exists_mapM_eq_ok_iff.1 ⟨es, hes⟩ x hx
  next ht =>
    obtain ⟨ds, hds, -⟩ := bind_eq_ok_iff.1 hok
    rcases hx with hx | ⟨t, ht', -⟩
    · exact exists_mapM_eq_ok_iff.1 ⟨ds, hds⟩ x hx
    · simp [ht] at ht'

theorem isAlive_of_viewWithin {fuel : Nat} {d : Doc} (hok : s.viewWithin fuel h = .ok d) :
    s.isAlive h = true := by
  cases fuel with
  | zero => simp [viewWithin] at hok
  | succ fuel =>
    by_contra hdead
    rw [Bool.not_eq_true, not_isAlive_iff] at hdead
    simp [viewWithin, node, hdead, bind, Except.bind] at hok

-- ---------------------------------------------------------------------------
-- All the way
-- ---------------------------------------------------------------------------

/-- What is met further down on the way is shown in fewer steps. -/
theorem exists_viewWithin_of_transGen {fuel : Nat} {d : Doc} (hok : s.viewWithin fuel h = .ok d)
    (hx : Relation.TransGen s.Sees h x) :
    ∃ less e, less < fuel ∧ s.viewWithin less x = .ok e := by
  have hstep : ∀ {fuel h x d}, s.viewWithin fuel h = .ok d → s.Sees h x →
      ∃ less e, less < fuel ∧ s.viewWithin less x = .ok e := by
    intro fuel h x d hok hx
    cases fuel with
    | zero => simp [viewWithin] at hok
    | succ fuel =>
      obtain ⟨e, he⟩ := exists_viewWithin_of_sees hok hx
      exact ⟨fuel, e, Nat.lt_succ_self fuel, he⟩
  induction hx with
  | single hx => exact hstep hok hx
  | tail _ hx ih =>
    obtain ⟨less, e, hlt, he⟩ := ih
    obtain ⟨fewer, e', hlt', he'⟩ := hstep he hx
    exact ⟨fewer, e', hlt'.trans hlt, he'⟩

/-- A node that is shown leads to no circle: the steps that are left for it would get fewer each
time round. -/
theorem not_transGen_of_viewWithin {fuel : Nat} {d : Doc} (hok : s.viewWithin fuel h = .ok d) :
    ¬ Relation.TransGen s.Sees h h := by
  intro hcircle
  induction fuel using Nat.strong_induction_on generalizing d with
  | _ fuel ih =>
    obtain ⟨less, e, hlt, he⟩ := exists_viewWithin_of_transGen hok hcircle
    exact ih less hlt he

/-- A node can be shown exactly if nothing that is looked at is gone or leads back to itself. -/
theorem showable_iff : Showable s h ↔ ∃ d, s.view h = .ok d := by
  constructor
  -- below a showable node the walk ends, by the bound on the ways without repetition
  · intro hshow
    refine of_below (P := fun fuel x => (∀ y, Relation.ReflTransGen s.Sees x y →
      s.isAlive y = true) → ∃ d, s.viewWithin fuel x = .ok d) Sees.isAlive
      (fun x hx => hshow.acyclic hx) (fun hbelow halive => ?_) fun y hy => hshow.alive hy
    exact exists_viewWithin_succ (halive _ .refl) fun x hx =>
      hbelow x hx fun y hy => halive y (.head hx hy)
  -- each node that is seen has been read with some fuel, less than that of its predecessor
  · rintro ⟨d, hd⟩
    have hway : ∀ {x}, Relation.ReflTransGen s.Sees h x →
        ∃ fuel e, s.viewWithin fuel x = .ok e := by
      intro x hx
      rcases Relation.reflTransGen_iff_eq_or_transGen.1 hx with rfl | hx
      · exact ⟨_, d, hd⟩
      · obtain ⟨fuel, e, -, he⟩ := exists_viewWithin_of_transGen hd hx
        exact ⟨fuel, e, he⟩
    constructor
    · intro x hx
      obtain ⟨fuel, e, he⟩ := hway hx
      exact isAlive_of_viewWithin he
    · intro x hx
      obtain ⟨fuel, e, he⟩ := hway hx
      exact not_transGen_of_viewWithin he

-- ---------------------------------------------------------------------------
-- Failures that show a node
-- ---------------------------------------------------------------------------

/-- A live node can be named in a failure exactly if it can be shown. -/
theorem exists_describe_iff (hh : s.isAlive h = true) :
    (∃ c, s.describe h = .ok c) ↔ Showable s h := by
  obtain ⟨n, hn⟩ := isAlive_iff.1 hh
  rw [showable_iff, describe, hn]
  simp only [render]
  cases s.view h with
  | ok d => exact ⟨fun _ => ⟨d, rfl⟩, fun _ => ⟨_, rfl⟩⟩
  | error e => exact ⟨nofun, nofun⟩

theorem name_of_describe {n : Node} {c : NodeContext} (hn : s.node? h = some n)
    (hc : s.describe h = .ok c) : c.name = n.name := by
  rw [describe, hn] at hc
  simp only [render] at hc
  cases hview : s.view h with
  | error e => simp [hview, Except.map] at hc
  | ok d =>
    obtain rfl : _ = c := by simpa [hview, Except.map] using hc
    rfl

/-- A child is looked at when its parent is shown, and so is all that stands below it. -/
theorem Linked.sees_of_up (hl : Linked s) (hup : Relation.ReflTransGen s.ChildOf x a) :
    Relation.ReflTransGen s.Sees a x := by
  induction hup with
  | refl => exact .refl
  | tail _ hstep ih =>
    obtain ⟨m, hm, hp⟩ := childOf_iff.1 hstep
    obtain ⟨n, hn, hmem⟩ := hl.lists hm hp
    exact .head ⟨n, hn, .inl hmem⟩ ih

/-- A move below the node itself is refused, with both nodes, exactly if the node that was to be
moved can be shown: the other one stands below it. -/
theorem Linked.refusal_cases (hl : Linked s) {parent child : Handle}
    (hc : s.isAlive child = true) (hp : s.isAlive parent = true)
    (hup : Relation.ReflTransGen s.ChildOf parent child) :
    (Showable s child ∧ ∃ c p, s.describe child = .ok c ∧ s.describe parent = .ok p ∧
      s.refusal parent child = .cyclic c p) ∨
    ¬ Showable s child ∧ ∃ e, s.refusal parent child = .fault e := by
  by_cases hshow : Showable s child
  · obtain ⟨c, hcontext⟩ := (exists_describe_iff hc).2 hshow
    obtain ⟨p, hcontext'⟩ := (exists_describe_iff hp).2 (hshow.of_sees (hl.sees_of_up hup))
    refine .inl ⟨hshow, c, p, hcontext, hcontext', ?_⟩
    simp only [refusal, hcontext, hcontext']
  · refine .inr ⟨hshow, ?_⟩
    cases hcontext : s.describe child with
    | ok c => exact absurd ((exists_describe_iff hc).1 ⟨c, hcontext⟩) hshow
    | error e => exact ⟨e, by simp only [refusal, hcontext]⟩

end TreeScript.Store
