import TreeScript.Proofs.Path.Live
import TreeScript.Proofs.Store.Adopt
import TreeScript.Proofs.Store.Descent

/-!
# TreeScript — what a path leads to

Where parents and children agree and all listed children are alive, every step can be taken from
every live node and leads to live nodes. A path then leads to the nodes that its steps lead to one
after the other, each where it is met first: leaving out what is met again after every step comes
to the same as leaving it out at the end.

* `eraseDups_append`, `eraseDups_flatMap` — leaving out what is met again;
* `Path.leads`, `Path.leads_append` — all that is met on the way, and paths put together;
* `Path.walk_eq_leads` — what a path leads to;
* `PathExpr.evaluate_gives` — what an expression gives;
* `PathExpr.evaluate_append` — an expression in two parts.
-/

namespace TreeScript

-- ---------------------------------------------------------------------------
-- Leaving out what is met again
-- ---------------------------------------------------------------------------

section

variable {α β : Type} [DecidableEq α] [DecidableEq β]

/-- It does not matter whether members are left out before or after repetitions are. -/
theorem eraseDups_filter (p : α → Bool) (as : List α) :
    (as.filter p).eraseDups = as.eraseDups.filter p := by
  match as with
  | [] => rfl
  | a :: rest =>
    rw [List.eraseDups_cons]
    by_cases ha : p a = true
    · rw [List.filter_cons_of_pos ha, List.filter_cons_of_pos ha, List.eraseDups_cons,
        List.filter_comm, eraseDups_filter p (rest.filter _)]
    · have hrest : (rest.filter fun b => !b == a).filter p = rest.filter p := by
        rw [List.filter_filter]
        refine List.filter_congr fun b _ => ?_
        by_cases hb : b = a
        · simp [hb, ha]
        · simp [hb]
      rw [List.filter_cons_of_neg ha, List.filter_cons_of_neg ha,
        ← eraseDups_filter p (rest.filter _), hrest]
termination_by as.length
decreasing_by
  all_goals exact Nat.lt_succ_of_le (List.length_filter_le _ _)

theorem nodup_eraseDups (as : List α) : as.eraseDups.Nodup := by
  match as with
  | [] => exact List.nodup_nil
  | a :: rest =>
    rw [List.eraseDups_cons, List.nodup_cons]
    refine ⟨fun hmem => ?_, nodup_eraseDups _⟩
    simp [List.mem_eraseDups] at hmem
termination_by as.length
decreasing_by exact Nat.lt_succ_of_le (List.length_filter_le _ _)

/-- A list without repetitions stays as it is. -/
theorem eraseDups_of_nodup {as : List α} (h : as.Nodup) : as.eraseDups = as := by
  induction as with
  | nil => rfl
  | cons a rest ih =>
    obtain ⟨ha, hrest⟩ := List.nodup_cons.1 h
    have hfilter : (rest.filter fun b => !b == a) = rest :=
      List.filter_eq_self.2 fun b hb => by simpa using fun heq : b = a => ha (heq ▸ hb)
    rw [List.eraseDups_cons, hfilter, ih hrest]

/-- Of a second part that stays which has not been met in the first one. -/
theorem eraseDups_append (as bs : List α) :
    (as ++ bs).eraseDups = as.eraseDups ++ bs.eraseDups.filter fun b => decide (b ∉ as) := by
  rw [List.eraseDups_append, ← eraseDups_filter]
  congr 2
  refine List.filter_congr fun b _ => ?_
  simp

/-- Where the parts agree but for what is met again, the whole does. -/
theorem eraseDups_append_congr {as as' bs bs' : List α} (ha : as.eraseDups = as'.eraseDups)
    (hb : bs.eraseDups = bs'.eraseDups) : (as ++ bs).eraseDups = (as' ++ bs').eraseDups := by
  have hmem : ∀ b, b ∈ as ↔ b ∈ as' := fun b => by
    rw [← List.mem_eraseDups, ha, List.mem_eraseDups]
  simp only [eraseDups_append, ha, hb, hmem]

omit [DecidableEq α] in
/-- Repetitions may be left out part by part, in either of two ways that come to the same. -/
theorem eraseDups_flatMap_congr {f g : α → List β} {as : List α}
    (h : ∀ a ∈ as, (f a).eraseDups = (g a).eraseDups) :
    (as.flatMap f).eraseDups = (as.flatMap g).eraseDups := by
  induction as with
  | nil => rfl
  | cons a rest ih =>
    obtain ⟨ha, hrest⟩ := List.forall_mem_cons.1 h
    exact eraseDups_append_congr ha (ih hrest)

/-- Behind all that comes of a thing, it does not matter how often the thing is met. -/
theorem filter_flatMap_of_met (f : α → List β) (a : α) (as : List α) :
    ((as.filter fun b => !b == a).flatMap f).filter (fun x => decide (x ∉ f a)) =
      (as.flatMap f).filter fun x => decide (x ∉ f a) := by
  induction as with
  | nil => rfl
  | cons b rest ih =>
    by_cases hb : b = a
    · subst hb
      have hnone : (f b).filter (fun x => decide (x ∉ f b)) = [] :=
        List.filter_eq_nil_iff.2 fun x hx => by simpa using hx
      rw [List.filter_cons_of_neg (by simp), ih, List.flatMap_cons, List.filter_append, hnone,
        List.nil_append]
    · rw [List.filter_cons_of_pos (by simpa using hb), List.flatMap_cons, List.flatMap_cons,
        List.filter_append, List.filter_append, ih]

/-- What comes of a thing that is met again has been met as well. -/
theorem eraseDups_flatMap (f : α → List β) (as : List α) :
    (as.eraseDups.flatMap f).eraseDups = (as.flatMap f).eraseDups := by
  match as with
  | [] => rfl
  | a :: rest =>
    rw [List.eraseDups_cons, List.flatMap_cons, List.flatMap_cons, eraseDups_append,
      eraseDups_append, eraseDups_flatMap f (rest.filter _), ← eraseDups_filter,
      filter_flatMap_of_met, eraseDups_filter]
termination_by as.length
decreasing_by exact Nat.lt_succ_of_le (List.length_filter_le _ _)

/-- Under an injective map the repetitions are the same. -/
theorem eraseDups_map {f : α → β} (hf : Function.Injective f) (as : List α) :
    (as.map f).eraseDups = as.eraseDups.map f := by
  have hsame := eraseDups_flatMap (fun a => [f a]) as
  rw [← List.map_eq_flatMap, ← List.map_eq_flatMap] at hsame
  rw [← hsame, eraseDups_of_nodup ((nodup_eraseDups as).map hf)]

end

-- ---------------------------------------------------------------------------
-- Steps
-- ---------------------------------------------------------------------------

section

variable {s : Store} {h x : Handle}

namespace Path

/-- The nodes that a step leads to from a node; none where it cannot be taken. -/
def Step.leads (s : Store) (step : Step) (h : Handle) : List Handle :=
  match step.apply s h with
  | .ok hs => hs
  | .error _ => []

/-- The nodes that some steps lead to one after the other, as often as they are met. -/
def leads (s : Store) : List Step → Handle → List Handle
  | [], h => [h]
  | step :: rest, h => (step.leads s h).flatMap (leads s rest)

theorem leads_append (s : Store) (first second : List Step) (h : Handle) :
    leads s (first ++ second) h = (leads s first h).flatMap (leads s second) := by
  induction first generalizing h with
  | nil => simp [leads]
  | cons step rest ih =>
    rw [List.cons_append, leads, leads, List.flatMap_assoc]
    exact List.flatMap_congr fun x _ => ih x

/-- A range of children ends with the last child at the latest, and begins where it ends at the
latest. -/
theorem apply_range {n : Node} (hn : s.node? h = some n) (first last : Nat) :
    (Step.range first last).apply s h =
      .ok (slice n.children (min first (min last n.children.length)) (min last n.children.length)
        (Nat.min_le_right _ _) (Nat.min_le_right _ _)) := by
  rw [Step.apply, Store.children_eq_ok.2 ⟨n, hn, rfl⟩]
  rfl

/-- Every step can be taken from a live node. -/
theorem exists_apply (hl : s.Linked) (hlive : s.LiveChildren) (hh : s.isAlive h = true)
    (step : Step) : ∃ found, step.apply s h = .ok found := by
  obtain ⟨n, hn⟩ := Store.isAlive_iff.1 hh
  have hnode : s.node h = .ok n := by rw [Store.node, hn]
  cases step with
  | root => exact ⟨_, rfl⟩
  | parent => exact ⟨_, rfl⟩
  | children => exact ⟨_, Store.children_eq_ok.2 ⟨n, hn, rfl⟩⟩
  | descendants => exact hl.descendants hlive hh
  | reference => exact ⟨_, by rw [Step.apply, Store.value, hnode]; rfl⟩
  | previous => exact ⟨_, rfl⟩
  | next => exact ⟨_, rfl⟩
  | index i => exact ⟨_, rfl⟩
  | range first last => exact ⟨_, apply_range hn first last⟩
  | valueEquals text => exact ⟨_, by rw [Step.apply, Store.value, hnode]; rfl⟩
  | named name => exact ⟨_, by rw [Step.apply, Store.name, hnode]; rfl⟩

/-- Every step can be taken from a live node. -/
theorem apply_eq_leads (hl : s.Linked) (hlive : s.LiveChildren) (hh : s.isAlive h = true)
    (step : Step) : step.apply s h = .ok (step.leads s h) := by
  obtain ⟨found, hfound⟩ := exists_apply hl hlive hh step
  rw [Step.leads, hfound]

/-- A step leads to live nodes. -/
theorem Step.isAlive_of_mem_leads (hl : s.Linked) (hlive : s.LiveChildren)
    (hh : s.isAlive h = true) {step : Step} (hx : x ∈ step.leads s h) : s.isAlive x = true := by
  have hends : Ends (step.apply s h) (fun hs => ∀ x ∈ hs, s.isAlive x = true)
      (Fault.Excused True) := Store.ends_apply (hl.coherent hlive) hh step
  rw [apply_eq_leads hl hlive hh] at hends
  exact hends x hx

-- ---------------------------------------------------------------------------
-- Paths
-- ---------------------------------------------------------------------------

/-- So do several steps. -/
theorem isAlive_of_mem_leads (hl : s.Linked) (hlive : s.LiveChildren) {steps : List Step}
    (hh : s.isAlive h = true) (hx : x ∈ leads s steps h) : s.isAlive x = true := by
  induction steps generalizing h with
  | nil =>
    rw [leads, List.mem_singleton] at hx
    exact hx ▸ hh
  | cons step rest ih =>
    obtain ⟨y, hy, hx⟩ := List.mem_flatMap.1 hx
    exact ih (step.isAlive_of_mem_leads hl hlive hh hy) hx

/-- A step from live nodes leads to what it leads to from each, without repetitions. -/
theorem applyAll_eq_leads (hl : s.Linked) (hlive : s.LiveChildren) {hs : List Handle}
    (hhs : ∀ h ∈ hs, s.isAlive h = true) (step : Step) :
    step.applyAll s hs = .ok (hs.flatMap (step.leads s)).eraseDups := by
  rw [Step.applyAll, mapM_eq_ok_map fun h hh => apply_eq_leads hl hlive (hhs h hh) step,
    List.flatMap_def]
  rfl

/-- A path leads to what its steps lead to one after the other, each node where it is met first. -/
theorem walk_eq_leads (hl : s.Linked) (hlive : s.LiveChildren) {steps : List Step}
    {hs : List Handle} (hhs : ∀ h ∈ hs, s.isAlive h = true) (hnodup : hs.Nodup) :
    walk s steps hs = .ok (hs.flatMap (leads s steps)).eraseDups := by
  induction steps generalizing hs with
  | nil => simp [walk, leads, eraseDups_of_nodup hnodup]
  | cons step rest ih =>
    have hnext : ∀ x ∈ (hs.flatMap (step.leads s)).eraseDups, s.isAlive x = true := by
      intro x hx
      obtain ⟨h, hh, hx⟩ := List.mem_flatMap.1 (List.mem_eraseDups.1 hx)
      exact step.isAlive_of_mem_leads hl hlive (hhs h hh) hx
    rw [walk, applyAll_eq_leads hl hlive hhs]
    calc walk s rest (hs.flatMap (step.leads s)).eraseDups
        = .ok ((hs.flatMap (step.leads s)).eraseDups.flatMap (leads s rest)).eraseDups :=
          ih hnext (nodup_eraseDups _)
      _ = .ok ((hs.flatMap (step.leads s)).flatMap (leads s rest)).eraseDups := by
          rw [eraseDups_flatMap]
      _ = .ok (hs.flatMap (leads s (step :: rest))).eraseDups := by
          rw [List.flatMap_assoc]
          rfl

end Path

-- ---------------------------------------------------------------------------
-- Expressions
-- ---------------------------------------------------------------------------

namespace PathExpr

/-- The nodes that some steps end at; none from a node that is gone. -/
def ends (s : Store) (steps : List Path.Step) (h : Handle) : List Handle :=
  if s.isAlive h then (Path.leads s steps h).eraseDups else []

theorem nodup_ends (s : Store) (steps : List Path.Step) (h : Handle) : (ends s steps h).Nodup := by
  unfold ends
  split
  · exact nodup_eraseDups _
  · exact List.nodup_nil

/-- All nodes that steps end at are alive. -/
theorem isAlive_of_mem_ends (hl : s.Linked) (hlive : s.LiveChildren) {steps : List Path.Step}
    (hx : x ∈ ends s steps h) : s.isAlive x = true := by
  unfold ends at hx
  split at hx
  next hh => exact Path.isAlive_of_mem_leads hl hlive hh (List.mem_eraseDups.1 hx)
  next => simp at hx

/-- An expression leads to the nodes that its steps end at, from a removed node to none. -/
theorem nodes_eq_ends (hl : s.Linked) (hlive : s.LiveChildren) (e : PathExpr) (h : Handle) :
    e.nodes s h = .ok (ends s e.steps h) := by
  unfold nodes ends
  by_cases hh : s.isAlive h = true
  · rw [if_pos hh, if_pos hh, Path.walk_eq_leads hl hlive (by simpa using hh)
      (List.nodup_singleton h), List.flatMap_singleton]
  · rw [if_neg hh, if_neg hh, Path.walk_eq_leads hl hlive (by simp) List.nodup_nil]
    rfl

/-- An expression that asks for nodes gives the nodes that its steps end at. -/
theorem evaluate_node (hl : s.Linked) (hlive : s.LiveChildren) (steps : List Path.Step)
    (h : Handle) :
    evaluate ⟨steps, .node⟩ s h = .ok ((ends s steps h).map .node) := by
  rw [evaluate, nodes_eq_ends hl hlive]
  rfl

/-- An expression can be evaluated at every handle, and what it gives is told by the nodes that it
ends at. These are alive, and each is there once. Nodes are given as they are, their number is
given as one count, and names and values in the order of the nodes, where a node without value
gives none. On the way, a range of children is a slice within the bounds of the list, and the
children of a parent are looked at only if it is alive. -/
theorem evaluate_gives (hl : s.Linked) (hlive : s.LiveChildren) (steps : List Path.Step)
    (h : Handle) :
    (∃ (found : List Handle) (nodes : List Node), found.Nodup ∧
      List.Forall₂ (fun x n => s.node? x = some n) found nodes ∧
      evaluate ⟨steps, .node⟩ s h = .ok (found.map .node) ∧
      evaluate ⟨steps, .count⟩ s h = .ok [.count found.length] ∧
      evaluate ⟨steps, .name⟩ s h = .ok (nodes.map fun n => .name n.name) ∧
      evaluate ⟨steps, .value⟩ s h = .ok ((nodes.filterMap Node.value).map .value)) ∧
    (∀ (x : Handle) (n : Node) (first last : Nat), s.node? x = some n →
      ∃ start stop hstart hstop, (Path.Step.range first last).apply s x =
        .ok (Path.slice n.children start stop hstart hstop)) ∧
    ∀ x p, s.parent? x = some p → s.isAlive p = true := by
  refine ⟨?_, fun x n first last hn => ⟨_, _, _, _, Path.apply_range hn first last⟩,
    fun x p hp => hl.isAlive_parent hp⟩
  -- the nodes found are alive, so each of them can be read
  · have hfound : ∀ x ∈ ends s steps h, ∃ n, s.node? x = some n := fun x hx =>
      Store.isAlive_iff.1 (isAlive_of_mem_ends hl hlive hx)
    have : Nonempty Node := ⟨{ name := "" }⟩
    choose! node hnode using hfound
    -- what is read is read node by node, in the order in which they were found
    have hread : ∀ {α : Type} (f : Node → α), (ends s steps h).mapM (fun x => (s.node x).map f) =
        .ok (((ends s steps h).map node).map f) := by
      intro α f
      rw [List.map_map]
      refine mapM_eq_ok_map fun x hx => ?_
      rw [Store.node, hnode x hx]
      rfl
    refine ⟨ends s steps h, (ends s steps h).map node, nodup_ends s steps h, ?_,
      evaluate_node hl hlive steps h, ?_, ?_, ?_⟩
    · exact List.forall₂_map_right_iff.2 (List.forall₂_same.2 hnode)
    · rw [evaluate, nodes_eq_ends hl hlive]
      rfl
    · rw [evaluate, nodes_eq_ends hl hlive]
      simp only [bind, Except.bind]
      rw [show s.name = fun x => (s.node x).map Node.name from rfl, hread]
      simp [Function.comp_def]
    · rw [evaluate, nodes_eq_ends hl hlive]
      simp only [bind, Except.bind]
      rw [show s.value = fun x => (s.node x).map Node.value from rfl, hread]
      simp [List.filterMap_map]

/-- A node with two children, a reference to it, and a reference to a node that has been freed. -/
def signposts : Store :=
  (Store.empty.plant (.plain "" none
    [.plain "a" none [.plain "x" (some (.int 1)) [], .plain "y" none []], .pointer "to" ⟨1, 0⟩ [],
      .pointer "lost" ⟨6, 0⟩ [], .plain "gone" none []])).2.remove ⟨6, 0⟩

/-- The store with the two references is disciplined, though one of them dangles. -/
theorem disciplined_signposts : signposts.Disciplined := by
  have hslots : (signposts.slots.toList.all fun slot => decide (slot.freed < 2 ^ 32)) = true := by
    cbv
  have hunwrapped : signposts.Unwrapped :=
    Store.unwrapped_of_slots (by simpa only [List.all_eq_true, decide_eq_true_eq] using hslots)
  exact (((Store.Since.refl Store.disciplined_empty).plant _
    (Store.unwrapped_of_slots (by cbv; decide))).remove ⟨6, 0⟩ hunwrapped).disciplined

/-- Of the two references one leads nowhere, and the range goes beyond the last child. -/
theorem evaluate_gives_signposts : signposts.Linked ∧ signposts.LiveChildren ∧
    signposts.value ⟨5, 0⟩ = .ok (some (.ref ⟨6, 0⟩)) ∧ signposts.isAlive ⟨6, 0⟩ = false ∧
    ∃ found : List Handle, found.Nodup ∧ found.length = 2 ∧
      evaluate ⟨[.children, .reference, .range 0 9], .node⟩ signposts ⟨0, 0⟩ =
        .ok (found.map .node) ∧
      evaluate ⟨[.children, .reference, .range 0 9], .count⟩ signposts ⟨0, 0⟩ =
        .ok [.count 2] := by
  have hd := disciplined_signposts
  obtain ⟨⟨found, _, hnodup, -, hnode, hcount, -⟩, -⟩ :=
    evaluate_gives hd.linked hd.live [.children, .reference, .range 0 9] ⟨0, 0⟩
  have htwo : evaluate ⟨[.children, .reference, .range 0 9], .node⟩ signposts ⟨0, 0⟩ =
      .ok [.node ⟨2, 0⟩, .node ⟨3, 0⟩] := by cbv
  have hlength : found.length = 2 := by
    simpa using congrArg List.length (Except.ok.inj (hnode.symm.trans htwo))
  exact ⟨hd.linked, hd.live, by cbv, by cbv, found, hnodup, hlength, hnode, hlength ▸ hcount⟩

/-- The nodes at the end of two paths, one behind the other: those at the end of the second from
each node at the end of the first. -/
theorem ends_append (hl : s.Linked) (hlive : s.LiveChildren) (first second : List Path.Step)
    (h : Handle) :
    ends s (first ++ second) h = ((ends s first h).flatMap (ends s second)).eraseDups := by
  have hall : ∀ x ∈ ends s first h,
      (ends s second x).eraseDups = (Path.leads s second x).eraseDups := by
    intro x hx
    rw [ends, if_pos (isAlive_of_mem_ends hl hlive hx), eraseDups_of_nodup (nodup_eraseDups _)]
  by_cases hh : s.isAlive h = true
  · calc ends s (first ++ second) h
        = ((Path.leads s first h).flatMap (Path.leads s second)).eraseDups := by
          rw [ends, if_pos hh, Path.leads_append]
      _ = ((ends s first h).flatMap (Path.leads s second)).eraseDups := by
          rw [ends, if_pos hh, eraseDups_flatMap]
      _ = ((ends s first h).flatMap (ends s second)).eraseDups :=
          (eraseDups_flatMap_congr hall).symm
  · rw [ends, ends, if_neg hh, if_neg hh]
    rfl

/-- Evaluating two paths one behind the other comes to evaluating the first, then the second from
each node of the result, and to putting these results together with only the first occurrence of
each node. -/
theorem evaluate_append (hl : s.Linked) (hlive : s.LiveChildren) (first second : List Path.Step)
    (h : Handle) :
    ∃ (middle : List Handle) (results : List (List Item)),
      evaluate ⟨first, .node⟩ s h = .ok (middle.map .node) ∧
      middle.mapM (fun x => evaluate ⟨second, .node⟩ s x) = .ok results ∧
      evaluate ⟨first ++ second, .node⟩ s h = .ok results.flatten.eraseDups := by
  have hnode : Function.Injective Item.node := fun _ _ heq => Item.node.inj heq
  refine ⟨ends s first h, (ends s first h).map fun x => (ends s second x).map .node,
    evaluate_node hl hlive first h,
    mapM_eq_ok_map fun x _ => evaluate_node hl hlive second x, ?_⟩
  rw [evaluate_node hl hlive, ends_append hl hlive, ← eraseDups_map hnode, List.map_flatMap,
    List.flatMap_def]

/-- Both children of a node lead to both of them, and each is given once. -/
theorem evaluate_append_signposts : signposts.Linked ∧ signposts.LiveChildren ∧
    evaluate ⟨[.children, .children], .node⟩ signposts ⟨0, 0⟩ =
      .ok [.node ⟨2, 0⟩, .node ⟨3, 0⟩] ∧
    ∃ results : List (List Item), results.flatten.length = 4 ∧
      evaluate ⟨[.children, .children, .parent, .children], .node⟩ signposts ⟨0, 0⟩ =
        .ok results.flatten.eraseDups ∧
      results.flatten.eraseDups = [.node ⟨2, 0⟩, .node ⟨3, 0⟩] := by
  have hd := disciplined_signposts
  obtain ⟨middle, results, hmiddle, hresults, hwhole⟩ :=
    evaluate_append hd.linked hd.live [.children, .children] [.parent, .children] ⟨0, 0⟩
  have hfirst : evaluate ⟨[.children, .children], .node⟩ signposts ⟨0, 0⟩ =
      .ok [.node ⟨2, 0⟩, .node ⟨3, 0⟩] := by cbv
  have hall : evaluate ⟨[.children, .children, .parent, .children], .node⟩ signposts ⟨0, 0⟩ =
      .ok [.node ⟨2, 0⟩, .node ⟨3, 0⟩] := by cbv
  obtain rfl : middle = [⟨2, 0⟩, ⟨3, 0⟩] :=
    (List.map_inj_right fun _ _ => Item.node.inj).1 (Except.ok.inj (hmiddle.symm.trans hfirst))
  have heach : [⟨2, 0⟩, ⟨3, 0⟩].mapM (fun x : Handle =>
      evaluate ⟨[.parent, .children], .node⟩ signposts x) =
      .ok [[.node ⟨2, 0⟩, .node ⟨3, 0⟩], [.node ⟨2, 0⟩, .node ⟨3, 0⟩]] := by cbv
  obtain rfl := Except.ok.inj (hresults.symm.trans heach)
  exact ⟨hd.linked, hd.live, hfirst, _, rfl, hwhole, Except.ok.inj (hwhole.symm.trans hall)⟩

end PathExpr

end

end TreeScript
