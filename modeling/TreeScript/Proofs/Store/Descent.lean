import TreeScript.Proofs.Store.LiveChildren

/-!
# TreeScript — the way down ends

Where parents and children agree, no node stands below two siblings and none stands below itself.
So a walk from a node to all that is below it meets each node once. It meets no more nodes than
there are slots, and is therefore never cut off.

* `Under` — a node that stands below another one, or is that one;
* `Linked.children_apart` — no node stands below two siblings;
* `Frontier`, `Frontier.step` — how far a walk has come, and one step of it;
* `Frontier.walk`, `Linked.descendants` — the whole walk.
-/

namespace TreeScript.Store

variable {s : Store} {h c d x : Handle} {n : Node} {met stack : List Handle}

/-- The first node stands below the second one, or is it. -/
def Under (s : Store) (x a : Handle) : Prop := Relation.ReflTransGen s.ChildOf x a

theorem Linked.not_under_child (hl : Linked s) (hc : s.ChildOf c h) : ¬ s.Under h c :=
  fun hup => hl.acyclic c (Relation.TransGen.head' hc hup)

/-- A node stands below one sibling only. -/
theorem Linked.eq_of_under (hl : Linked s) (hc : s.ChildOf c h) (hd : s.ChildOf d h)
    (hxc : s.Under x c) (hxd : s.Under x d) : c = d := by
  have hunique : Relator.RightUnique s.ChildOf := fun _ _ _ hp hq =>
    Option.some.inj (hp.symm.trans hq)
  -- the way up from a sibling leads through the common parent
  have hsibling : ∀ {a b : Handle}, s.ChildOf a h → s.ChildOf b h → s.Under a b → a = b := by
    intro a b ha hb hab
    rcases Relation.ReflTransGen.cases_head hab with heq | ⟨p, hp, hpb⟩
    · exact heq
    · obtain rfl : h = p := hunique ha hp
      exact absurd hpb (hl.not_under_child hb)
  rcases Relation.ReflTransGen.total_of_right_unique hunique hxc hxd with hcd | hdc
  · exact hsibling hc hd hcd
  · exact (hsibling hd hc hdc).symm

/-- Who is listed as a child has the node as its parent. -/
theorem Linked.childOf_of_mem (hl : Linked s) (hlive : LiveChildren s) (hn : s.node? h = some n)
    (hc : c ∈ n.children) : s.ChildOf c h := by
  obtain ⟨m, hm⟩ := isAlive_iff.1 (hlive hn hc)
  exact childOf_iff.2 ⟨m, hm, hl.listed hn hc hm⟩

/-- No node stands below two children of a node. -/
theorem Linked.children_apart (hl : Linked s) (hlive : LiveChildren s) (hn : s.node? h = some n) :
    n.children.Pairwise fun c d => ∀ x, s.Under x c → ¬ s.Under x d := by
  refine (hl.nodup hn).pairwise_of_forall_ne fun c hc d hd hne x hxc hxd => hne ?_
  exact hl.eq_of_under (hl.childOf_of_mem hlive hn hc) (hl.childOf_of_mem hlive hn hd) hxc hxd

-- ---------------------------------------------------------------------------
-- One step
-- ---------------------------------------------------------------------------

/-- How far a walk down has come: the nodes that it has met and those that it has still to visit.
Nothing below the latter has been met, and nothing is below two of them. -/
structure Frontier (s : Store) (met stack : List Handle) : Prop where
  nodup : met.Nodup
  alive : ∀ x ∈ met ++ stack, s.isAlive x = true
  unmet : ∀ a ∈ stack, ∀ x ∈ met, ¬ s.Under x a
  apart : stack.Pairwise fun a b => ∀ x, s.Under x a → ¬ s.Under x b

/-- A search begins at one node with nothing behind it. -/
theorem frontier_start (hh : s.isAlive h = true) : Frontier s [] [h] :=
  ⟨List.nodup_nil, by simpa using hh, by simp, List.pairwise_singleton _ _⟩

/-- The node on top is visited, and its children come in its place. -/
theorem Frontier.step (hl : Linked s) (hlive : LiveChildren s) (hn : s.node? h = some n)
    (hf : Frontier s met (h :: stack)) : Frontier s (met ++ [h]) (n.children ++ stack) := by
  have hchild : ∀ {c : Handle}, c ∈ n.children → s.ChildOf c h := hl.childOf_of_mem hlive hn
  have habove : ∀ {c x : Handle}, c ∈ n.children → s.Under x c → s.Under x h := fun hc hx =>
    Relation.ReflTransGen.tail hx (hchild hc)
  obtain ⟨hbeside, hapart⟩ := List.pairwise_cons.1 hf.apart
  obtain ⟨hunmet, hunmet'⟩ := List.forall_mem_cons.1 hf.unmet
  have hself : ∀ {a : Handle}, s.Under a a := Relation.ReflTransGen.refl
  refine ⟨?_, ?_, ?_, ?_⟩
  -- the node just met was not met before
  · exact hf.nodup.append (List.nodup_singleton h) fun x hx hxh =>
      hunmet x hx (List.mem_singleton.1 hxh ▸ hself)
  -- its children take its place on the stack, and they are alive
  · intro x hx
    rw [List.append_assoc, List.mem_append, List.mem_append, List.mem_append] at hx
    rcases hx with hx | hx | hx | hx
    · exact hf.alive x (by simp [hx])
    · exact hf.alive x (by simp [List.mem_singleton.1 hx])
    · exact hlive hn hx
    · exact hf.alive x (by simp [hx])
  -- below the stack nothing was met, for a child is below the node just met
  · intro a ha x hx hxa
    rcases List.mem_append.1 ha with ha | ha
    · rcases List.mem_append.1 hx with hx | hx
      · exact hunmet x hx (habove ha hxa)
      · obtain rfl := List.mem_singleton.1 hx
        exact hl.not_under_child (hchild ha) hxa
    · rcases List.mem_append.1 hx with hx | hx
      · exact hunmet' a ha x hx hxa
      · obtain rfl := List.mem_singleton.1 hx
        exact hbeside a ha x hself hxa
  -- the children are apart from each other and from what was beside their parent
  · exact List.pairwise_append.2 ⟨hl.children_apart hlive hn, hapart,
      fun c hc a ha x hxc => hbeside a ha x (habove hc hxc)⟩

-- ---------------------------------------------------------------------------
-- The whole walk
-- ---------------------------------------------------------------------------

/-- A walk with as much fuel as there are slots without a met node comes to its end. -/
theorem Frontier.walk (hl : Linked s) (hlive : LiveChildren s) (hf : Frontier s met stack)
    {fuel : Nat} (hfuel : s.slots.size ≤ met.length + fuel) :
    ∃ found, s.walk fuel stack = .ok found := by
  induction fuel generalizing met stack with
  | zero =>
    cases stack with
    | nil => exact ⟨[], by rw [Store.walk]⟩
    | cons h stack =>
      -- all slots are taken by met nodes, so there is none for the next one
      obtain ⟨n, hn⟩ := isAlive_iff.1 (hf.alive h (by simp))
      have hnext := hf.step hl hlive hn
      have hroom := length_le_size_of_nodup hnext.nodup fun x hx =>
        hnext.alive x (List.mem_append_left _ hx)
      rw [List.length_append, List.length_singleton] at hroom
      omega
  | succ fuel ih =>
    cases stack with
    | nil => exact ⟨[], by rw [Store.walk]⟩
    | cons h stack =>
      obtain ⟨n, hn⟩ := isAlive_iff.1 (hf.alive h (by simp))
      obtain ⟨found, hfound⟩ := ih (hf.step hl hlive hn)
        (by rw [List.length_append, List.length_singleton]; omega)
      refine ⟨h :: found, ?_⟩
      rw [Store.walk, children_eq_ok.2 ⟨n, hn, rfl⟩]
      simp only [bind, Except.bind, hfound]

/-- The nodes below a live node are found. -/
theorem Linked.descendants (hl : Linked s) (hlive : LiveChildren s) (hh : s.isAlive h = true) :
    ∃ found, s.descendants h = .ok found := by
  obtain ⟨n, hn⟩ := isAlive_iff.1 hh
  have hnext := (frontier_start hh).step hl hlive hn
  rw [List.append_nil] at hnext
  obtain ⟨found, hfound⟩ := hnext.walk hl hlive (Nat.le_add_left s.slots.size _)
  refine ⟨found, ?_⟩
  rw [Store.descendants, children_eq_ok.2 ⟨n, hn, rfl⟩]
  simpa only [bind, Except.bind] using hfound

end TreeScript.Store
