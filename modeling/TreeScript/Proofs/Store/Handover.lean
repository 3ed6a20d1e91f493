import TreeScript.Proofs.Store.Enclosure
import TreeScript.Proofs.Store.Place
import TreeScript.Proofs.Store.Signal
import TreeScript.Proofs.Store.View

/-!
# TreeScript — handing over what a tree holds

Children of one node are moved to the end of another's, with the value of the first node.
Where a node stands does not count here: what matters is its name, its value and its
children. So a step leaves most nodes as they are seen, and a tree that no step touches is
there with the same content afterwards.

* `holds_of_seen_eq`, `Reaches.transfer` — what nodes hold by what is seen of them;
* `Disciplined.nothing_shared` — trees apart from each other;
* `Disciplined.node?_remove_unheld` — a tree that nobody holds is freed;
* `Moved`, `Linked.moved_last` — children moved to the end of another node's children.
-/

namespace TreeScript.Store

variable {s t : Store} {x y : Handle}

-- ---------------------------------------------------------------------------
-- What is seen of a node
-- ---------------------------------------------------------------------------

/-- A node that is seen as it was is alive if it was. -/
theorem isAlive_of_seen_eq (heq : t.seen x = s.seen x) : t.isAlive x = s.isAlive x := by
  unfold seen at heq
  unfold isAlive
  cases hs : s.node? x <;> cases ht : t.node? x <;> simp [hs, ht] at heq ⊢

/-- A node that is seen as it was holds whom it held. -/
theorem holds_of_seen_eq (heq : t.seen x = s.seen x) : t.Holds x y ↔ s.Holds x y := by
  unfold seen at heq
  unfold Holds
  cases hs : s.node? x <;> cases ht : t.node? x <;> simp only [hs, ht] at heq
  · simp
  · simp at heq
  · simp at heq
  · simp only [Option.map_some, Option.some.injEq, Node.mk.injEq] at heq
    simp [Node.owned?, heq.2.1, heq.2.2.2]

/-- A way that does not touch the nodes that have changed was there before. -/
theorem Reaches.transfer {P : Handle → Prop} {a : Handle} (hfar : ∀ y, s.Reaches a y → ¬ P y)
    (hsub : ∀ y z, ¬ P y → t.Holds y z → s.Holds y z) (h : t.Reaches a x) :
    s.Reaches a x := by
  induction h with
  | refl => exact .refl _ _
  | tail _ hstep ih => exact ih.tail (hsub _ _ (hfar _ ih) hstep)

namespace Disciplined

variable {p q a b h : Handle}

/-- Two nodes, neither of which leads to the holder of the other, lead to nothing in common. -/
theorem nothing_shared (hd : Disciplined s) (hne : a ≠ b) (ha : s.Holds p a) (hb : s.Holds q b)
    (haq : ¬ s.Reaches a q) (hbp : ¬ s.Reaches b p) (hx : s.isAlive x = true)
    (hax : s.Reaches a x) : ¬ s.Reaches b x := by
  intro hbx
  rcases hd.comparable hx hax hbx with hab | hba
  · rcases hd.reaches_holder (hbx.isAlive hx) hb hab with heq | hreach
    · exact hne heq
    · exact haq hreach
  · rcases hd.reaches_holder (hax.isAlive hx) ha hba with heq | hreach
    · exact hne heq.symm
    · exact hbp hreach

/-- The same for two nodes that one node holds. -/
theorem siblings_share_nothing (hd : Disciplined s) (hne : a ≠ b) (ha : s.Holds p a)
    (hb : s.Holds p b) (hx : s.isAlive x = true) (hax : s.Reaches a x) : ¬ s.Reaches b x :=
  hd.nothing_shared hne ha hb (hd.not_reaches_holder ha) (hd.not_reaches_holder hb) hx hax

/-- A child is not owned by anybody. -/
theorem not_owns_of_mem_childList (hd : Disciplined s) (hx : x ∈ s.childList p) : ¬ s.Owns q x := by
  intro hown
  have hparent := hd.childOf_of_mem hx
  rw [ChildOf, hd.apart hown (hd.live.of_mem_childList hx)] at hparent
  simp at hparent

/-- A tree that nobody holds is freed, and all else stays as it is. -/
theorem node?_remove_unheld (hd : Disciplined s) (hun : ∀ a, ¬ s.Holds a h)
    (hx : ¬ s.Reaches h x) : (s.remove h).node? x = s.node? x := by
  cases hh : s.isAlive h with
  | false => simp [remove, hh]
  | true =>
    rw [(hd.freedOnly_remove hh).left x hx]
    cases hn : s.node? x with
    | none => rfl
    | some n =>
      rw [Option.map_some, filter_ne_of_not_mem fun hmem => hun x ⟨n, hn, Or.inl hmem⟩]

end Disciplined

-- ---------------------------------------------------------------------------
-- Children that are moved
-- ---------------------------------------------------------------------------

/-- Some children of a node have been moved behind the children of another. -/
structure Moved (origin target : Handle) (cs : List Handle) (s t : Store) : Prop where
  linked : Linked t
  emptied {n : Node} : s.node? origin = some n →
    t.node? origin = some { n with children := n.children.filter fun c => !cs.contains c }
  filled {n : Node} : s.node? target = some n →
    t.node? target = some { n with children := n.children ++ cs }
  others {x : Handle} : x ≠ origin → x ≠ target → t.seen x = s.seen x
  parents {x : Handle} : x ∉ cs → t.parent? x = s.parent? x

variable {origin target c : Handle} {cs rest : List Handle}

theorem Moved.nil (hl : Linked s) : Moved origin target [] s s where
  linked := hl
  emptied hn := by simpa using hn
  filled hn := by simpa using hn
  others _ _ := rfl
  parents _ := rfl

/-- One node is moved, and then the others. -/
theorem Moved.cons {u : Store} (h₁ : Moved origin target [c] s t)
    (h₂ : Moved origin target rest t u) : Moved origin target (c :: rest) s u where
  linked := h₂.linked
  emptied hn := by
    rw [h₂.emptied (h₁.emptied hn)]
    simp only [List.filter_filter]
    congr 2
    refine List.filter_congr fun x _ => ?_
    simp [Bool.and_comm]
  filled hn := by
    rw [h₂.filled (h₁.filled hn)]
    simp
  others hx hx' := (h₂.others hx hx').trans (h₁.others hx hx')
  parents hx := (h₂.parents fun hmem => hx (List.mem_cons_of_mem _ hmem)).trans
    (h₁.parents fun hmem => hx (by simpa using Or.inl (List.mem_singleton.1 hmem)))

/-- One child is moved behind the children of another node. -/
theorem Linked.moved_last (hl : Linked s) (hne : origin ≠ target) (hc : s.ChildOf c origin)
    {n : Node} (hn : s.node? target = some n) (hcycle : s.wouldCycle target c = false)
    (hok : s.moveBelow target n.children.length c = .ok t) : Moved origin target [c] s t := by
  have hself : target ≠ c := by
    rintro rfl
    simp [wouldCycle] at hcycle
  have hup : ¬ Relation.ReflTransGen s.ChildOf target c := fun hup => by
    simp [hl.wouldCycle_iff.2 hup] at hcycle
  have hnode := hl.node?_moveBelow hok hself
  -- nobody but its parent lists the child
  have hunlisted : ∀ {x k}, s.node? x = some k → x ≠ origin →
      k.children.filter (· != c) = k.children := fun {x k} hk hx => by
    refine filter_ne_of_not_mem fun hmem => hx ?_
    have hchild := (hl.parent?_eq_some_iff (isAlive_of_parent? hc)).2
      (mem_childList_iff.2 ⟨k, hk, hmem⟩)
    exact Option.some.inj (hchild.symm.trans hc)
  have hlast : placedAmong n.children.length c n.children = n.children ++ [c] := by
    simp [placedAmong, hunlisted hn hne.symm]
  refine ⟨hl.moveBelow hok hup, fun {k} hk => ?_, fun {k} hk => ?_, fun {x} hx hx' => ?_,
    fun {x} hx => ?_⟩
  · have hother : origin ≠ c := fun heq => hl.parent_ne hc heq
    rw [hnode, hk]
    simp only [Option.map_some, if_neg hother, if_neg hne]
    congr 2
    exact List.filter_congr fun y _ => by by_cases hy : y = c <;> simp [hy]
  · obtain rfl := Option.some.inj (hn.symm.trans hk)
    rw [hnode, hn]
    simp [hself, hlast]
  · rw [seen, seen, hnode]
    cases hk : s.node? x with
    | none => rfl
    | some k => simp [hx', hunlisted hk hx]
  · rw [parent?, parent?, hnode]
    cases hk : s.node? x with
    | none => rfl
    | some k => simp [List.mem_singleton.not.1 hx]

end TreeScript.Store
