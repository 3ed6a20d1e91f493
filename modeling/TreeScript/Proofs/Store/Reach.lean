import TreeScript.Proofs.Store.Slots
import TreeScript.Store.Edit

/-!
# TreeScript — what is freed

A node holds its children and the node that its value owns, and reaches all that
these hold in turn. Freeing takes away what is reached and leaves everything else
as it is, in whatever circles the nodes hold each other.

* `Holds`, `Reaches` — one step down, and any number of steps;
* `node?_releaseAll_eq_some` — what is left after freeing all that some handles reach;
* `node?_removeEach_eq_some` — what is left after freeing nodes one by one.
-/

namespace TreeScript.Store

/-- The first node holds the second one, as a child or as its value. -/
def Holds (s : Store) (a b : Handle) : Prop :=
  ∃ n, s.node? a = some n ∧ (b ∈ n.children ∨ n.owned? = some b)

/-- The first node is the second one or holds it through other nodes. -/
def Reaches (s : Store) : Handle → Handle → Prop := Relation.ReflTransGen s.Holds

theorem Holds.isAlive {s : Store} {a b : Handle} (h : s.Holds a b) : s.isAlive a = true := by
  obtain ⟨n, hn, -⟩ := h
  exact isAlive_iff.2 ⟨n, hn⟩

/-- A live node holds its children and what it owns. -/
theorem holds_iff {s : Store} {a b : Handle} {n : Node} (hn : s.node? a = some n) :
    s.Holds a b ↔ b ∈ n.children ∨ n.owned? = some b := by
  simp [Holds, hn]

namespace Reaches

theorem refl (s : Store) (a : Handle) : s.Reaches a a := Relation.ReflTransGen.refl

theorem trans {s : Store} {a b c : Handle} (h₁ : s.Reaches a b) (h₂ : s.Reaches b c) :
    s.Reaches a c := Relation.ReflTransGen.trans h₁ h₂

theorem single {s : Store} {a b : Handle} (h : s.Holds a b) : s.Reaches a b :=
  Relation.ReflTransGen.single h

theorem head {s : Store} {a b c : Handle} (h₁ : s.Holds a b) (h₂ : s.Reaches b c) :
    s.Reaches a c := Relation.ReflTransGen.head h₁ h₂

theorem tail {s : Store} {a b c : Handle} (h₁ : s.Reaches a b) (h₂ : s.Holds b c) :
    s.Reaches a c := Relation.ReflTransGen.tail h₁ h₂

/-- A node is reached along the same way where nothing has been taken away from it. -/
theorem mono {s s' : Store} (hsub : ∀ a b, s'.Holds a b → s.Holds a b) {a b : Handle}
    (h : s'.Reaches a b) : s.Reaches a b := Relation.ReflTransGen.mono hsub _ _ h

/-- A stale handle reaches only itself. -/
theorem eq_of_not_isAlive {s : Store} {a b : Handle} (h : s.Reaches a b)
    (ha : s.isAlive a = false) : b = a := by
  rcases Relation.ReflTransGen.cases_head h with rfl | ⟨c, hc, -⟩
  · rfl
  · rw [hc.isAlive] at ha
    simp at ha

theorem isAlive {s : Store} {a b : Handle} (h : s.Reaches a b) (hb : s.isAlive b = true) :
    s.isAlive a = true := by
  by_contra ha
  rw [Bool.not_eq_true] at ha
  rw [h.eq_of_not_isAlive ha, ha] at hb
  simp at hb

end Reaches

/-- A way down ends at its own last step. -/
theorem Reaches.cases_last {s : Store} {a b : Handle} (h : s.Reaches a b) :
    a = b ∨ ∃ c, s.Reaches a c ∧ s.Holds c b := by
  rcases Relation.ReflTransGen.cases_tail h with rfl | ⟨c, hc, hb⟩
  · exact Or.inl rfl
  · exact Or.inr ⟨c, hc, hb⟩

-- ---------------------------------------------------------------------------
-- One node less
-- ---------------------------------------------------------------------------

/-- What is held after one node has been freed was held before. -/
theorem holds_of_release {s s' : Store} {h : Handle} {n : Node} (hr : s.release h = some (n, s'))
    {a b : Handle} : s'.Holds a b ↔ a ≠ h ∧ s.Holds a b := by
  unfold Holds
  simp only [node?_release hr]
  by_cases ha : a = h
  · simp [ha]
  · simp [ha]

/-- A way down from `g` either avoids a node, or leaves it for the last time
through one of the nodes it holds. -/
theorem Reaches.avoid {s s' : Store} {h : Handle} {n : Node} (hr : s.release h = some (n, s'))
    {g x : Handle} (hg : s.Reaches g x) :
    s'.Reaches g x ∨ ∃ b, s.Holds h b ∧ s'.Reaches b x := by
  induction hg using Relation.ReflTransGen.head_induction_on with
  | refl => exact Or.inl (.refl _ _)
  | @head a c hstep _ ih =>
    rcases ih with hc | hb
    · by_cases ha : a = h
      · exact Or.inr ⟨c, ha ▸ hstep, hc⟩
      · exact Or.inl (.head ((holds_of_release hr).2 ⟨ha, hstep⟩) hc)
    · exact Or.inr hb

/-- Freeing all that some handles reach leaves exactly the nodes that none of
them reaches, as they were. -/
theorem node?_releaseAll_eq_some (s : Store) (stack : List Handle) (x : Handle) (m : Node) :
    (s.releaseAll stack).node? x = some m ↔
      s.node? x = some m ∧ ∀ h ∈ stack, ¬ s.Reaches h x := by
  fun_induction releaseAll s stack with
  | case1 => simp
  | case2 s h stack hr ih =>
    have hdead : s.isAlive h = false := not_isAlive_iff.2 (release_eq_none_iff.1 hr)
    rw [ih, List.forall_mem_cons]
    refine and_congr_right fun hm => (and_iff_right fun hreach => ?_).symm
    simp [hreach.isAlive (isAlive_iff.2 ⟨m, hm⟩)] at hdead
  | case3 s h stack n s' hr ih =>
    have hn : s.node? h = some n := node?_of_release hr
    have hheld : ∀ b, b ∈ n.owned?.toList ++ n.children.reverse ↔ s.Holds h b := by
      intro b
      rw [holds_iff hn]
      simp [or_comm]
    rw [ih, node?_release hr, ← List.append_assoc, List.forall_mem_append, List.forall_mem_cons]
    have hsub : ∀ a b, s'.Holds a b → s.Holds a b := fun a b hab =>
      ((holds_of_release hr).1 hab).2
    constructor
    · rintro ⟨hm, hrest, hstack⟩
      have hx : x ≠ h := fun heq => by simp [heq] at hm
      rw [if_neg hx] at hm
      -- a way from `g` to `x` would avoid `h`, or begin behind it
      have hnot : ∀ g, ¬ s'.Reaches g x → ¬ s.Reaches g x := by
        intro g hg hreach
        rcases hreach.avoid hr with h' | ⟨b, hb, h'⟩
        · exact hg h'
        · exact hrest b ((hheld b).2 hb) h'
      refine ⟨hm, hnot h fun hreach => ?_, fun g hg => hnot g (hstack g hg)⟩
      exact hx (hreach.eq_of_not_isAlive (by simp [isAlive, node?_release hr]))
    · rintro ⟨hm, hh, hstack⟩
      have hx : x ≠ h := fun heq => hh (heq ▸ .refl _ _)
      rw [if_neg hx]
      exact ⟨hm, fun b hb hreach => hh (.head ((hheld b).1 hb) (hreach.mono hsub)),
        fun g hg hreach => hstack g hg (hreach.mono hsub)⟩

/-- Freeing some nodes frees exactly what they lead to. -/
theorem isAlive_releaseAll (s : Store) (stack : List Handle) (x : Handle) :
    (s.releaseAll stack).isAlive x = true ↔
      s.isAlive x = true ∧ ∀ h ∈ stack, ¬ s.Reaches h x := by
  simp only [isAlive_iff, node?_releaseAll_eq_some]
  exact ⟨fun ⟨n, hn, h⟩ => ⟨⟨n, hn⟩, h⟩, fun ⟨⟨n, hn⟩, h⟩ => ⟨n, hn, h⟩⟩

/-- What is held after freeing: what was held by a node that is left. -/
theorem holds_releaseAll (s : Store) (stack : List Handle) (a b : Handle) :
    (s.releaseAll stack).Holds a b ↔ s.Holds a b ∧ ∀ h ∈ stack, ¬ s.Reaches h a := by
  simp only [Holds, node?_releaseAll_eq_some]
  exact ⟨fun ⟨n, ⟨hn, h⟩, hb⟩ => ⟨⟨n, hn, hb⟩, h⟩, fun ⟨⟨n, hn, hb⟩, h⟩ => ⟨n, ⟨hn, h⟩, hb⟩⟩

/-- A node that is left is reached along the same ways as before. -/
theorem reaches_releaseAll {s : Store} {stack : List Handle} {g x : Handle}
    (hx : ∀ h ∈ stack, ¬ s.Reaches h x) : (s.releaseAll stack).Reaches g x ↔ s.Reaches g x := by
  refine ⟨.mono fun a b hab => ((holds_releaseAll s stack a b).1 hab).1, fun hg => ?_⟩
  induction hg using Relation.ReflTransGen.head_induction_on with
  | refl => exact .refl _ _
  | @head a c hstep hrest ih =>
    refine .head ((holds_releaseAll s stack a c).2 ⟨hstep, fun h hh hreach => ?_⟩) ih
    exact hx h hh (hreach.trans (.head hstep hrest))

/-- A node reaches the same nodes where all that it reaches hold the same. -/
theorem reaches_congr {s t : Store} {a x : Handle}
    (h : ∀ y z, s.Reaches a y → (t.Holds y z ↔ s.Holds y z)) : t.Reaches a x ↔ s.Reaches a x := by
  constructor
  · intro hway
    induction hway with
    | refl => exact .refl _ _
    | tail _ hstep ih => exact ih.tail ((h _ _ ih).1 hstep)
  · intro hway
    induction hway with
    | refl => exact .refl _ _
    | tail hway hstep ih => exact ih.tail ((h _ _ hway).2 hstep)

/-- Changing anything but what a node holds changes nothing about who holds whom. -/
theorem holds_modify {s : Store} {h : Handle} {f : Node → Node}
    (hc : ∀ n, (f n).children = n.children) (ho : ∀ n, (f n).owned? = n.owned?) (a b : Handle) :
    (s.modify h f).Holds a b ↔ s.Holds a b := by
  unfold Holds
  rw [node?_modify]
  by_cases ha : a = h
  · subst ha
    simp [hc, ho]
  · simp [ha]

/-- A change that is neither of children nor of what is owned does not change what leads where. -/
theorem reaches_modify {s : Store} {h : Handle} {f : Node → Node}
    (hc : ∀ n, (f n).children = n.children) (ho : ∀ n, (f n).owned? = n.owned?) (a b : Handle) :
    (s.modify h f).Reaches a b ↔ s.Reaches a b := by
  constructor
  · exact .mono fun x y hxy => (holds_modify hc ho x y).1 hxy
  · exact .mono fun x y hxy => (holds_modify hc ho x y).2 hxy

-- ---------------------------------------------------------------------------
-- One node after the other
-- ---------------------------------------------------------------------------

/-- Freeing nodes one by one leaves exactly the nodes that none of them reaches. -/
theorem node?_removeEach_eq_some {s s' : Store} {hs : List Handle}
    (hok : s.removeEach hs = .ok s') (x : Handle) (m : Node) :
    s'.node? x = some m ↔ s.node? x = some m ∧ ∀ h ∈ hs, ¬ s.Reaches h x := by
  induction hs generalizing s with
  | nil =>
    obtain rfl : s = s' := by simpa [removeEach] using hok
    simp
  | cons h rest ih =>
    unfold removeEach at hok
    split at hok
    next halive =>
      set t := s.modify h fun n => { n with parent := none } with ht
      -- cutting the parent link changes nothing of what is reached
      have hreaches : ∀ a b, t.Reaches a b ↔ s.Reaches a b :=
        reaches_modify (fun _ => rfl) fun _ => rfl
      rw [ih hok, node?_releaseAll_eq_some]
      simp only [List.mem_singleton, forall_eq, List.forall_mem_cons, hreaches]
      constructor
      -- a node that is left was not reached from the first, so it is reached from the rest as
      -- before
      · rintro ⟨⟨hm, hh⟩, hrest⟩
        have hx : x ≠ h := fun heq => hh (heq ▸ .refl _ _)
        rw [ht, node?_modify_of_ne _ hx] at hm
        refine ⟨hm, hh, fun g hg hreach => hrest g hg ?_⟩
        exact (reaches_releaseAll (by simpa [hreaches] using hh)).2 ((hreaches _ _).2 hreach)
      · rintro ⟨hm, hh, hrest⟩
        have hx : x ≠ h := fun heq => hh (heq ▸ .refl _ _)
        refine ⟨⟨by rw [ht, node?_modify_of_ne _ hx, hm], hh⟩, fun g hg hreach => hrest g hg ?_⟩
        exact (hreaches _ _).1 ((reaches_releaseAll (by simpa [hreaches] using hh)).1 hreach)
    next => simp at hok

/-- Freeing nodes one by one is a sequence of operations on slots. -/
theorem Evolves.removeEach {s s' : Store} {hs : List Handle} (hok : s.removeEach hs = .ok s') :
    Evolves s s' := by
  induction hs generalizing s with
  | nil =>
    obtain rfl : s = s' := by simpa [Store.removeEach] using hok
    exact .refl _
  | cons h rest ih =>
    unfold Store.removeEach at hok
    split at hok
    next => exact ((Evolves.modify _ _ _).trans (.releaseAll _ _)).trans (ih hok)
    next => simp at hok

end TreeScript.Store
