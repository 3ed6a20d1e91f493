import TreeScript.Proofs.Store.Fence

/-!
# TreeScript — copies from behind a fence

A tree without references says nothing about where it stands, so its copy may come
inside a fence wherever the tree itself is. Fences can be set up within each other: what
keeps to the inner one keeps to the outer one.

* `Whole`, `Whole.reaches_back` — trees that are all there;
* `Bare`, `Bare.of_keeps` — trees without references;
* `Fence.Copies`, `Fenced.deepClone` — what may be copied;
* `Fenced.widen` — from an inner fence to an outer one.
-/

namespace TreeScript

/-- All nodes of a tree are there. -/
def Store.Whole (s : Store) (a : Handle) : Prop := ∀ x, s.Reaches a x → s.isAlive x = true

/-- All nodes of a tree are there, and none of them has a reference. -/
def Store.Bare (s : Store) (a : Handle) : Prop :=
  ∀ x, s.Reaches a x → ∃ n, s.node? x = some n ∧ ∀ g, n.value ≠ some (.ref g)

/-- A node that may be copied inside a fence: it is inside, or it was the top of a tree
without references when the fence was set up, and all of that is fenced off. -/
def Fence.Copies (F : Fence) (b : Store) (a : Handle) : Prop :=
  F.Open a ∨ b.Bare a ∧ ∀ x, b.Reaches a x → F.off x.index

namespace Store

variable {F G : Fence} {b m s s' : Store} {a : Handle}

/-- Where the nodes of a tree stay as they are, no new ones come to it. -/
theorem Whole.reaches_back (ha : Whole s a)
    (hkeep : ∀ x n, s.Reaches a x → s.node? x = some n → s'.node? x = some n) {x : Handle}
    (hx : s'.Reaches a x) : s.Reaches a x := by
  induction hx with
  | refl => exact .refl _ _
  | tail _ hstep ih =>
    obtain ⟨n, hn⟩ := isAlive_iff.1 (ha _ ih)
    exact ih.tail ((holds_iff hn).2 ((holds_iff (hkeep _ n ih hn)).1 hstep))

/-- A tree that is all there stays so where it is not touched. -/
theorem Whole.of_keeps (ha : Whole s a)
    (hkeep : ∀ x n, s.Reaches a x → s.node? x = some n → s'.node? x = some n) : Whole s' a := by
  intro x hx
  have hold := ha.reaches_back hkeep hx
  obtain ⟨n, hn⟩ := isAlive_iff.1 (ha x hold)
  exact isAlive_iff.2 ⟨n, hkeep x n hold hn⟩

/-- A tree without references is all there. -/
theorem Bare.whole (ha : Bare s a) : Whole s a := by
  intro x hx
  obtain ⟨n, hn, -⟩ := ha x hx
  exact isAlive_iff.2 ⟨n, hn⟩

/-- A tree without references stays so where it is not touched. -/
theorem Bare.of_keeps (ha : Bare s a)
    (hkeep : ∀ x n, s.Reaches a x → s.node? x = some n → s'.node? x = some n) : Bare s' a := by
  intro x hx
  have hold := ha.whole.reaches_back hkeep hx
  obtain ⟨n, hn, href⟩ := ha x hold
  exact ⟨n, hkeep x n hold hn, href⟩

/-- The content of a tree without references may come in everywhere. -/
theorem Bare.admitted (ha : Bare s a) {x : Shape} (hok : s.shape a = .ok x) : x.Admitted F := by
  refine admitted_of_closed (R := s.Reaches a) (fun y n hy hn => ?_) (.refl _ _) hok
  refine ⟨fun c hc => hy.tail ⟨n, hn, Or.inl hc⟩,
    fun g hg => hy.tail ⟨n, hn, Or.inr (by simp [Node.owned?, hg, Value.owned?])⟩,
    fun t ht => ?_⟩
  obtain ⟨n', hn', href⟩ := ha y hy
  obtain rfl := Option.some.inj (hn.symm.trans hn')
  exact absurd ht (href t)

/-- A tree behind a fence stays without references. -/
theorem Fenced.bare (hF : Fenced F b s) (ha : Bare b a)
    (hoff : ∀ x, b.Reaches a x → F.off x.index) : Bare s a :=
  ha.of_keeps fun x n hx hn => by rwa [hF.node?_off (fun hopen => hopen (hoff x hx))]

/-- A copy of what may be copied comes inside. -/
theorem Fenced.deepClone (hF : Fenced F b s) {h c : Handle} (hh : F.Copies b h)
    (hread : ∀ y, s.Reaches h y → s.Fixed y) (hok : s.deepClone h = .ok (c, s')) :
    Fenced F b s' ∧ F.Inside c := by
  obtain ⟨x, hx, hplant⟩ := hF.balanced.shape_of_deepClone hread hok
  have hadmitted : x.Admitted F := by
    rcases hh with hopen | ⟨hbare, hoff⟩
    · exact hF.shape hopen hx
    · exact (hF.bare hbare hoff).admitted hx
  simpa [hplant] using hF.plant hadmitted

/-- A fence within another: it has the same door, or keeps the door of the other off. -/
structure Within (F G : Fence) : Prop where
  off {i : Nat} : F.off i → G.off i
  door : G.door = F.door ∨ G.door = none ∧ ∀ d, F.door = some d → G.off d.index
  refs {h : Handle} : G.refs h → F.refs h

/-- What is inside of the narrower fence is inside of the wider one. -/
theorem Within.inside (hw : Within F G) {h : Handle} (hh : G.Inside h) : F.Inside h := by
  refine ⟨fun hoff => hh.1 (hw.off hoff), fun hdoor => ?_⟩
  rcases hw.door with hsame | ⟨-, hkept⟩
  · exact hh.2 (hdoor.trans hsame.symm)
  · exact hh.1 (hkept h hdoor.symm)

/-- A node that does not point out of the narrower fence does not out of the wider one. -/
theorem Within.contains (hw : Within F G) {h : Handle} {n : Node} (hn : G.Contains h n) :
    F.Contains h n := by
  refine ⟨fun hdoor p hp hoff => ?_, fun c hc => hw.inside (hn.children c hc), fun v hv => ?_⟩
  · refine hn.parent (fun hdoor' => ?_) p hp (hw.off hoff)
    rcases hw.door with hsame | ⟨hnone, -⟩
    · exact hdoor (hdoor'.trans hsame)
    · simp [hnone] at hdoor'
  · have hadmits := hn.value v hv
    cases v with
    | scalar _ => trivial
    | node g => exact hw.inside hadmits
    | ref g => exact hw.refs hadmits

/-- What has kept to an outer fence, and then to an inner one, has kept to the outer one. -/
theorem Fenced.widen (h₁ : Fenced F b m) (h₂ : Fenced G m s) (hw : Within F G) :
    Fenced F b s where
  balanced := h₂.balanced
  slots hi := (h₂.slots (hw.off hi)).trans (h₁.slots hi)
  size hi := h₂.size (hw.off hi)
  free hi hoff := h₂.free hi (hw.off hoff)
  door {d} hd := by
    obtain ⟨k, n, hk, hn, hname, hparent⟩ := h₁.door hd
    rcases hw.door with hsame | ⟨-, hkept⟩
    · obtain ⟨n', n'', hn', hn'', hname', hparent'⟩ := h₂.door (hsame.trans hd)
      obtain rfl := Option.some.inj (hn.symm.trans hn')
      exact ⟨k, n'', hk, hn'', hname'.trans hname, hparent'.trans hparent⟩
    · exact (h₁.door hd).of_node? (h₂.node?_off fun hopen => hopen (hkept d hd))
  nodes {x n} hx hn := by
    by_cases hopen : G.Open x
    · exact hw.contains (h₂.nodes hopen hn)
    · rw [h₂.node?_off hopen] at hn
      exact h₁.nodes hx hn

end Store

end TreeScript
