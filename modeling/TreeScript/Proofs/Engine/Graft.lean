import TreeScript.Proofs.Engine.Program
import TreeScript.Proofs.Engine.Steady
import TreeScript.Proofs.Engine.Succeeds
import TreeScript.Proofs.Store.Copies

/-!
# TreeScript — rows of copies

Copies of some trees become children of a node. Each bears the content of its original, all of its
nodes are new, and nothing else changes but the children of the node. This never fails where the
originals are all there and do not lead to the node.

* `Grafted`, `Grafted.later`, `Grafted.earlier` — what has come to a node, one graft after another;
* `Sprouted.grafted` — one copy;
* `cloneBehind_apply`, `cloneInFront_apply` — a row of them;
* `setAside_of_mapM` — a row of copies that are trees of their own;
* `Shape.withFront`, `Grafted.bears_front` — what the node bears then.
-/

namespace TreeScript

open Store Engine

variable {s t u : Store} {p c : Handle} {σ : Session} {f g : List Handle → List Handle}
  {clones clones' : List Handle} {contents contents' : List Shape}

-- ---------------------------------------------------------------------------
-- What has come to a node
-- ---------------------------------------------------------------------------

/-- New trees have come to a node as children, among others, and bear these contents. The row of
the children is made of the old one, and all other nodes are as they were. -/
structure Grafted (s : Store) (p : Handle) (row : List Handle → List Handle) (clones : List Handle)
    (contents : List Shape) (t : Store) : Prop where
  evolves : Evolves s t
  disciplined : Disciplined t
  target {n : Node} : s.node? p = some n → t.node? p = some { n with children := row n.children }
  keeps {x : Handle} {n : Node} : s.node? x = some n → x ≠ p → t.node? x = some n
  tops (x : Handle) : t.Top x ↔ s.Top x
  new : ∀ c ∈ clones, ∀ y, t.Reaches c y → Fresh s t y
  bears : List.Forall₂ (Bears t) clones contents

namespace Grafted

theorem isAlive (h : Grafted s p f clones contents t) {x : Handle} (hx : s.isAlive x = true) :
    t.isAlive x = true := by
  obtain ⟨n, hn⟩ := isAlive_iff.1 hx
  by_cases hp : x = p
  · subst hp
    exact isAlive_iff.2 ⟨_, h.target hn⟩
  · exact isAlive_iff.2 ⟨_, h.keeps hn hp⟩

/-- It matters only which children the node is told to have. -/
theorem congr (h : Grafted s p f clones contents t)
    (hrow : ∀ n, s.node? p = some n → f n.children = g n.children) :
    Grafted s p g clones contents t :=
  { h with target := fun hn => by rw [← hrow _ hn]; exact h.target hn }

/-- What a tree leads to that is all there, but not to the node, is seen as before. -/
theorem seen_eq (h : Grafted s p f clones contents t) {a : Handle} (ha : s.Whole a)
    (hfar : ¬ s.Reaches a p) : ∀ y, s.Reaches a y → t.seen y = s.seen y :=
  ha.seen_eq fun _ _ hy hn => h.keeps hn fun heq => hfar (heq ▸ hy)

/-- Trees that do not lead to the node bear their contents. -/
theorem bears_of_not_reaches (h : Grafted s p f clones contents t) {as : List Handle}
    {xs : List Shape} (has : List.Forall₂ (Bears s) as xs) (hfar : ∀ a ∈ as, ¬ s.Reaches a p) :
    List.Forall₂ (Bears t) as xs :=
  forall₂_bears_keep (fun a ha => h.seen_eq ((bearsAll_iff.2 has).whole a ha) (hfar a ha)) has

/-- They still do not lead to it. -/
theorem not_reaches (h : Grafted s p f clones contents t) {a : Handle} (ha : s.Whole a)
    (hfar : ¬ s.Reaches a p) : ¬ t.Reaches a p := by
  intro hreach
  refine hfar (ha.reaches_back (fun x n hx hn => ?_) hreach)
  exact h.keeps hn fun heq => hfar (heq ▸ hx)

/-- Trees of their own stay apart from the node. -/
theorem setAside (h : Grafted s p f clones contents t) {row : List Handle} {xs : List Shape}
    (hr : SetAside p row xs s) : SetAside p row xs t := by
  refine hr.of_keeps h.disciplined (fun c hc => ?_) fun c hc y n hy hn => ?_
  · exact (h.tops c).2 (hr.aside c hc).1
  · exact h.keeps hn fun heq => (hr.aside c hc).2 (heq ▸ hy)

/-- What has come before is there after a second graft. -/
theorem later (h₁ : Grafted s p f clones contents t) (h₂ : Grafted t p g clones' contents' u)
    (hp : s.isAlive p = true) : Grafted s p (g ∘ f) clones contents u := by
  have hwhole := (bearsAll_iff.2 h₁.bears).whole
  have hfar : ∀ c ∈ clones, ¬ t.Reaches c p := fun c hc hreach => by
    simp [(h₁.new c hc p hreach).1] at hp
  refine ⟨h₁.evolves.trans h₂.evolves, h₂.disciplined, fun hn => h₂.target (h₁.target hn),
    fun hn hx => h₂.keeps (h₁.keeps hn hx) hx, fun x => (h₂.tops x).trans (h₁.tops x),
    fun c hc y hy => ?_, h₂.bears_of_not_reaches h₁.bears hfar⟩
  have hold := (hwhole c hc).reaches_back
    (fun _ _ hx hn => h₂.keeps hn fun heq => hfar c hc (heq ▸ hx)) hy
  exact ⟨(h₁.new c hc y hold).1, h₂.isAlive (h₁.new c hc y hold).2⟩

/-- What comes by a second graft has come since the first. -/
theorem earlier (h₁ : Grafted s p f clones contents t) (h₂ : Grafted t p g clones' contents' u) :
    Grafted s p (g ∘ f) clones' contents' u where
  evolves := h₁.evolves.trans h₂.evolves
  disciplined := h₂.disciplined
  target hn := h₂.target (h₁.target hn)
  keeps hn hx := h₂.keeps (h₁.keeps hn hx) hx
  tops x := (h₂.tops x).trans (h₁.tops x)
  new c hc y hy := ⟨isAlive_eq_false_of_keeps (fun _ => h₁.isAlive) (h₂.new c hc y hy).1,
    (h₂.new c hc y hy).2⟩
  bears := h₂.bears

theorem append (h₁ : Grafted s p f clones contents t) (h₂ : Grafted s p f clones' contents' t) :
    Grafted s p f (clones ++ clones') (contents ++ contents') t := by
  refine { h₁ with new := fun c hc => ?_, bears := List.rel_append h₁.bears h₂.bears }
  rcases List.mem_append.1 hc with hc | hc
  · exact h₁.new c hc
  · exact h₂.new c hc

theorem nil (hd : Disciplined s) : Grafted s p id [] [] s :=
  ⟨.refl s, hd, id, fun hn _ => hn, fun _ => Iff.rfl, by simp, .nil⟩

end Grafted

-- ---------------------------------------------------------------------------
-- One copy
-- ---------------------------------------------------------------------------

/-- A tree that has come in is put below a node. -/
theorem Store.Sprouted.grafted {x : Shape} {n : Node} {i : Nat} (hc : Sprouted s c t)
    (ht : Since s ({ b | s.Top b } ∪ {c}) t) (hx : Bears t c x) (hn : s.node? p = some n)
    (hi : i ≤ n.children.length) (hu : Unwrapped (t.link p i c)) :
    Grafted s p (fun cs => cs.insertIdx i c) [c] [x] (t.link p i c) := by
  have hp : s.isAlive p = true := isAlive_iff.2 ⟨n, hn⟩
  have hne : p ≠ c := hc.ne hp
  have hlinked := ht.link (hc.keeps hn) (Or.inr rfl) (hc.not_reaches hp)
    (by simp [hc.fresh_root.1]) hi hu
  have hview := node?_link (s := t) hne i
  -- linking changes one node, the new parent, and the clone does not lead to it
  have hnew : ∀ y, t.Reaches c y → (t.link p i c).seen y = t.seen y := fun y hy => by
    have hyp : y ≠ p := by
      rintro rfl
      exact hc.not_reaches hp hy
    rw [seen, seen, hview]
    cases t.node? y with
    | none => rfl
    | some k => simp [hyp]
  -- so below the clone nothing is reached that was not reached before
  have hback : ∀ y, (t.link p i c).Reaches c y → t.Reaches c y := fun y hy => by
    refine hy.transfer (P := fun z => z = p) (fun z hz heq => hc.not_reaches hp (heq ▸ hz)) ?_
    intro z w hz hzw
    rcases (holds_link (hc.keeps hn) hne hi _ _).1 hzw with hzw | ⟨rfl, -⟩
    · exact hzw
    · exact absurd rfl hz
  refine ⟨hlinked.evolves, hlinked.disciplined, fun hn' => ?_, fun {y k} hy hyp => ?_,
    fun y => ?_, ?_, .cons (hx.keep hnew) .nil⟩
  · rw [hview, hc.keeps hn']
    simp [hne]
  · have hyc : y ≠ c := hc.ne (isAlive_iff.2 ⟨k, hy⟩)
    rw [hview, hc.keeps hy]
    simp [hyp, hyc]
  · rw [hlinked.tops]
    -- the clone was on top and is a child now; the others on top stay there
    have hroot := hc.fresh_root.1
    constructor
    · rintro ⟨hy | hy, hne⟩
      · exact hy
      · exact absurd hy hne
    · refine fun hy => ⟨Or.inl hy, fun heq => ?_⟩
      have halive := hy.1
      rw [show y = c from heq, hroot] at halive
      simp at halive
  · intro d hd y hy
    obtain rfl := List.mem_singleton.1 hd
    have hfresh := hc.new (hback y hy)
    exact ⟨hfresh.1, by rw [isAlive_link]; exact hfresh.2⟩

/-- A copy of a node that bears a content, when it has been made. -/
theorem Store.Bears.sprouted {a : Handle} {x : Shape} (hx : Bears s a x) (hd : Disciplined s) :
    s.deepClone a = .ok (s.plant x) ∧ Sprouted s (s.plant x).1 (s.plant x).2 ∧
      Bears (s.plant x).2 (s.plant x).1 x ∧ Linked (s.plant x).2 :=
  ⟨hx.deepClone hd.balanced, hd.balanced.sprouted_plant x, hd.balanced.bears_plant x,
    hd.linked.plant hd.balanced x (Or.inr hd.live)⟩

/-- It may be put below every old node. -/
theorem Store.Sprouted.wouldCycle (hc : Sprouted s c t) (hl : Linked t) (hp : s.isAlive p = true) :
    t.wouldCycle p c = false := by
  refine Bool.eq_false_iff.2 fun hcycle => ?_
  exact hc.not_reaches hp (reaches_of_up hl (hl.wouldCycle_iff.1 hcycle))

/-- A new tree can be moved below a node that was there. -/
theorem Store.Sprouted.moveBelow (hc : Sprouted s c t) (hp : s.isAlive p = true) (i : Nat) :
    t.moveBelow p i c = .ok (t.link p (min i (t.childList p).length) c) := by
  have hroot := hc.parent?_root
  simp [Store.moveBelow, targetIndex, hroot, detach_eq_self hroot, hc.isAlive hp, hc.fresh_root.2]

/-- A copy is made and put below a node. -/
theorem graft_apply {a : Handle} {x : Shape} {n : Node} {i : Nat} (hd : Disciplined σ.nodes)
    (hx : Bears σ.nodes a x) (hn : σ.nodes.node? p = some n) (hi : i ≤ n.children.length) :
    ∃ c t, (Engine.deepClone a >>= fun c => Engine.insert p i c) σ =
        .ok () { σ with nodes := t } ∧ (Unwrapped t →
      Grafted σ.nodes p (fun cs => cs.insertIdx i c) [c] [x] t) := by
  obtain ⟨hclone, hc, hbears, hl⟩ := hx.sprouted hd
  have hp : σ.nodes.isAlive p = true := isAlive_iff.2 ⟨n, hn⟩
  have hi' : min i ((σ.nodes.plant x).2.childList p).length = i := by
    rw [childList_eq (hc.keeps hn)]
    exact Nat.min_eq_left hi
  have hmove := hc.moveBelow hp i
  rw [hi'] at hmove
  refine ⟨(σ.nodes.plant x).1, (σ.nodes.plant x).2.link p i (σ.nodes.plant x).1, ?_, fun hu =>
    hc.grafted ((Since.refl hd).plant x ((Evolves.link _ _ _ _).unwrapped hu)) hbears hn hi hu⟩
  have hrun : Engine.deepClone a σ =
      .ok (σ.nodes.plant x).1 { σ with nodes := (σ.nodes.plant x).2 } := by
    rw [Engine.deepClone, Engine.change, hclone]
  rw [bind_of_ok hrun, insert_eq, nodes_bind_apply, if_neg (by simp [hc.wouldCycle hl hp]),
    Engine.edit, Engine.change, hmove]
  rfl

-- ---------------------------------------------------------------------------
-- Rows of copies
-- ---------------------------------------------------------------------------

/-- To append is to insert behind the last child. -/
theorem append_eq_insert {n : Node} (hn : σ.nodes.node? p = some n) (c : Handle) :
    Engine.append p c σ = Engine.insert p n.children.length c σ := by
  rw [append_eq, nodes_bind_apply, Store.childCount, Store.node, hn]
  rfl

/-- Copying a row behind the children of a node never fails, and adds nothing but the copies. -/
theorem cloneBehind_apply {args : List Handle} (hd : Disciplined σ.nodes)
    (hp : σ.nodes.isAlive p = true) (hargs : List.Forall₂ (Bears σ.nodes) args contents)
    (hfar : ∀ a ∈ args, ¬ σ.nodes.Reaches a p)
    (hu : Unwrapped ((cloneBehind p args).after σ)) :
    ∃ clones t, cloneBehind p args σ = .ok () { σ with nodes := t } ∧
      Grafted σ.nodes p (· ++ clones) clones contents t := by
  induction args generalizing σ contents with
  | nil =>
    obtain rfl := List.forall₂_nil_left_iff.1 hargs
    exact ⟨[], σ.nodes, rfl, (Grafted.nil hd).congr fun _ _ => by simp⟩
  | cons a rest ih =>
    obtain ⟨x, xs, hx, hrest, rfl⟩ := List.forall₂_cons_left_iff.1 hargs
    obtain ⟨hback, hfar⟩ := List.forall_mem_cons.1 hfar
    obtain ⟨n, hn⟩ := isAlive_iff.1 hp
    obtain ⟨c, t, hrun, hgraft⟩ := graft_apply hd hx hn (le_refl n.children.length)
    -- one clone is appended, then the others in the store that this leaves
    have hstep : cloneBehind p (a :: rest) σ = cloneBehind p rest { σ with nodes := t } := by
      have hone : (Engine.deepClone a >>= fun c => Engine.append p c) σ =
          .ok () { σ with nodes := t } := by
        rw [← hrun, bind_apply, bind_apply]
        cases hclone : Engine.deepClone a σ with
        | error e τ => rfl
        | ok c τ =>
          obtain ⟨t', hok, rfl⟩ := change_eq_ok hclone
          exact append_eq_insert ((hd.balanced.deepClone hok).keeps hn) c
      rw [cloneBehind, ← bind_assoc, bind_of_ok hone]
    rw [Engine.after, hstep] at hu
    have hevolves := (ensures_cloneBehind (F := Fence.wide) (b := t) (s := t) (T := ∅) p rest
      (E := fun _ => True)).evolves { σ with nodes := t }
    have hone := hgraft (hevolves.unwrapped hu)
    -- the arguments still bear what they did, since none leads to the new parent
    obtain ⟨clones, u, hmore, hlast⟩ := @ih { σ with nodes := t } xs hone.disciplined
      (hone.isAlive hp) (hone.bears_of_not_reaches hrest hfar) (fun b hb =>
        hone.not_reaches ((bearsAll_iff.2 hrest).whole b hb) (hfar b hb)) hu
    refine ⟨c :: clones, u, by rw [hstep, hmore], ?_⟩
    refine ((hone.later hlast hp).append (hone.earlier hlast)).congr fun k hk => ?_
    obtain rfl := Option.some.inj (hn.symm.trans hk)
    simp

/-- Copying a row in front of the children of a node never fails, and adds nothing but the
copies. -/
theorem cloneInFront_apply {args : List Handle} (hd : Disciplined σ.nodes)
    (hp : σ.nodes.isAlive p = true) (hargs : List.Forall₂ (Bears σ.nodes) args contents)
    (hfar : ∀ a ∈ args, ¬ σ.nodes.Reaches a p)
    (hu : Unwrapped ((cloneInFront p args).after σ)) :
    ∃ clones t, cloneInFront p args σ = .ok () { σ with nodes := t } ∧
      Grafted σ.nodes p (clones ++ ·) clones contents t := by
  induction hargs with
  | nil => exact ⟨[], σ.nodes, rfl, (Grafted.nil hd).congr fun _ _ => by simp⟩
  | @cons a x rest xs hx hrest ih =>
    obtain ⟨hback, hfar⟩ := List.forall_mem_cons.1 hfar
    have hevolves := evolves_after_bind (x := cloneInFront p rest) (σ := σ)
      (f := fun _ => Engine.deepClone a >>= fun c => Engine.insert p 0 c) fun _ =>
        (ensures_graftFirst (F := Fence.wide) (b := σ.nodes) (s := σ.nodes) (T := ∅) (P := fun _ => False)
          (Q := fun _ _ => True) (E := fun _ => True) (fun _ h => h.elim) (fun _ h => h.elim)
          fun _ h => h.elim).evolves
    -- the later arguments come first, so that each is put in front of them
    obtain ⟨clones, t, hmore, hrow⟩ := ih hfar (hevolves.unwrapped hu)
    obtain ⟨n, hn⟩ := isAlive_iff.1 (hrow.isAlive hp)
    have hx' := hrow.bears_of_not_reaches (.cons hx .nil) (by simpa using hback)
    obtain ⟨c, u, hrun, hgraft⟩ := graft_apply (σ := { σ with nodes := t }) hrow.disciplined
      (List.forall₂_cons.1 hx').1 hn (Nat.zero_le _)
    have hstep : cloneInFront p (a :: rest) σ = .ok () { σ with nodes := u } := by
      rw [cloneInFront, bind_of_ok hmore, hrun]
    rw [Engine.after, hstep] at hu
    exact ⟨c :: clones, u, hstep,
      (((hrow.earlier (hgraft hu))).append (hrow.later (hgraft hu) hp)).congr fun k _ => by simp⟩

/-- Copies of a row that are kept for later. -/
theorem setAside_of_mapM {args row : List Handle} {d : Handle} {τ : Session}
    (hd : Disciplined σ.nodes) (hh : σ.nodes.isAlive d = true)
    (hargs : List.Forall₂ (Bears σ.nodes) args contents)
    (hrun : args.mapM Engine.deepClone σ = .ok row τ) (hu : Unwrapped τ.nodes) :
    SetAside d row contents τ.nodes ∧ Evolves σ.nodes τ.nodes ∧
      (∀ {x n}, σ.nodes.node? x = some n → τ.nodes.node? x = some n) ∧
      ∀ {x}, σ.nodes.Top x → τ.nodes.Top x := by
  induction args generalizing σ row contents with
  | nil =>
    obtain rfl := List.forall₂_nil_left_iff.1 hargs
    have hpure : (EStateM.Result.ok [] σ : EStateM.Result Halt Session _) = .ok row τ := hrun
    injection hpure with hrow hτ
    subst hrow hτ
    exact ⟨⟨hd, by simp, .nil⟩, .refl _, id, id⟩
  | cons a rest ih =>
    obtain ⟨x, xs, hax, hrest, rfl⟩ := List.forall₂_cons_left_iff.1 hargs
    rw [List.mapM_cons] at hrun
    obtain ⟨c, σ₁, hmade, hrun⟩ := bind_eq_ok hrun
    obtain ⟨cs, σ₂, hmore, hrun⟩ := bind_eq_ok hrun
    injection hrun with hrow hτ
    subst hrow hτ
    obtain ⟨s₁, hclone, rfl⟩ := change_eq_ok hmade
    have hu₁ : Unwrapped s₁ := (Steady.evolves_of_ok hmore).unwrapped hu
    have hsprouted := hd.balanced.sprouted_deepClone hclone
    have hsince := (Since.refl hd).deepClone hclone hu₁
    -- the arguments to come bear what they did, as a clone changes nothing that was there
    have hothers : List.Forall₂ (Bears s₁) rest xs := forall₂_bears_keep (fun b hb =>
      ((bearsAll_iff.2 hrest).whole b hb).seen_eq fun _ _ _ hn => hsprouted.keeps hn) hrest
    obtain ⟨n, hn⟩ := isAlive_iff.1 hh
    obtain ⟨haside, hevolves, hkeeps, htops⟩ := @ih { σ with nodes := s₁ } xs cs hsince.disciplined
      (isAlive_iff.2 ⟨n, hsprouted.keeps hn⟩) hothers hmore
    -- what the clone bears is what its original bore, which is told by one shape only
    have hcx : Bears s₁ c x := by
      obtain ⟨y, hay, hcy⟩ := hd.bears_deepClone hclone hu₁
      rwa [hax.unique hay]
    refine ⟨⟨haside.disciplined, List.forall_mem_cons.2
      ⟨⟨htops (hsince.top (Or.inr rfl)), fun hreach => hsprouted.not_reaches hh
        (hcx.whole.reaches_back (fun y n _ hn => hkeeps hn) hreach)⟩, haside.aside⟩,
      .cons (hcx.of_keeps fun _ _ _ hn => hkeeps hn) haside.bears⟩, hsprouted.evolves.trans hevolves,
      fun hn => hkeeps (hsprouted.keeps hn), fun hx => htops (hsince.top (Or.inl hx))⟩

-- ---------------------------------------------------------------------------
-- What the node bears
-- ---------------------------------------------------------------------------

/-- A content with more contents in front of the children. -/
def Shape.withFront (xs : List Shape) : Shape → Shape
  | .plain name value children => .plain name value (xs ++ children)
  | .holder name nested children => .holder name nested (xs ++ children)
  | .pointer name target children => .pointer name target (xs ++ children)

/-- What the node leads to then, it led to before, or a copy leads to it. -/
theorem Grafted.reaches_target (h : Grafted s p (clones ++ ·) clones contents t) (hp : s.Whole p)
    {y : Handle} (hy : t.Reaches p y) : s.Reaches p y ∨ ∃ c ∈ clones, t.Reaches c y := by
  induction hy with
  | refl => exact Or.inl (.refl _ _)
  | @tail y z _ hstep ih =>
    rcases ih with hold | ⟨c, hc, hcy⟩
    · obtain ⟨n, hn⟩ := isAlive_iff.1 (hp y hold)
      by_cases hyp : y = p
      · subst hyp
        obtain ⟨m, hm, hz⟩ := hstep
        obtain rfl := Option.some.inj ((h.target hn).symm.trans hm)
        rcases hz with hz | hz
        · rcases List.mem_append.1 hz with hz | hz
          · exact Or.inr ⟨z, hz, .refl _ _⟩
          · exact Or.inl (hold.tail ⟨n, hn, Or.inl hz⟩)
        · exact Or.inl (hold.tail ⟨n, hn, Or.inr hz⟩)
      · rw [holds_iff (h.keeps hn hyp), ← holds_iff hn] at hstep
        exact Or.inl (hold.tail hstep)
    · exact Or.inr ⟨c, hc, hcy.tail hstep⟩

/-- A node that bore a content before bears it with the others in front. -/
theorem Grafted.bears_front {x : Shape} (hs : Disciplined s) (hx : Bears s p x)
    (h : Grafted s p (clones ++ ·) clones contents t) : Bears t p (x.withFront contents) := by
  have hkeep : ∀ {a y}, s.Holds p a → Bears s a y → Bears t a y := fun {a y} ha hy =>
    hy.keep (h.seen_eq hy.whole (hs.not_reaches_holder ha))
  have hall : ∀ {n : Node} {ys}, s.node? p = some n → BearsAll s n.children ys →
      BearsAll t (clones ++ n.children) (contents ++ ys) := fun {n ys} hn hys => by
    refine bearsAll_iff.2 (List.rel_append h.bears ?_)
    exact forall₂_bears_keep (fun a ha => h.seen_eq (hys.whole a ha)
      (hs.not_reaches_holder ⟨n, hn, Or.inl ha⟩)) (bearsAll_iff.1 hys)
  cases x with
  | plain name value children =>
    obtain ⟨n, hn, hname, hv, hys⟩ := hx
    exact ⟨_, h.target hn, hname, hv, hall hn hys⟩
  | holder name nested children =>
    obtain ⟨n, g, hn, hname, hv, hg, hys⟩ := hx
    have hown : s.Holds p g := ⟨n, hn, Or.inr (by rw [Node.owned?, hv]; rfl)⟩
    exact ⟨_, g, h.target hn, hname, hv, hkeep hown hg, hall hn hys⟩
  | pointer name target children =>
    obtain ⟨n, hn, hname, hv, hys⟩ := hx
    exact ⟨_, h.target hn, hname, hv, hall hn hys⟩

end TreeScript
