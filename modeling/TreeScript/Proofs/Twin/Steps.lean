import TreeScript.Proofs.Twin.Agree

/-!
# TreeScript — the same step on both sides

The steps of the engine, made at nodes that stand for each other, come to the same in sessions
that say the same. Each is an operation on slots as well, so steps may follow each other.

* `Keeps` — an edit that leaves the links of a store in order;
* `agree_insert`, `agree_append` — moving;
* `agree_detach`, `agree_remove`, `agree_clear`, `agree_stripReturn`, `agree_signal`,
  `agree_clearSignal` — freeing, and signals;
* `agree_setValue`, `agree_takeValue` — values;
* `agree_create`, `agree_add`, `agree_deepClone`, `agree_load` — new nodes.
-/

namespace TreeScript

open Store Paired

variable {ρ : Pairing} {s t : Store} {a b a' b' : Handle}

namespace Store

/-- An edit that leaves the links of a store in order. -/
def Keeps (s : Store) (x : Except Fault Store) : Prop :=
  ∀ s', x = .ok s' → Unwrapped s' → Evolves s s' ∧ Linked s'

/-- A node that leaves its parent leaves the links in order. -/
theorem Linked.keeps_detach (hs : Linked s) (h : Handle) : Keeps s (.ok (s.detach h)) := by
  rintro _ hok _
  obtain rfl := Except.ok.inj hok
  exact ⟨.detach _ _, hs.detach h⟩

theorem Linked.keeps_remove (hs : Linked s) (h : Handle) : Keeps s (.ok (s.remove h)) := by
  rintro _ hok hu
  obtain rfl := Except.ok.inj hok
  exact ⟨.remove _ _, hs.remove h (.inl hu)⟩

/-- Clearing a node leaves the links in order. -/
theorem Linked.keeps_clear (hs : Linked s) (h : Handle) : Keeps s (s.clear h) := by
  intro s' hok hu
  exact ⟨.clear hok, hs.clear hok (.inl hu)⟩

/-- A new value leaves the links in order. -/
theorem Linked.keeps_setValue (hs : Linked s) (h : Handle) (v : Option Value) :
    Keeps s (s.setValue h v) := by
  intro s' hok hu
  obtain ⟨-, rfl⟩ := setValue_eq_ok hok
  exact ⟨.assign _ _ _, hs.assign h v (.inl hu)⟩

/-- Taking a return away leaves the links in order. -/
theorem Linked.keeps_stripReturn (hs : Linked s) (h : Handle) : Keeps s (s.stripReturn h) := by
  intro s' hok hu
  rcases stripReturn_eq_ok hok with rfl | ⟨first, -, rfl⟩
  · exact ⟨.refl _, hs⟩
  · exact ⟨.remove _ _, hs.remove first (.inl hu)⟩

/-- A move leaves the links in order unless it would close a circle. -/
theorem Linked.keeps_moveBelow (hs : Linked s) {p c : Handle} (hcycle : s.wouldCycle p c = false)
    (i : Nat) : Keeps s (s.moveBelow p i c) := by
  intro s' hok _
  refine ⟨.moveBelow hok, hs.moveBelow hok fun hup => ?_⟩
  rw [hs.wouldCycle_iff.2 hup] at hcycle
  simp at hcycle

/-- A new node may be moved below a root. -/
theorem Sound.keeps_moveBelow_create (hs : Sound s) {name : String}
    (hu : Unwrapped (s.create name none).2) {h r : Handle} (hr : s.root? h = some r) (i : Nat) :
    Keeps (s.create name none).2
      ((s.create name none).2.moveBelow r i (s.create name none).1) := by
  have hnew := hs.balanced.not_issued_allocate ((Evolves.create _ _ _).unwrapped hu) { name }
  have hne : r ≠ (s.create name none).1 := fun heq =>
    hnew (heq ▸ .inr (hs.linked.isAlive_root? hr))
  have hold : (s.create name none).2.node? r = s.node? r := by
    show (s.allocate { name }).2.node? r = _
    rw [hs.balanced.node?_allocate]
    exact if_neg hne
  have hlinked := (hs.create name none hu).linked
  refine hlinked.keeps_moveBelow (Bool.eq_false_iff.2 fun hcycle => ?_) i
  -- the new node is neither the root nor above it
  rcases Relation.ReflTransGen.cases_head (hlinked.wouldCycle_iff.1 hcycle) with heq | ⟨p, hp, -⟩
  · exact hne heq
  · obtain ⟨m, hm, hparent⟩ := childOf_iff.1 hp
    obtain ⟨-, -, hroot⟩ := hs.linked.root?_eq_some_iff.1 hr
    rw [hold] at hm
    simp [Store.parent?, hm, hparent] at hroot

/-- A new node below one that is there. -/
theorem Balanced.add_eq (hs : Balanced s) {p : Handle} (name : String) (v : Option Value)
    (hp : s.isAlive p = true) : s.add p name v =
      .ok ((s.create name v).1, (s.create name v).2.linkLast p (s.create name v).1) := by
  have hstay : (s.create name v).2.isAlive p = true := by
    have halloc : (s.allocate { name }).2.isAlive p = true := by
      obtain ⟨n, hn⟩ := isAlive_iff.1 hp
      rw [Store.isAlive, hs.node?_allocate]
      split
      · rfl
      · rw [hn]; rfl
    cases v with
    | none => exact halloc
    | some v =>
      rw [hs.create_eq_write]
      unfold Store.write
      split <;> simpa using halloc
  rw [Store.add, if_pos hp]
  exact if_pos hstay

/-- Steps that have come to the same from a larger pairing have from a smaller one. -/
theorem Stepped.weaken {α : Type} [Paired α] {ρ₀ : Pairing} (hle : ρ₀ ≤ ρ)
    {x y : Except Fault (α × Store)} (h : Stepped ρ x y) : Stepped ρ₀ x y := by
  cases h with
  | left => exact .left _
  | right => exact .right _
  | ok hle' hxy hst => exact .ok (hle.trans hle') hxy hst
  | error e => exact .error e

namespace Alike

/-- Stores that say the same after an edit that pairs no nodes. -/
theorem kept {s' t' : Store} (h : Alike ρ s t) (htwins : Twins ρ s' t')
    (hs : Evolves s s' ∧ Linked s') (ht : Evolves t t' ∧ Linked t') (hu : Unwrapped s')
    (hu' : Unwrapped t') : Alike ρ s' t' :=
  h.later hs.1 ht.1 hu hu' htwins (fun _ _ => .inl) ⟨hs.1.balanced h.left.balanced, hs.2⟩
    ⟨ht.1.balanced h.right.balanced, ht.2⟩

/-- An edit of the links that pairs no nodes, as a step. -/
theorem edited (h : Alike ρ s t) {x y : Except Fault Store} (hxy : Twins.Edited ρ x y)
    (hx : Keeps s x) (hy : Keeps t y) (hu : ∀ s', x = .ok s' → Unwrapped s')
    (hu' : ∀ t', y = .ok t' → Unwrapped t') :
    Stepped ρ (x.map fun s => ((), s)) (y.map fun t => ((), t)) := by
  cases hxy with
  | error e => exact .error e
  | @ok s' t' htwins =>
    have hus := hu s' rfl
    have hut := hu' t' rfl
    exact .ok (le_refl ρ) (rfl : () = ()) (h.kept htwins (hx s' rfl hus) (hy t' rfl hut) hus hut)

/-- Stores that say the same still do when nodes that stand for each other have been removed. -/
theorem remove (h : Alike ρ s t) (hab : ρ a b) (hu : Unwrapped (s.remove a))
    (hu' : Unwrapped (t.remove b)) : Alike ρ (s.remove a) (t.remove b) :=
  h.kept (h.toTwins.remove hab) (h.left.linked.keeps_remove a _ rfl hu)
    (h.right.linked.keeps_remove b _ rfl hu') hu hu'

/-- The values that are taken say the same, and none is left on either side. -/
theorem takeValue (h : Alike ρ s t) (hab : ρ a b) (hu : Fits (s.takeValue a))
    (hu' : Fits (t.takeValue b)) : Stepped ρ (s.takeValue a) (t.takeValue b) := by
  have hnode := h.node? hab
  have htwins := h.modifyValue hab (v := none) (w := none) .none
  have hkept : ∀ {u : Store} (x : Handle), Linked u →
      Evolves u (u.modify x fun n => { n with value := none }) ∧
        Linked (u.modify x fun n => { n with value := none }) := fun x hl =>
    ⟨.modify _ _ _, hl.modify x (fun _ => rfl) fun _ => rfl⟩
  rw [Store.takeValue, Store.takeValue, Store.node, Store.node] at *
  generalize s.node? a = n, t.node? b = m at *
  cases hnode with
  | none => exact .error _
  | some hnm =>
    exact .ok (le_refl ρ) (Node.Same.value hnm) (h.kept htwins (hkept a h.left.linked)
      (hkept b h.right.linked) (hu _ _ rfl) (hu' _ _ rfl))

/-- A signal is raised on both sides. That it can be raised tells how large the stores are in
which its sentinel is new. -/
theorem signal (h : Alike ρ s t) (hab : ρ a b) (c : Control)
    (hu : ∀ s', s.signal a c = .ok s' → Unwrapped s')
    (hu' : ∀ t', t.signal b c = .ok t' → Unwrapped t') :
    Stepped ρ ((s.signal a c).map fun s => ((), s)) ((t.signal b c).map fun t => ((), t)) := by
  have hroots := h.root? h.left.linked h.right.linked hab
  have hstay : Stepped ρ ((Except.ok s).map fun s => ((), s)) ((Except.ok t).map fun t => ((), t)) :=
    .ok (le_refl ρ) (rfl : () = ()) h
  -- a signal without a sentinel is not raised anywhere
  cases hname : c.sentinel? with
  | none =>
    have hsame : ∀ (u : Store) (x : Handle), u.signal x c = .ok u := fun u x => by
      rw [Store.signal, hname]
      cases u.root? x <;> rfl
    rw [hsame, hsame]
    exact hstay
  | some name =>
    cases hr : s.root? a with
    | none =>
      rw [hr] at hroots
      cases hq : t.root? b with
      | some q => rw [hq] at hroots; cases hroots
      | none =>
        rw [Store.signal, Store.signal, hr, hq]
        exact hstay
    | some r =>
      -- each side makes its sentinel and moves it below its root, which are two edits
      obtain ⟨q, hq, hrq⟩ := hroots.some_right hr
      have hraised : ∀ {u : Store} {x z : Handle}, Sound u → u.root? x = some z →
          u.signal x c = (u.create name none).2.moveBelow z 0 (u.create name none).1 ∧
            ∃ u', (u.create name none).2.moveBelow z 0 (u.create name none).1 = .ok u' := by
        intro u x z hsound hz
        have halive := hsound.balanced.isAlive_create name (v := none) (by simp)
        exact ⟨by rw [Store.signal, hz, hname], moveBelow_isOk
          ((halive z).2 (.inl (hsound.linked.isAlive_root? hz))) ((halive _).2 (.inr rfl)) 0⟩
      obtain ⟨hs, s', hs'⟩ := hraised h.left hr
      obtain ⟨ht, t', ht'⟩ := hraised h.right hq
      rw [hs] at hu ⊢
      rw [ht] at hu' ⊢
      have hus := (Evolves.moveBelow hs').unwrapped (hu _ hs')
      have hut := (Evolves.moveBelow ht').unwrapped (hu' _ ht')
      have hmade := h.create name (v := none) (w := none) .none hus hut
      refine (hmade.edited ?_ (h.left.keeps_moveBelow_create hus hr 0)
        (h.right.keeps_moveBelow_create hut hq 0) hu hu').weaken (Pairing.le_with _ _ _)
      exact hmade.moveBelow (Pairing.le_with _ _ _ _ _ hrq) (Pairing.with_self _ _ _) 0

/-- The signal that stands in front is removed on both sides. -/
theorem clearSignal (h : Alike ρ s t) (hab : ρ a b) (hu : Fits (s.clearSignal a))
    (hu' : Fits (t.clearSignal b)) : Stepped ρ (s.clearSignal a) (t.clearSignal b) := by
  have hfront := h.frontOf? h.left.linked h.right.linked hab
  rw [Store.clearSignal, Store.clearSignal] at *
  generalize s.frontOf? a = f, t.frontOf? b = g at *
  cases hfront with
  | none => exact .ok (le_refl ρ) (Plain.refl _) h
  | @some f g hfg =>
    -- the first child of the root is the same signal on both sides, or none
    have hname := h.name hfg
    simp only at hu hu' ⊢
    generalize s.name f = n, t.name g = m at *
    cases hname with
    | left => exact .left _
    | right => exact .right _
    | error e => exact .error e
    | @ok n m hnm =>
      obtain rfl := Plain.eq hnm
      refine .ok (le_refl ρ) (Plain.refl (Control.ofName n)) ?_
      have hfit : Unwrapped (if (Control.ofName n).isActive then s.remove f else s) := hu _ _ rfl
      have hfit' : Unwrapped (if (Control.ofName n).isActive then t.remove g else t) := hu' _ _ rfl
      cases hactive : (Control.ofName n).isActive with
      | true =>
        rw [hactive] at hfit hfit'
        exact h.remove hfg hfit hfit'
      | false => exact h

/-- A new node is made below nodes that stand for each other. -/
theorem add (h : Alike ρ s t) (hab : ρ a b) (name : String) {v w : Option Value}
    (hvw : Matches ρ v w) (hu : Fits (s.add a name v)) (hu' : Fits (t.add b name w)) :
    Stepped ρ (s.add a name v) (t.add b name w) := by
  -- below a removed node nothing is made on either side
  cases hlive : s.isAlive a with
  | false =>
    have hgone : ∀ {u : Store} {x : Handle} {v : Option Value}, u.isAlive x = false →
        u.add x name v = .error .stale := fun hx => by rw [Store.add, hx]; rfl
    rw [hgone hlive, hgone ((h.isAlive hab).symm.trans hlive)]
    exact .error _
  | true =>
    have hmakes := fun {u : Store} {x : Handle} (v : Option Value) (hsound : Sound u)
        (hx : u.isAlive x = true) => hsound.balanced.add_eq name v hx
    have hs := hmakes v h.left hlive
    have ht := hmakes w h.right ((h.isAlive hab).symm.trans hlive)
    have hus := hu _ _ hs
    have hut := hu' _ _ ht
    have hmade := h.create name hvw ((Evolves.link _ _ _ _).unwrapped hus)
      ((Evolves.link _ _ _ _).unwrapped hut)
    have hpair := Pairing.le_with ρ (s.create name v).1 (t.create name w).1 _ _ hab
    have htwins := hmade.link hpair (Pairing.with_self ρ _ _)
      ((s.create name v).2.childList a).length
    rw [hs, ht]
    refine .ok (Pairing.le_with _ _ _) (Pairing.with_self ρ _ _) (hmade.kept ?_
      ⟨.link _ _ _ _, h.left.linked.add h.left.balanced hs (.inl hus)⟩
      ⟨.link _ _ _ _, h.right.linked.add h.right.balanced ht (.inl hut)⟩ hus hut)
    rw [Store.linkLast, Store.linkLast, ← Paired.Matches.length (hmade.childList hpair)]
    exact htwins

end Alike

end Store

-- ---------------------------------------------------------------------------
-- Edits of the engine
-- ---------------------------------------------------------------------------

namespace Engine

theorem fits_map {x : Except Fault Store} (h : Fits (x.map fun s => ((), s))) :
    ∀ s', x = .ok s' → Unwrapped s' := by
  intro s' hx
  exact h () s' (by rw [hx]; rfl)

/-- An edit that pairs no nodes. -/
theorem Agree.edit {f g : Store → Except Fault Store} (hfg : ∀ s t, Store.Alike ρ s t →
    Twins.Edited ρ (f s) (g t) ∧ Keeps s (f s) ∧ Keeps t (g t)) :
    Agree ρ (Engine.edit f) (Engine.edit g) := by
  refine .change fun s t hst hu hu' => ?_
  obtain ⟨hedited, hs, ht⟩ := hfg s t hst
  exact hst.edited hedited hs ht (fits_map hu) (fits_map hu')

theorem agree_detach (hab : ρ a b) : Agree ρ (Engine.detach a) (Engine.detach b) :=
  .edit fun _ _ hst => ⟨.ok (hst.toTwins.detach hab), hst.left.linked.keeps_detach a,
    hst.right.linked.keeps_detach b⟩

theorem agree_remove (hab : ρ a b) : Agree ρ (Engine.remove a) (Engine.remove b) :=
  .edit fun _ _ hst => ⟨.ok (hst.toTwins.remove hab), hst.left.linked.keeps_remove a,
    hst.right.linked.keeps_remove b⟩

theorem agree_clear (hab : ρ a b) : Agree ρ (Engine.clear a) (Engine.clear b) :=
  .edit fun _ _ hst => ⟨hst.toTwins.clear hab, hst.left.linked.keeps_clear a,
    hst.right.linked.keeps_clear b⟩

theorem agree_setValue (hab : ρ a b) {v w : Option Value} (hvw : Matches ρ v w) :
    Agree ρ (Engine.setValue a v) (Engine.setValue b w) :=
  .edit fun _ _ hst => ⟨hst.toTwins.setValue hab hvw, hst.left.linked.keeps_setValue a v,
    hst.right.linked.keeps_setValue b w⟩

theorem agree_stripReturn (hab : ρ a b) : Agree ρ (Engine.edit fun s => s.stripReturn a)
    (Engine.edit fun t => t.stripReturn b) :=
  .edit fun _ _ hst => ⟨hst.toTwins.stripReturn hab, hst.left.linked.keeps_stripReturn a,
    hst.right.linked.keeps_stripReturn b⟩

theorem agree_signal (hab : ρ a b) (c : Control) : Agree ρ (Engine.edit fun s => s.signal a c)
    (Engine.edit fun t => t.signal b c) := by
  refine .change fun s t hst hu hu' => ?_
  exact hst.signal hab c (fits_map hu) (fits_map hu')

theorem agree_clearSignal (hab : ρ a b) : Agree ρ (Engine.change fun s => s.clearSignal a)
    (Engine.change fun t => t.clearSignal b) := .change fun _ _ hst => hst.clearSignal hab

/-- Taking a value away gives values that say the same. -/
theorem agree_takeValue (hab : ρ a b) : Agree ρ (Engine.takeValue a) (Engine.takeValue b) :=
  .change fun _ _ hst => hst.takeValue hab

-- ---------------------------------------------------------------------------
-- New nodes
-- ---------------------------------------------------------------------------

/-- New nodes below nodes that stand for each other become a pair. -/
theorem agree_add (hab : ρ a b) (name : String) {v w : Option Value} (hvw : Matches ρ v w) :
    Agree ρ (Engine.add a name v) (Engine.add b name w) :=
  .change fun _ _ hst => hst.add hab name hvw

/-- The copies become pairs if the contents say the same. It does not matter where else the
originals stand, so they need not stand for each other. -/
theorem agreeAt_deepClone {σ τ : Session} (hshape : Concur ρ (σ.nodes.shape a) (τ.nodes.shape b))
    (ha : Unwrapped σ.nodes → ∀ x, σ.nodes.Reaches a x → σ.nodes.Fixed x)
    (hb : Unwrapped τ.nodes → ∀ y, τ.nodes.Reaches b y → τ.nodes.Fixed y) :
    AgreeAt ρ σ τ (Engine.deepClone a) (Engine.deepClone b) := by
  intro hστ hu hu'
  have hσ : Unwrapped σ.nodes := ((inferInstance : Steady (Engine.deepClone a)).evolves σ).unwrapped hu
  have hτ : Unwrapped τ.nodes := ((inferInstance : Steady (Engine.deepClone b)).evolves τ).unwrapped hu'
  exact Agree.change_at (fun hst => hst.copied hshape (ha hσ) (hb hτ)) hστ hu hu'

/-- Copies of nodes that stand for each other. -/
theorem agree_deepClone (hab : ρ a b) : Agree ρ (Engine.deepClone a) (Engine.deepClone b) := by
  intro σ τ hστ
  exact agreeAt_deepClone (hστ.nodes.shape hab) (fun hu _ => hστ.nodes.fixed_left hu hab)
    (fun hu _ => hστ.nodes.fixed_right hu hab) hστ

/-- The same text is read into both stores, or refused by both. -/
theorem agree_load (text : String) : Agree ρ (Engine.load text) (Engine.load text) := by
  refine .change fun s t hst hu hu' => ?_
  obtain ⟨ρ', hle, hread, hend⟩ := hst.load text (hu _ _ rfl) (hu' _ _ rfl)
  exact .ok hle hread hend

-- ---------------------------------------------------------------------------
-- Moving
-- ---------------------------------------------------------------------------

/-- A move below nodes that stand for each other: made, refused with the same contexts, or without
an end on one side. -/
theorem agree_insert (hab : ρ a b) (i : Nat) (hab' : ρ a' b') :
    Agree ρ (Engine.insert a i a') (Engine.insert b i b') := by
  intro σ τ hστ hu hu'
  have hst := hστ.nodes
  have hcycle := hst.wouldCycle hst.left.linked hst.right.linked hab hab'
  unfold after at hu hu'
  rw [insert_eq, nodes_bind_apply] at hu hu' ⊢
  rw [insert_eq, nodes_bind_apply]
  cases hback : τ.nodes.wouldCycle b b' with
  -- a circle on one side is one on the other, and describing the nodes agrees
  | true =>
    rw [hcycle, hback] at hu ⊢
    rw [hback] at hu'
    simp only [if_true] at hu hu' ⊢
    refine Agree.bind_nodes (fun s t hst => ?_) σ τ hστ hu hu'
    refine Agree.bind_liftFault (hst.describe hab') fun c d hcd => ?_
    refine Agree.bind_liftFault (hst.describe hab) fun p q hpq => ?_
    rw [Plain.eq hcd, Plain.eq hpq]
    exact .throw_same _
  | false =>
    rw [hcycle, hback] at hu ⊢
    rw [hback] at hu'
    simp only [Bool.false_eq_true, if_false] at hu hu' ⊢
    exact Agree.change_at (fun _ hfit hfit' => hst.edited (hst.toTwins.moveBelow hab hab' i)
      (hst.left.linked.keeps_moveBelow (hcycle.trans hback) i)
      (hst.right.linked.keeps_moveBelow hback i) (fits_map hfit) (fits_map hfit')) hστ hu hu'

theorem agree_append (hab : ρ a b) (hab' : ρ a' b') :
    Agree ρ (Engine.append a a') (Engine.append b b') := by
  rw [append_eq, append_eq]
  refine Agree.bind_nodes fun s t hst => ?_
  refine Agree.bind_liftFault (hst.childCount hab) fun n m hnm => ?_
  obtain rfl := Plain.eq hnm
  exact agree_insert hab n hab'

end Engine

end TreeScript
