import TreeScript.Proofs.Engine.Program
import TreeScript.Proofs.Keyword.Around

/-!
# TreeScript — a signal on its way out of a block

When a signal is raised at the root of a tree while a block of the tree is executed, the
block's loop ends, and the keyword does what it has to do in any case: it strips a `_return`
of the block's own, frees what it has set aside or puts it back, and returns. The signal is
still there then.

* `Leaving`, `succeeds_stripReturn`, `succeeds_removeAll` — steps that leave a signal alone;
* `Frame.Around` — what is known of a frame around a block of the tree;
* `Frame.Around.succeeds_around` — a keyword is left with the signal.
-/

namespace TreeScript

open Store Engine

variable {b s t : Store} {T : Set Handle} {r z h x : Handle} {c : Control} {scope : Scope}

-- ---------------------------------------------------------------------------
-- Steps that leave a signal where it is
-- ---------------------------------------------------------------------------

/-- A signal is raised in what has become of a store. -/
structure Store.Leaving (s : Store) (T : Set Handle) (r z : Handle) (c : Control) (t : Store) :
    Prop where
  since : Since s T t
  raised : Raised t r z c

/-- There is no return to take away from a removed node. -/
theorem Store.stripReturn_of_not_isAlive (hx : t.isAlive x = false) : t.stripReturn x = .ok t := by
  simp [stripReturn, firstChild?, childList, not_isAlive_iff.1 hx]

/-- What is stripped of a node other than the root is another `_return` than that of the root. -/
theorem succeeds_stripReturn {ι : Type} {i : ι} (hx : x ≠ r) :
    Succeeds i (fun t => Leaving s T r z c t ∧ (t.root? x = some r ∨ t.isAlive x = false))
      (fun _ => Engine.edit fun t => t.stripReturn x) fun _ => Leaving s T r z c := by
  refine Succeeds.edit (fun hok => .stripReturn hok) fun {t} ht hu => ?_
  obtain ⟨hleaving, hroot | hdead⟩ := ht
  · obtain ⟨t', hok, hraised⟩ :=
      hleaving.raised.stripReturn hleaving.since.disciplined hroot hx
    exact ⟨t', hok, hleaving.since.stripReturn hok (hu t' hok), hraised⟩
  · exact ⟨t, stripReturn_of_not_isAlive hdead, hleaving⟩

/-- Trees that are aside may be freed. -/
theorem succeeds_removeAll {ι : Type} {i : ι} (hr : s.isAlive r = true) (cs : List Handle)
    (hcs : ∀ y ∈ cs, y ≠ z ∧ ¬ s.Reaches y r) :
    Succeeds i (Leaving s T r z c) (fun _ => cs.forM Engine.remove) fun _ t => Raised t r z c := by
  refine (Succeeds.forM (I := fun rest t => (∀ y ∈ rest, y ∈ cs) ∧
    ∃ T', Leaving s T' r z c t) (fun y rest => ?_) cs).weaken
    (fun t _ ht => ⟨fun _ hy => hy, T, ht⟩) fun _ _ _ ⟨_, _, ht⟩ => ht.raised
  refine Succeeds.remove fun {t} ht hu => ?_
  obtain ⟨hsub, T', ht⟩ := ht
  obtain ⟨hne, hnot⟩ := hcs y (hsub y (by simp))
  have hd := ht.since.disciplined
  refine ⟨fun x hx => hsub x (List.mem_cons_of_mem _ hx), _, ht.since.remove y hu, ?_⟩
  exact ht.raised.remove hd hne fun hreach =>
    hnot (ht.since.reaches_back hr (hd.linked.isAlive_parent ht.raised.childOf) hreach)

/-- When the node is gone, no further block is executed. -/
theorem runSources_of_not_isAlive {σ : Session} (hh : σ.nodes.isAlive h = false)
    (mode : BlockMode) (args : List Handle) (first : Bool) (items : List Item) :
    runSources mode scope h args first items σ = .ok () σ := by
  cases items with
  | nil => rfl
  | cons item rest => rw [runSources, isAlive_bind_apply, hh]; rfl

/-- A loop whose node is gone has no rounds any more. -/
theorem rounds_of_not_isAlive {σ : Session} (hh : σ.nodes.isAlive h = false)
    (body : List Handle) (items : List Item) :
    Keyword.rounds scope h body items σ = .ok () σ := by
  cases items with
  | nil => rfl
  | cons item rest => rw [Keyword.rounds, isAlive_bind_apply, hh]; rfl

-- ---------------------------------------------------------------------------
-- Frames
-- ---------------------------------------------------------------------------

namespace Keyword

/-- A frame around a block of the tree of `r`, from the store `s` in front of the keyword to
the store `u` in which a node of the block is executed. -/
structure Frame.Around (s : Store) (h r z : Handle) (f : Frame) (u : Store) : Prop where
  disciplined : Disciplined s
  root : s.root? h = some r
  apart : f.Apart s { x | s.Top x } h
  since : Since s ({ x | s.Top x } ∪ { x | x ∈ f.trees }) u
  block : u.root? f.block = some r
  ne : f.block ≠ r
  new : s.isAlive z = false ∧ u.isAlive z = false

namespace Frame.Around

variable {u : Store} {f : Frame}

/-- The root of the tree was there in front of the keyword. -/
theorem isAlive_root (hf : f.Around s h r z u) : s.isAlive r = true :=
  hf.disciplined.linked.isAlive_root? hf.root

/-- What was there in front of the keyword is not the sentinel, which is new. -/
theorem ne_of_isAlive (hf : f.Around s h r z u) (hx : s.isAlive x = true) : x ≠ z := by
  rintro rfl
  rw [hf.new.1] at hx
  simp at hx

/-- What is set aside is not the sentinel. -/
theorem tree_ne (hf : f.Around s h r z u) (hx : x ∈ f.trees) : x ≠ z := by
  rintro rfl
  have halive := hf.since.isAlive (Or.inr hx)
  rw [hf.new.2] at halive
  simp at halive

/-- A tree that is set aside was not there, or it was a child of the node. -/
theorem mem_childList (hf : f.Around s h r z u) (hx : x ∈ f.trees) (halive : s.isAlive x = true) :
    x ∈ s.childList h := by
  have hfresh := hf.apart.fresh x hx
  split at hfresh
  next =>
    obtain ⟨m, hm, hup⟩ := childOf_iff.1 hfresh
    obtain ⟨n, hn, hmem⟩ := hf.disciplined.linked.lists hm hup
    rwa [childList_eq hn]
  next =>
    rw [hfresh] at halive
    simp at halive

/-- It does not lead to the root. -/
theorem not_reaches (hf : f.Around s h r z u) (hx : x ∈ f.trees) : ¬ s.Reaches x r := by
  intro hreach
  have hchild := hf.mem_childList hx (hreach.isAlive hf.isAlive_root)
  exact hf.disciplined.not_reaches_root hf.root hchild hreach

/-- The node of the frame has its root as long as it is there. -/
theorem root?_node (hf : f.Around s h r z u)
    (ht : Since s ({ x | s.Top x } ∪ { x | x ∈ f.trees }) t) (hh : t.isAlive h = true) :
    t.root? h = some r := by
  refine ht.root?_eq hf.disciplined.linked hf.root (fun y hy hs hreach => ?_) hh
  rcases hy with hy | hy
  · exact hy
  · have hchild := holds_iff_childList.2 (Or.inl (hf.mem_childList hy hs))
    exact absurd hreach (hf.disciplined.not_reaches_holder hchild)

/-- The block of a text is a tree of its own, so it is not around a node of the tree. -/
theorem not_owned {templates : List Handle} {found : Source} {rest : List Item}
    (hf : (Frame.source h templates found rest).Around s h r z u) : found.owned = false := by
  by_contra howned
  rw [Bool.not_eq_false] at howned
  have htop : u.Top found.block := hf.since.top (Or.inr (by simp [Frame.trees, howned]))
  have hroot := htop.root? hf.since.disciplined.linked
  exact hf.ne (Option.some.inj (hroot.symm.trans hf.block))

end Frame.Around

-- ---------------------------------------------------------------------------
-- Out of a frame
-- ---------------------------------------------------------------------------

section Leave

variable {u : Store} {f : Frame} {m : Moment}

/-- The trees that are known while a frame is left. -/
abbrev Frame.Left (s : Store) (r z : Handle) (c : Control) (f : Frame) : Store → Prop :=
  Leaving s ({ x | s.Top x } ∪ { x | x ∈ f.trees }) r z c

/-- The loop of the block ends with the signal, or with none if the block is gone; and the signal is
left where it is. -/
theorem Frame.Around.succeeds_goOn (hscope : scope.Keeps Fence.wide b)
    (hf : f.Around s h r z m.nodes) (hblock : m.block = f.block)
    (hplaced : m.nodes.ChildOf m.statement m.block) :
    Succeeds scope.dispatch
      (fun t => Since m.nodes { x | m.nodes.Top x } t ∧ Raised t r z c)
      (fun d => m.goOn (scope.redirect d))
      fun c' t => f.Left s r z c t ∧
        (c' = c ∧ t.root? f.block = some r ∨ c' = .none ∧ t.isAlive f.block = false) := by
  rw [← hblock]
  refine (Moment.succeeds_goOn hscope hf.since.disciplined hplaced
    (by rw [hblock]; exact hf.block)).weaken (fun _ _ ht => ht) fun c' t hu ht => ?_
  refine ⟨⟨(hf.since.trans ht.1.1 hu).congr fun x => ?_, ht.1.2⟩, ht.2⟩
  exact hf.since.tops x

/-- The signal does not end at a block of the tree other than the root. -/
theorem Frame.Around.succeeds_block (hscope : scope.Keeps Fence.wide b)
    (hf : f.Around s h r z m.nodes) (hblock : m.block = f.block)
    (hplaced : m.nodes.ChildOf m.statement m.block) :
    Succeeds scope.dispatch
      (fun t => Since m.nodes { x | m.nodes.Top x } t ∧ Raised t r z c)
      (fun d => m.goOn (scope.redirect d) >>= fun _ => Engine.edit fun t => t.stripReturn f.block)
      fun _ => f.Left s r z c := by
  refine (hf.succeeds_goOn hscope hblock hplaced).bind fun c' => ?_
  exact (succeeds_stripReturn hf.ne).before fun _ _ ht => ⟨ht.1, ht.2.imp And.right And.right⟩

theorem succeeds_shallower {ι : Type} {i : ι} {P : Store → Prop} :
    Succeeds i P (fun _ => shallower) fun _ => P := Succeeds.aside fun _ => rfl

/-- After a block, a signal keeps the other blocks of a value from being executed. -/
theorem Frame.Around.succeeds_rest (hscope : scope.Keeps Fence.wide b) {templates : List Handle}
    {found : Source} {rest : List Item} (hf : (Frame.source h templates found rest).Around s h r z u) :
    Succeeds scope.dispatch ((Frame.source h templates found rest).Left s r z c)
      (fun d => do
        let c ← (← Engine.nodes).pending h
        unless c.isActive do runSources .inPlace (scope.redirect d) h templates false rest)
      fun _ => (Frame.source h templates found rest).Left s r z c := by
  refine Succeeds.bind_nodes fun t₀ => ?_
  refine Succeeds.bind_lift (R := fun t c' => c' = c ∨ c' = .none ∧ t.isAlive h = false) ?_
    fun c' _ => ?_
  -- either the signal is still pending at the source, or the source itself is gone
  · rintro t ⟨rfl, ht⟩
    cases hh : t.isAlive h with
    | true => exact ⟨c, ht.raised.pending (hf.root?_node ht.since hh), Or.inl rfl⟩
    | false => exact ⟨.none, pending_of_not_isAlive hh, Or.inr ⟨rfl, rfl⟩⟩
  · refine Succeeds.ite (fun _ => (Succeeds.skip _).before fun _ _ ht => ht.1.2)
      fun hactive => ?_
    -- a source that is gone runs no other item, whatever the dispatcher
    have hensures := ensures_runSources (b := b) (s := b) (T := ∅) Fence.wide_sealed hscope
      .inPlace h templates rest false
    refine ⟨hensures.evolves, fun σ _ hσ => ⟨(), σ, fun d => ?_, hσ.1.2⟩⟩
    rcases hσ.2 with rfl | ⟨-, hdead⟩
    · exact absurd hσ.1.2.raised.isActive hactive
    · exact runSources_of_not_isAlive hdead _ _ _ _

/-- The templates are removed without touching the signal. -/
theorem Frame.Around.succeeds_removeTemplates {ι : Type} {i : ι} {templates : List Handle}
    {found : Source} {rest : List Item}
    (hf : (Frame.source h templates found rest).Around s h r z u) :
    Succeeds i ((Frame.source h templates found rest).Left s r z c)
      (fun _ => templates.forM Engine.remove) fun _ t => Raised t r z c := by
  refine succeeds_removeAll hf.isAlive_root templates fun x hx => ?_
  have hmem : x ∈ (Frame.source h templates found rest).trees := by
    simp [Frame.trees, hf.not_owned, hx]
  exact ⟨hf.tree_ne hmem, hf.not_reaches hmem⟩

/-- The body of a loop goes back below its node, or is freed, and the signal stays. -/
theorem Frame.Around.succeeds_restoreBody {ι : Type} {i : ι} {body : List Handle}
    {rest : List Item} (hf : (Frame.round h body rest).Around s h r z u) :
    Succeeds i ((Frame.round h body rest).Left s r z c) (fun _ => restoreBody h body)
      fun _ t => Raised t r z c := by
  -- the body of the round is what the frame has set aside
  have hbody : Body Fence.wide s { x | s.Top x } h body :=
    ⟨Fence.inside_wide h, hf.disciplined, hf.apart.nodup, hf.apart.fresh, fun x hx =>
      ⟨hf.apart.tops x hx, Fence.inside_wide x⟩⟩
  have hne : h ≠ r := hf.ne
  have hh : s.isAlive h = true := (root?_eq_some hf.root).1
  refine Succeeds.bind_isAlive ?_ ((succeeds_removeAll hf.isAlive_root body fun x hx =>
    ⟨hf.tree_ne hx, hf.not_reaches hx⟩).before fun _ _ ht => ht.1)
  refine Succeeds.bind (Q := fun _ t => Body.Aside Fence.wide s s { x | s.Top x } h body body t ∧
    Raised t r z c) ?_ fun _ => (Succeeds.forM (I := fun rest t =>
      Body.Aside Fence.wide s s { x | s.Top x } h body rest t ∧ Raised t r z c)
      (fun x rest => ?_) body).weaken (fun _ _ ht => ht) fun _ _ _ ht => ht.2
  -- the target is emptied; the signal stands under the root and stays
  · refine Succeeds.edit (fun hok => .clear hok) fun {t} ht hu => ?_
    have hd := ht.1.since.disciplined
    obtain ⟨t', hok⟩ := hd.clear_isOk ht.2
    have hsince := ht.1.since.clear hok (hu t' hok)
    refine ⟨t', hok, ⟨hbody, hbody.nodup, fun _ hx => hx,
      ⟨hsince, hsince.disciplined.balanced.fenced_wide s⟩, hd.isAlive_clear_self hok⟩, ?_⟩
    exact ht.1.raised.clear hd (hf.root?_node ht.1.since ht.2) hne (hf.ne_of_isAlive hh) hok
  -- and each child of the body is appended again, away from the signal
  · refine Succeeds.append (fun ht => ht.1.ready) fun {t t' n} ht hok hu => ?_
    refine ⟨ht.1.moved hok hu, ?_⟩
    have hx := ht.1.subset x (by simp)
    have htop := ht.1.held.since.top (b := x) (Or.inr (by simp))
    have hd := ht.1.held.disciplined
    refine ht.2.moveBelow (htop.parent? hd.linked) hok hne (hf.ne_of_isAlive hh) ?_ ?_
      (hf.tree_ne hx)
    · rintro rfl
      exact ht.1.ready.2.2.2 (.refl _ _)
    · rintro rfl
      exact hf.not_reaches hx (.refl _ _)

/-- A raised signal leaves every frame on its way to the root of the tree, and a loop if it
is `_return`. However nodes are dispatched, none is. -/
theorem Frame.Around.succeeds_around (hscope : scope.Keeps Fence.wide b)
    (hf : f.Around s h r z m.nodes) (hblock : m.block = f.block)
    (hplaced : m.nodes.ChildOf m.statement m.block) (hloop : f.isRound = true → c = .return) :
    Succeeds scope.dispatch (fun t => Since m.nodes { x | m.nodes.Top x } t ∧ Raised t r z c)
      (fun d => f.around (scope.redirect d) (m.goOn (scope.redirect d)))
      fun _ t => Raised t r z c := by
  have hstrip := hf.succeeds_block (c := c) hscope hblock hplaced
  cases f with
  | own h' =>
    exact (hstrip.always succeeds_shallower).weaken (fun _ _ ht => ht) fun _ _ _ ht => ht.raised
  -- the block, what is left of the sources, then the templates and the depth
  | source h' templates found rest =>
    obtain rfl : h' = h := hf.apart.node
    refine Succeeds.always (Succeeds.always ?_ hf.succeeds_removeTemplates) succeeds_shallower
    refine Succeeds.bind (Succeeds.always hstrip ?_) fun _ => hf.succeeds_rest hscope
    exact Succeeds.ite (fun howned => by simp [hf.not_owned] at howned) fun _ => Succeeds.skip _
  -- only a return leaves a round with the signal still raised
  | round h' body rest =>
    obtain rfl : h' = h := hf.apart.node
    obtain rfl := hloop rfl
    refine Succeeds.always (Succeeds.always ?_ succeeds_shallower) hf.succeeds_restoreBody
    refine (hf.succeeds_goOn hscope hblock hplaced).bind fun c' => ?_
    have hensures := ensures_endRound (b := b) (s := b) (T := ∅) Fence.wide_sealed
      (ensures_rounds Fence.wide_sealed hscope h' body rest) c'
    refine ⟨hensures.evolves, fun σ _ hσ => ⟨(), σ, fun d => ?_, hσ.1⟩⟩
    rcases hσ.2 with ⟨rfl, -⟩ | ⟨rfl, hdead⟩
    · rfl
    · exact rounds_of_not_isAlive hdead _ _

end Leave

/-- What is around a block depends on what the block does only. -/
theorem around_congr {f : Frame} {x y : Engine Control} {σ τ : Session} (hxy : x σ = y τ) :
    f.around scope x σ = f.around scope y τ := by
  cases f with
  | own h => exact always_congr (bind_congr_run hxy _) _
  | source h templates found rest =>
    refine always_congr (always_congr (bind_congr_run (always_congr ?_ _) _) _) _
    exact bind_congr_run hxy _
  | round h body rest => exact always_congr (always_congr (bind_congr_run hxy _) _) _

/-- Whatever is done around a block is a sequence of operations on slots. -/
theorem Frame.evolves_around (hscope : scope.Keeps Fence.wide b) (f : Frame) (x : Engine Control)
    (σ : Session) : Evolves (x.after σ) ((f.around scope x).after σ) := by
  have hshallower : ∀ σ : Session, Evolves σ.nodes (shallower.after σ) := fun _ => .refl _
  have hstrip : ∀ (block : Handle) (σ : Session), Evolves (x.after σ)
      ((x >>= fun _ => Engine.edit fun t => t.stripReturn block).after σ) := fun block =>
    evolves_after_bind fun _ => (ensures_stripReturn (F := Fence.wide) (b := b) (s := b) (T := ∅)
      (E := fun _ => True) block).evolves
  have hremove : ∀ (cs : List Handle) (σ : Session), Evolves σ.nodes
      ((cs.forM Engine.remove).after σ) := fun cs =>
    (ensures_removeAll (F := Fence.wide) (b := b) (s := b) (T := ∅) (E := fun _ => True) cs).evolves
  cases f with
  | own h => exact (hstrip h σ).trans (evolves_after_always hshallower σ)
  | source h templates found rest =>
    -- each part of what follows a block evolves the store, so the whole of it does
    have howned : ∀ σ : Session, Evolves σ.nodes
        ((if found.owned then Engine.remove found.block else pure ()).after σ) := by
      intro σ
      split
      · exact hremove [found.block] σ
      · exact .refl _
    have hrest : Ensures (fun _ => False) (do
        let c ← (← Engine.nodes).pending h
        unless c.isActive do runSources .inPlace scope h templates false rest : Engine Unit)
        (fun _ _ => True) (fun _ => True) := by
      refine Ensures.bind_nodes fun u => ?_
      refine Ensures.bind_liftFault (R := fun _ _ => True) (fun _ _ h => h.2.elim) fun c _ => ?_
      refine Ensures.ite (fun _ => (Ensures.pure _).before fun _ _ _ => trivial) fun _ => ?_
      exact (ensures_runSources (s := b) (T := ∅) Fence.wide_sealed hscope .inPlace h templates rest
        false).weaken (fun _ _ h => h.1.2.elim) (fun _ _ _ _ => trivial) fun _ _ _ => trivial
    refine (hstrip found.block σ).trans ((evolves_after_always howned σ).trans ?_)
    refine (evolves_after_bind (fun _ => hrest.evolves) σ).trans ?_
    exact (evolves_after_always (hremove templates) σ).trans (evolves_after_always hshallower σ)
  | round h body rest =>
    have hend := fun c => (ensures_endRound (b := b) (s := b) (T := ∅) Fence.wide_sealed
      (ensures_rounds Fence.wide_sealed hscope h body rest) c).evolves
    have hrestore := (ensures_restoreBody (F := Fence.wide) (b := b) (m := b) (T := ∅)
      (E := fun _ => True) h body).evolves
    refine (evolves_after_bind hend σ).trans ((evolves_after_always hshallower σ).trans ?_)
    exact evolves_after_always hrestore σ

end Keyword

end TreeScript
