import TreeScript.Proofs.Engine.Boundary
import TreeScript.Proofs.Engine.Isolation
import TreeScript.Proofs.Twin.Dump
import TreeScript.Proofs.Twin.Keyword

/-!
# TreeScript — the same block on the same arguments

What a block does on a copy depends on the block and its arguments only, as long as these have no
references: on what is told of them, not on where they are kept or what else is there. Two such
executions begin with copies that say the same, so they come to the same; what the copies hand
over says the same; and what the destinations had before is as it was.

* `Kept`, `Echoes.kept` — stores in which all nodes that were there are as they were;
* `agreeAt_cloneInFront` — the arguments on both sides;
* `Hands.echo` — what is handed over on both sides;
* `WorkingCopy` — a copy before it is executed;
* `executeCopy_determined` — the result.
-/

namespace TreeScript

open Store Engine Paired

-- ---------------------------------------------------------------------------
-- What is kept
-- ---------------------------------------------------------------------------

namespace Store

variable {R ρ : Pairing} {s t s' t' : Store} {a b : Handle} {T : Set Handle}

/-- All handles that have been given out name what they named before. -/
def Kept (s s' : Store) : Prop := ∀ x, s.Issued x → s'.node? x = s.node? x

/-- In a store that keeps everything, what has been given out is alive just if it was. -/
theorem Kept.isAlive (h : Kept s s') (ha : s.Issued a) : s'.isAlive a = s.isAlive a := by
  rw [Store.isAlive, Store.isAlive, h a ha]

/-- Behind a fence around all nodes that were there, everything is kept: what is dead stays dead as
long as no slot has been worn out. -/
theorem Held.kept (h : Held (Fence.around s none) s s T s') (hu : Unwrapped s') : Kept s s' := by
  intro x hx
  cases hlive : s.isAlive x with
  | true => exact h.fenced.node?_around (beside_none.2 hlive)
  | false =>
    rw [not_isAlive_iff.1 hlive, not_isAlive_iff.1 (h.since.evolves.not_isAlive hu hx hlive)]

/-- What says the same still does so where it is kept. -/
theorem Echoes.kept (h : Echoes R ρ s t) (hs : Disciplined s) (ht : Disciplined t)
    (hks : Kept s s') (hkt : Kept t t') :
    Echoes (fun a b => R a b ∧ s.Issued a ∧ t.Issued b) ρ s' t' :=
  h.within (fun _ _ _ hxy => hs.issued_of_holds hxy) (fun _ _ _ hxy => ht.issued_of_holds hxy)
    (fun x hx => seen_eq_of_node?_eq (hks x hx)) fun y hy => seen_eq_of_node?_eq (hkt y hy)

/-- A tree without references may be copied from behind a fence around it. -/
theorem Bare.copies (ha : s.Bare a) : (Fence.around s none).Copies s a :=
  .inr ⟨ha, fun _ hx => off_around (beside_none.2 (ha.whole _ hx))⟩

/-- The same is told of two nodes, and they have no references. -/
structure SameBare (s t : Store) (a b : Handle) : Prop where
  bare : s.Bare a
  dump : s.dump a = t.dump b

/-- The same has been told of nodes of which the dump is the same. -/
theorem SameBare.told (h : SameBare s t a b) (hs : Disciplined s) : Told s t a b := by
  obtain ⟨x, hx⟩ := hs.exists_dump a
  exact .of_dump hx (h.dump ▸ hx)

/-- The other node has no references either. -/
theorem SameBare.bare_right (h : SameBare s t a b) (hs : Disciplined s) : t.Bare b :=
  (told_echoes s t).bare_right (h.told hs) h.bare

theorem Bare.isAlive (ha : s.Bare a) : s.isAlive a = true := ha.whole a (.refl _ _)

/-- Trees without references of which the same is told have contents that say the same, as long
as they are kept. -/
theorem SameBare.shape (h : SameBare s t a b) (hs : Disciplined s) (ht : Disciplined t)
    (hks : Kept s s') (hkt : Kept t t') (ρ : Pairing) : Concur ρ (s'.shape a) (t'.shape b) := by
  have hecho := (told_echoes s t).bare.kept hs ht hks hkt
  exact (hecho.shape ⟨⟨h.told hs, h.bare⟩, .inr h.bare.isAlive,
    .inr (h.bare_right hs).isAlive⟩).mono bot_le

end Store

-- ---------------------------------------------------------------------------
-- Working copies
-- ---------------------------------------------------------------------------

/-- A working copy in a store of which all has been kept since a base store, where the arguments
have no references. -/
structure WorkingCopy (s : Store) (T : Set Handle) (copy : Handle) (args : List Handle) (u : Store) :
    Prop where
  inside : (Fence.around s none).Inside copy
  bare : ∀ a ∈ args, s.Bare a
  held : Held (Fence.around s none) s s T u
  alive : u.isAlive copy = true

namespace WorkingCopy

variable {s u : Store} {T : Set Handle} {copy : Handle} {args args' : List Handle} {σ σ' : Session}

/-- The arguments are alive while the copy is worked on. -/
theorem args_alive (h : WorkingCopy s T copy args u) : ∀ a ∈ args, u.isAlive a = true := by
  intro a ha
  exact h.held.fenced.isAlive_around (beside_none.2 (h.bare a ha).isAlive)

theorem subset (h : WorkingCopy s T copy args u) (hsub : args' ⊆ args) : WorkingCopy s T copy args' u :=
  ⟨h.inside, fun a ha => h.bare a (hsub ha), h.held, h.alive⟩

/-- What an execution in a fenced store begins with. -/
theorem start (h : WorkingCopy s T copy args u) :
    ((Fence.around s none).Inside copy ∧ ∀ a ∈ args, (Fence.around s none).Copies s a) ∧
      Held (Fence.around s none) s s T u ∧ u.isAlive copy = true ∧ ∀ a ∈ args, u.isAlive a = true :=
  -- the copy and the arguments first, then the store, then who is alive
  ⟨⟨h.inside, fun a ha => (h.bare a ha).copies⟩, h.held, h.alive, h.args_alive⟩

/-- The copy is still ready when some of the arguments have been copied. -/
theorem cloneInFront (h : WorkingCopy s T copy args σ.nodes) (hsub : args' ⊆ args)
    (hrun : cloneInFront copy args' σ = .ok () σ') (hu : Unwrapped σ'.nodes) :
    WorkingCopy s T copy args σ'.nodes := by
  have hfront := ensures_cloneInFront (F := Fence.around s none) (b := s) (s := s) (T := T)
    (E := fun _ => True) copy hsub
  obtain ⟨hheld, halive, -⟩ := hfront.gives hrun hu
    ⟨⟨h.inside.1, fun a ha => (h.bare a ha).copies⟩, h.held, h.alive, h.args_alive⟩
  exact ⟨h.inside, h.bare, hheld, halive⟩

/-- A copy of a block without references is ready. -/
theorem deepClone {block : Handle} (hs : Disciplined s) (hblock : s.Bare block)
    (hargs : ∀ a ∈ args, s.Bare a) (hclone : s.deepClone block = .ok (copy, u))
    (hu : Unwrapped u) : WorkingCopy s ({ x | s.Top x } ∪ {copy}) copy args u := by
  have hsince := (Since.refl hs).deepClone hclone hu
  obtain ⟨hfenced, hinside⟩ := hs.fenced_sealed.deepClone hblock.copies
    (fun _ hy => Or.inl (hblock.whole _ hy)) hclone
  exact ⟨hinside, hargs, ⟨hsince, hfenced⟩, hsince.isAlive (Or.inr rfl)⟩

end WorkingCopy

section

variable {ρ : Pairing} {σ τ : Session} {s t : Store} {T T' : Set Handle} {c d : Handle}
  {xs ys : List Handle}

/-- Arguments of which the same is told are copied alike. -/
theorem agreeAt_cloneInFront (hs : Disciplined s) (ht : Disciplined t) (hcd : ρ c d)
    (hxs : List.Forall₂ (SameBare s t) xs ys) (hσ : WorkingCopy s T c xs σ.nodes)
    (hτ : WorkingCopy t T' d ys τ.nodes) :
    AgreeAt ρ σ τ (cloneInFront c xs) (cloneInFront d ys) := by
  induction hxs with
  | nil => exact Agree.done σ τ
  | cons hxy _ ih =>
    refine (ih (hσ.subset (List.subset_cons_self _ _)) (hτ.subset (List.subset_cons_self _ _))).bind
      inferInstance inferInstance fun ρ₁ hle₁ _ _ σ₁ τ₁ _ hrun hrun' hu hu' => ?_
    have hσ₁ := hσ.cloneInFront (List.subset_cons_self _ _) hrun hu
    have hτ₁ := hτ.cloneInFront (List.subset_cons_self _ _) hrun' hu'
    have hkept := hσ₁.held.kept hu
    have hkept' := hτ₁.held.kept hu'
    have hshape := hxy.shape hs ht hkept hkept' ρ₁
    -- the arguments are all there still
    have hx : σ₁.nodes.Whole _ := hxy.bare.whole.of_keeps fun y n hy hn => by
      rwa [hkept _ (.inr (hxy.bare.whole y hy))]
    have hy : τ₁.nodes.Whole _ := (hxy.bare_right hs).whole.of_keeps fun y n hy hn => by
      rwa [hkept' _ (.inr ((hxy.bare_right hs).whole y hy))]
    exact (agreeAt_deepClone hshape (fun _ _ hz => .inl (hx _ hz)) fun _ _ hz => .inl (hy _ hz)).bind
      inferInstance inferInstance
      fun ρ₂ hle₂ e f σ₂ τ₂ hef _ _ _ _ => agree_insert (hle₂ _ _ (hle₁ _ _ hcd)) 0 hef σ₂ τ₂

end

-- ---------------------------------------------------------------------------
-- Handing over
-- ---------------------------------------------------------------------------

/-- What a working copy hands over: some of its children, what its value owns, and all that these
lead to. -/
def Given (s : Store) (copy : Handle) (cs : List Handle) (x : Handle) : Prop :=
  ∃ r, (r ∈ cs ∨ s.Owns copy r) ∧ s.Reaches r x

/-- What the children of a node lead to. -/
def Below (s : Store) (h x : Handle) : Prop := ∃ k ∈ s.childList h, s.Reaches k x

/-- What is handed over takes with it what it holds. -/
theorem Given.step {s : Store} {copy x y : Handle} {cs : List Handle} (h : Given s copy cs x)
    (hxy : s.Holds x y) : Given s copy cs y := by
  obtain ⟨r, hr, hreach⟩ := h
  exact ⟨r, hr, hreach.tail hxy⟩

/-- What is below a node takes with it what it holds. -/
theorem Below.step {s : Store} {h x y : Handle} (hx : Below s h x) (hxy : s.Holds x y) :
    Below s h y := by
  obtain ⟨k, hk, hreach⟩ := hx
  exact ⟨k, hk, hreach.tail hxy⟩

/-- A working copy hands over some of its children and its value to a node that is there, and is
freed. -/
structure Hands (s : Store) (copy destination : Handle) (cs : List Handle) (first : Bool)
    (u : Store) : Prop where
  disciplined : Disciplined s
  copy_alive : s.isAlive copy = true
  alive : s.isAlive destination = true
  subset : cs ⊆ s.childList copy
  evolves : Evolves s u
  unwrapped : Unwrapped u
  delivered : Delivered s copy destination cs first u

namespace Hands

variable {s t u v : Store} {copy copy' destination destination' x : Handle} {cs cs' : List Handle}
  {first : Bool}

theorem seen_of_not_isAlive (h : Hands s copy destination cs first u) {a : Handle}
    (hax : s.Holds a x) (hdead : s.isAlive x = false) : u.seen x = s.seen x := by
  have hgone := h.evolves.not_isAlive h.unwrapped (h.disciplined.issued_of_holds hax) hdead
  rw [seen, seen, not_isAlive_iff.1 hdead, not_isAlive_iff.1 hgone]

/-- What is handed over is there afterwards, and what was gone is not. -/
theorem seen_given (h : Hands s copy destination cs first u) (hx : Given s copy cs x) :
    u.seen x = s.seen x := by
  obtain ⟨r, hr, hreach⟩ := hx
  cases hlive : s.isAlive x with
  | true => exact h.delivered.given hr hreach hlive
  | false =>
    rcases hreach.cases_last with rfl | ⟨y, -, hy⟩
    · exact h.seen_of_not_isAlive (holds_iff_childList.2 (hr.imp_left fun hr => h.subset hr)) hlive
    · exact h.seen_of_not_isAlive hy hlive

/-- What was below the destination is as it was, if the destination is not cleared first. -/
theorem seen_below (h : Hands s copy destination cs first u) (hfirst : first = false)
    (hx : Below s destination x) : u.seen x = s.seen x := by
  obtain ⟨k, hk, hreach⟩ := hx
  cases hlive : s.isAlive x with
  | true => exact h.delivered.old hfirst hk hreach hlive
  | false =>
    rcases hreach.cases_last with rfl | ⟨y, -, hy⟩
    · exact h.seen_of_not_isAlive (holds_iff_childList.2 (Or.inl hk)) hlive
    · exact h.seen_of_not_isAlive hy hlive

/-- If both the copies and the destinations say the same downwards, the destinations do so when
they have got what the copies hand over. -/
theorem echo {R ρ : Pairing} (hs : Hands s copy destination cs first u)
    (ht : Hands t copy' destination' cs' first v) (hst : Twins ρ s t) (hold : Echoes R ⊤ s t)
    (hcopy : ρ copy copy') (hdest : R destination destination') (hcs : Matches ρ cs cs') :
    ∃ R' : Pairing, R' destination destination' ∧ Echoes R' ⊤ u v := by
  -- what is handed over, what the destinations have kept, and both together
  have hgiven : Echoes (fun a b => ρ a b ∧ Given s copy cs a ∧ Given t copy' cs' b) ρ u v :=
    hst.echoes.within (fun _ _ => Given.step) (fun _ _ => Given.step) (fun _ => hs.seen_given)
      fun _ => ht.seen_given
  -- the pairs below a cleared destination are left out, for they are gone
  have hkept : Echoes (fun a b => R a b ∧ (first = false ∧ Below s destination a) ∧
      first = false ∧ Below t destination' b) ⊤ u v :=
    hold.within (fun _ _ hx hxy => hx.imp_right fun hx => hx.step hxy)
      (fun _ _ hx hxy => hx.imp_right fun hx => hx.step hxy)
      (fun _ hx => hs.seen_below hx.1 hx.2) fun _ hx => ht.seen_below hx.1 hx.2
  obtain ⟨S, hboth, hS, hS'⟩ : ∃ S : Pairing, Echoes S ⊤ u v ∧
      (∀ a b, ρ a b → Given s copy cs a → Given t copy' cs' b → S a b) ∧
      ∀ a b, R a b → first = false → Below s destination a → Below t destination' b → S a b :=
    ⟨_, (hgiven.mono le_top).sup hkept, fun _ _ hab ha hb => Or.inl ⟨hab, ha, hb⟩,
      fun _ _ hab hfirst ha hb => Or.inr ⟨hab, ⟨hfirst, ha⟩, hfirst, hb⟩⟩
  refine ⟨S.with destination destination', S.with_self _ _, ⟨fun {a b} hab => ?_⟩⟩
  rcases hab with hab | ⟨rfl, rfl⟩
  · exact (hboth.echo hab).mono (S.le_with _ _) (le_refl ⊤)
  -- the destinations themselves
  cases hold.echo hdest with
  | gone ha => exact absurd hs.alive (by simp [not_isAlive_iff.2 ha])
  | @live n m hn hm hnm =>
    cases hst.echoes.echo hcopy with
    | gone ha => exact absurd hs.copy_alive (by simp [not_isAlive_iff.2 ha])
    | @live k l hk hl hkl =>
      -- their children are those that were kept and those that were handed over
      refine .live (hs.delivered.target hn hk) (ht.delivered.target hm hl) ⟨hnm.name, ?_, ?_⟩
      · exact Value.echo_imp hkl.value (fun x y hx hy hxy => Or.inl (hS x y hxy
          ⟨x, .inr (owns_iff.2 ⟨k, hk, hx⟩), .refl _ _⟩
          ⟨y, .inr (owns_iff.2 ⟨l, hl, hy⟩), .refl _ _⟩)) fun _ _ _ _ _ => trivial
      · refine Paired.Matches.append ?_ (hcs.imp_of_mem fun x hx y hy hxy =>
          Or.inl (hS x y hxy ⟨x, .inl hx, .refl _ _⟩ ⟨y, .inl hy, .refl _ _⟩))
        split
        next => exact .nil
        next hfirst =>
          have hfirst : first = false := by simpa using hfirst
          exact hnm.children.imp_of_mem fun x hx y hy hxy => Or.inl (hS' x y hxy hfirst
            ⟨x, by rwa [childList_eq hn], .refl _ _⟩ ⟨y, by rwa [childList_eq hm], .refl _ _⟩)

end Hands

-- ---------------------------------------------------------------------------
-- The end of a block execution
-- ---------------------------------------------------------------------------

/-- How the execution of a block on a copy ends, according to how the work on the copy has ended:
with its failure, or with its results handed over, or with nothing if the destination was gone.
Up to the handing over, all that was there before is kept. -/
inductive Finish (s : Store) (copy destination : Handle) (first : Bool) (u : Store) :
    EStateM.Result Halt Session (List Handle) → Except Failure Unit → Session → Prop
  | failed {f : Failure} {σ : Session} : Kept s u →
      Finish s copy destination first u (.error (.failure f) σ) (.error f) { σ with nodes := u }
  | lost {known : List Handle} {σ : Session} : s.isAlive destination = false → Kept s u →
      Finish s copy destination first u (.ok known σ) (.ok ()) { σ with nodes := u }
  | handed {known : List Handle} {σ : Session} : s.isAlive destination = true → Kept s σ.nodes →
      Hands σ.nodes copy destination
        ((σ.nodes.childList copy).filter fun x => !known.contains x) first u →
      Finish s copy destination first u (.ok known σ) (.ok ()) { σ with nodes := u }

section

variable {scope : Scope} {σ τ : Session} {block destination : Handle} {args : List Handle}
  {first : Bool} {o : Except Failure Unit}

/-- A copy is freed: what was there before is kept if it was so before. -/
theorem Held.freed {s t : Store} {T : Set Handle} {copy : Handle}
    (hheld : Held (Fence.around s none) s s T t) (hinside : (Fence.around s none).Inside copy)
    (hu : Unwrapped (t.remove copy)) : Kept s (t.remove copy) ∧ Disciplined (t.remove copy) := by
  have hfreed : Held (Fence.around s none) s s (T \ {copy}) (t.remove copy) :=
    ⟨hheld.since.remove copy hu, hheld.fenced.remove hinside⟩
  exact ⟨hfreed.kept hu, hfreed.disciplined⟩

/-- When the work on a copy has been done, the results are handed over. -/
theorem finish_of_deliver {copy : Handle} {known : List Handle} {s : Store} {T : Set Handle}
    (hcopy : s.isAlive copy = false) (hinside : (Fence.around s none).Inside copy)
    (hmem : copy ∈ T) (hdest : s.Issued destination)
    (hheld : Held (Fence.around s none) s s T σ.nodes)
    (h : attempt (deliver copy destination known first) σ = .ok o τ)
    (hu : Unwrapped (τ.nodes.remove copy)) :
    Finish s copy destination first (τ.nodes.remove copy) (.ok known σ) o
      { τ with nodes := τ.nodes.remove copy } ∧ Disciplined (τ.nodes.remove copy) := by
  have hu₁ := (Evolves.remove τ.nodes copy).unwrapped hu
  have hwide : Held Fence.wide s s T σ.nodes :=
    ⟨hheld.since, hheld.disciplined.balanced.fenced_wide s⟩
  have hall := ensures_deliver (F := Fence.wide) (b := s) (s := s) (T := T) (K := fun _ => True)
    (E := fun _ => False) copy destination known first
  have hu₀ : Unwrapped σ.nodes := by
    have hevolves := hall.evolves σ
    rw [← after_attempt, after, h] at hevolves
    exact hevolves.unwrapped hu₁
  have hkept := hheld.kept hu₀
  -- delivering to a destination that is gone does nothing
  cases hlive : s.isAlive destination with
  | false =>
    have hgone : σ.nodes.isAlive destination = false := by rw [hkept.isAlive hdest, hlive]
    rw [attempt, deliver_of_not_isAlive hgone] at h
    injection h with ho hτ
    subst ho hτ
    obtain ⟨hback, hd⟩ := Held.freed hheld hinside hu
    exact ⟨.lost hlive hback, hd⟩
  | true =>
    have hlive₀ : σ.nodes.isAlive destination = true := by rw [hkept.isAlive hdest, hlive]
    have hdel : Delivers Fence.wide s T copy destination :=
      ⟨hmem, Fence.inside_wide copy, hcopy, hlive, (Fence.inside_wide destination).1⟩
    rcases attempt_eq_ok h with ⟨⟨⟩, hrun, rfl⟩ | ⟨f, hrun, -⟩
    · obtain ⟨hend, -⟩ := hall.gives hrun hu₁ ⟨hdel, hwide, fun _ _ => trivial⟩
      obtain ⟨c, hc⟩ := isAlive_iff.1 (hwide.isAlive hmem)
      obtain ⟨u, rfl, hover⟩ := deliver_eq_ok hdel hwide hlive₀ hc hrun hu₁
      have hsub : (c.children.filter fun x => !known.contains x) ⊆ σ.nodes.childList copy := by
        rw [childList_eq hc]
        exact fun x hx => List.mem_of_mem_filter hx
      refine ⟨.handed hlive hkept ?_, (hend.since.remove copy hu).disciplined⟩
      rw [childList_eq hc]
      exact ⟨hheld.disciplined, hwide.isAlive hmem, hlive₀, hsub,
        (hall.evolves_of_ok hrun).trans (.remove u copy), hu,
        hover.delivered hdel hwide hend hlive₀ hsub⟩
    · exact (hall.fails hrun hu₁ ⟨hdel, hwide, fun _ _ => trivial⟩).elim

/-- A block without references that is executed on arguments without references. -/
theorem executeCopy_finish (hscope : scope.Keeps (Fence.around σ.nodes none) σ.nodes)
    (hs : Disciplined σ.nodes) (hblock : σ.nodes.Bare block) (hargs : ∀ a ∈ args, σ.nodes.Bare a)
    (hdest : σ.nodes.Issued destination)
    (h : attempt (executeCopy scope block destination args first) σ = .ok o τ)
    (hu : Unwrapped τ.nodes) :
    ∃ copy s T, σ.nodes.deepClone block = .ok (copy, s) ∧ Unwrapped s ∧
      WorkingCopy σ.nodes T copy args s ∧
      Unwrapped ((workOn scope copy args).after { σ with nodes := s }) ∧
      Finish σ.nodes copy destination first τ.nodes (workOn scope copy args { σ with nodes := s }) o τ ∧
      Disciplined τ.nodes := by
  obtain ⟨copy, s, σ₁, hclone, hrun, rfl⟩ := attempt_executeCopy_eq_ok h
  have hu₁ : Unwrapped σ₁.nodes := (Evolves.remove _ copy).unwrapped hu
  have hwork := ensures_workOn (s := σ.nodes) (T := { x | σ.nodes.Top x } ∪ {copy})
    (Fence.sealed_around σ.nodes) hscope copy args
  rw [runCopy_eq_workOn] at hrun
  have hsprout := hs.balanced.sprouted_deepClone hclone
  -- the slots do not wear out on the way
  have hends : Unwrapped ((workOn scope copy args).after { σ with nodes := s }) := by
    rcases attempt_bind_eq_ok hrun with ⟨known, σ₀, hok, hdeliver⟩ | ⟨e, herr, -⟩
    · have hevolves := (inferInstance : Engine.Steady
        (deliver copy destination known first)).evolves σ₀
      rw [← after_attempt, after, hdeliver] at hevolves
      rw [after, hok]
      exact hevolves.unwrapped hu₁
    · rwa [after, herr]
  have hus : Unwrapped s := (hwork.evolves { σ with nodes := s }).unwrapped hends
  have hready := WorkingCopy.deepClone hs hblock hargs hclone hus
  refine ⟨copy, s, _, hclone, hus, hready, hends, ?_⟩
  -- the work has succeeded, and its results are delivered, or it has failed
  rcases attempt_bind_eq_ok hrun with ⟨known, σ₀, hok, hdeliver⟩ | ⟨e, herr, rfl⟩
  · have hu₀ : Unwrapped σ₀.nodes := by rwa [after, hok] at hends
    rw [hok]
    exact finish_of_deliver hsprout.fresh_root.1 hready.inside (Or.inr rfl) hdest
      (hwork.gives hok hu₀ hready.start) hdeliver hu
  · rw [herr]
    obtain ⟨hkept, hd⟩ := Held.freed (hwork.fails herr hu₁ hready.start) hready.inside hu
    exact ⟨.failed hkept, hd⟩

end

-- ---------------------------------------------------------------------------
-- Both sides
-- ---------------------------------------------------------------------------

section

variable {ρ : Pairing} {s t u v : Store} {copy copy' destination destination' : Handle}
  {first : Bool} {σ τ : Session} {o o' : Except Failure Unit}

/-- Where all is kept, the same is told as before. -/
theorem Store.Told.kept (hdest : Told s t destination destination') (hs : Disciplined s)
    (ht : Disciplined t) (hissued : s.Issued destination) (hissued' : t.Issued destination')
    (hu : Disciplined u) (hv : Disciplined v) (hsu : Kept s u) (htv : Kept t v) :
    ∃ x, u.dump destination = .ok x ∧ v.dump destination' = .ok x :=
  ((told_echoes s t).kept hs ht hsu htv).dump hu hv ⟨hdest, hissued, hissued'⟩

/-- If the work on two copies has come to the same, so has the execution, and the same is told of
the destinations. -/
theorem Finish.agree (hs : Disciplined s) (ht : Disciplined t) (hu : Disciplined u)
    (hv : Disciplined v) (hcopy : ρ copy copy') (hdest : Told s t destination destination')
    (hissued : s.Issued destination) (hissued' : t.Issued destination')
    {r r' : EStateM.Result Halt Session (List Handle)} (hagreed : Agreed ρ r r')
    (hfinish : Finish s copy destination first u r o σ)
    (hfinish' : Finish t copy' destination' first v r' o' τ) :
    o = o' ∧ Session.SameContext σ τ ∧
      ∃ x, u.dump destination = .ok x ∧ v.dump destination' = .ok x := by
  -- the destination is alive on both sides or on neither
  have hlives := ((told_echoes s t).echo hdest).isAlive
  have hcontext : ∀ {ρ' : Pairing} {σ₁ τ₁ : Session}, Session.Alike ρ' σ₁ τ₁ →
      Session.SameContext { σ₁ with nodes := u } { τ₁ with nodes := v } := fun h =>
    ⟨h.widgets, h.disk, h.ticket, h.depth⟩
  have hback := hdest.kept hs ht hissued hissued' hu hv
  cases hagreed with
  | left => cases hfinish
  | right => cases hfinish'
  | error e hle hστ =>
    cases hfinish with
    | failed hkept =>
      cases hfinish' with
      | failed hkept' => exact ⟨rfl, hcontext hστ, hback hkept hkept'⟩
  | ok hle hknown hστ =>
    cases hfinish with
    | lost hdead hkept =>
      cases hfinish' with
      | lost hdead' hkept' => exact ⟨rfl, hcontext hστ, hback hkept hkept'⟩
      | handed halive' => simp [hdead, halive'] at hlives
    | handed halive hkept hhands =>
      cases hfinish' with
      | lost hdead' => simp [halive, hdead'] at hlives
      | handed halive' hkept' hhands' =>
        have hpair := hle _ _ hcopy
        -- what is handed over is paired, what was there is told the same
        obtain ⟨R, hR, hend⟩ := hhands.echo hhands' hστ.nodes.toTwins
          ((told_echoes s t).kept hs ht hkept hkept') hpair ⟨hdest, hissued, hissued'⟩
          (hστ.nodes.oneToOne.filter_not_mem (hστ.nodes.childList hpair) hknown)
        exact ⟨rfl, hcontext hστ, hend.dump hu hv hR⟩

end

section

variable {σ τ σ' τ' : Session} {block block' destination destination' : Handle}
  {args args' : List Handle} {first : Bool} {o o' : Except Failure Unit}

/-- No handle stands for any. -/
theorem Store.Disciplined.alike_bot {s t : Store} (hs : Disciplined s) (ht : Disciplined t) :
    Store.Alike ⊥ s t where
  oneToOne := ⟨fun h => h.elim, fun h => h.elim⟩
  node? h := h.elim
  known h := h.elim
  left := ⟨hs.balanced, hs.linked⟩
  right := ⟨ht.balanced, ht.linked⟩

/-- What is left by an edit that succeeds has room. -/
theorem Store.fits_of_eq {α : Type} {r : Except Fault (α × Store)} {a : α} {s : Store}
    (hok : r = .ok (a, s)) (hu : Unwrapped s) : Fits r := by
  intro x u heq
  obtain ⟨-, rfl⟩ := Prod.mk.inj (Except.ok.inj (hok.symm.trans heq))
  exact hu

end

/-- A block that gives the value of its argument back, with a child. -/
def echoing : Doc :=
  .plain "_b" none [.plain "return" (some (.expr "/../*/_a?value")) [.plain "_c" none []]]

/-- The block, an argument, and a destination. -/
def forwards : List Doc := [echoing, .plain "_a" (some (.int 7)) [], .plain "_d" none []]

/-- The same in another place. -/
def backwards : List Doc :=
  [.plain "_x" none [], .plain "_d" none [], .plain "_a" (some (.int 7)) [], echoing]

/-- The block and its argument are told alike in both places, and have no references. -/
theorem sameBare_echoing : ∀ x ∈ [((⟨1, 0⟩ : Handle), (⟨4, 0⟩ : Handle)), (⟨4, 0⟩, ⟨3, 0⟩)],
    SameBare (Store.ofDocs forwards) (Store.ofDocs backwards) x.1 x.2 := by
  have hs : WellFormed (Store.ofDocs forwards) := wellFormed_ofDocs (by cbv) (by cbv)
  have hfree : ∀ a ∈ firstHandles 6, (Store.ofDocs forwards).RefFree a := fun a ha =>
    refFree_of_isClosed (firstHandles 6) (by cbv) (by cbv) ha
  simp only [List.forall_mem_cons, List.not_mem_nil, false_imp_iff, implies_true, and_true]
  exact ⟨⟨(hfree _ (by decide)).bare (hs.whole (by cbv)), by cbv⟩,
    (hfree _ (by decide)).bare (hs.whole (by cbv)), by cbv⟩

end TreeScript
