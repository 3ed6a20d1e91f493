import TreeScript.Proofs.Store.Holding

/-!
# TreeScript — handles over a history

A handle is given out once. The calls that make nodes give handles that no store of
the history before knew, and a handle that has been freed finds nothing any more,
whoever moves into its slot. Both rest on the generations: a handle that is alive at
two moments is alive in between.

* `Call.Gives` — the handles of the nodes that a call makes;
* `Call.fresh_of_gives` — they were stale before the call and are alive after it;
* `Lost` — a handle through which nothing is found;
* `handles_given_once` — histories.
-/

namespace TreeScript.Store

-- ---------------------------------------------------------------------------
-- New handles
-- ---------------------------------------------------------------------------

/-- The handle and the store that a call which makes nodes comes back with. -/
def Call.made? (s : Store) : Call → Option (Handle × Store)
  | .create name v => some (s.create name v)
  | .add parent name v => (s.add parent name v).toOption
  | .deepClone h => (s.deepClone h).toOption
  | _ => none

/-- The handles that a call gives out: the one it returns, the children listed there
and, since a copy owns copies, all that a copy holds. -/
def Call.Gives (s : Store) (call : Call) (h : Handle) : Prop :=
  ∃ made t, call.made? s = some (made, t) ∧
    match call with
    | .deepClone _ => t.Reaches made h
    | _ => h = made ∨ h ∈ t.childList made

/-- A new node lists nobody. -/
theorem Balanced.childList_create {s : Store} (hs : Balanced s) (name : String)
    (v : Option Value) : (s.create name v).2.childList (s.create name v).1 = [] :=
  childList_eq (hs.node?_create_self name v)

/-- A new node that has become the last child of another one lists nobody. -/
theorem Balanced.childList_add {s s' : Store} (hs : Balanced s) {p h : Handle} {name : String}
    {v : Option Value} (hok : s.add p name v = .ok (h, s')) : s'.childList h = [] := by
  obtain ⟨hp, rfl, hp', rfl⟩ := add_eq_ok hok
  have hne : p ≠ (s.create name v).1 := by
    rintro rfl
    simp [isAlive_create_fst hs] at hp
  obtain ⟨n, hn⟩ := isAlive_iff.1 hp'
  simp [childList, node?_linkLast hn hne, hne.symm, hs.node?_create_self]

/-- What a call gives out was stale before the call and is alive after it. -/
theorem Call.fresh_of_gives {s s' : Store} (hs : Balanced s) {call : Call} {h : Handle}
    (hcall : call.perform s = some s') (hgives : call.Gives s h) : Fresh s s' h := by
  obtain ⟨made, t, hmade, hh⟩ := hgives
  cases call with
  | create name v =>
    obtain rfl := Option.some.inj hcall
    obtain ⟨rfl, rfl⟩ : (s.create name v).1 = made ∧ (s.create name v).2 = t := by
      simpa [made?, Prod.ext_iff] using hmade
    obtain rfl : h = (s.create name v).1 := by simpa [hs.childList_create] using hh
    exact ⟨isAlive_create_fst hs name v, isAlive_iff.2 ⟨_, hs.node?_create_self name v⟩⟩
  | add p name v =>
    have hok : s.add p name v = .ok (made, t) := toOption_eq_some.1 hmade
    obtain rfl : t = s' := by simpa [perform, hok, Except.toOption] using hcall
    obtain rfl : h = made := by simpa [hs.childList_add hok] using hh
    obtain ⟨-, rfl, -, rfl⟩ := add_eq_ok hok
    refine ⟨isAlive_create_fst hs name v, ?_⟩
    rw [isAlive_linkLast]
    exact isAlive_iff.2 ⟨_, hs.node?_create_self name v⟩
  -- a copy gives out everything below its root
  | deepClone x =>
    have hok : s.deepClone x = .ok (made, t) := toOption_eq_some.1 hmade
    obtain rfl : t = s' := by simpa [perform, hok, Except.toOption] using hcall
    obtain ⟨content, hplant⟩ := deepClone_eq_ok hok
    have hreach : (s.plant content).2.Reaches (s.plant content).1 h := by
      rw [hplant]
      exact hh
    have hfresh := hs.fresh_of_reaches_plant hreach
    rwa [hplant] at hfresh
  -- the other calls make nothing
  | _ => simp [made?] at hmade

-- ---------------------------------------------------------------------------
-- Lost handles
-- ---------------------------------------------------------------------------

/-- A handle through which nothing is found. -/
structure Lost (s : Store) (h : Handle) : Prop where
  isAlive : s.isAlive h = false
  parent : s.parent? h = none
  firstChild : s.firstChild? h = none
  child (index : Nat) : s.child? h index = none
  childNamed (name : String) : s.childNamed? h name = .ok none
  indexOf : s.indexOf? h = none
  nextSibling : s.nextSibling? h = none
  previousSibling : s.previousSibling? h = none
  root : s.root? h = none

theorem lost_of_not_isAlive {s : Store} {h : Handle} (hdead : s.isAlive h = false) : Lost s h := by
  have hnode : s.node? h = none := not_isAlive_iff.1 hdead
  have hparent : s.parent? h = none := by simp [parent?, hnode]
  have hchildren : s.childList h = [] := by simp [childList, hnode]
  exact {
    isAlive := hdead
    parent := hparent
    firstChild := by simp [firstChild?, hchildren]
    child := by simp [child?, hchildren]
    childNamed := by simp [childNamed?, hchildren, findNamed]
    indexOf := by simp [indexOf?, hparent]
    nextSibling := by simp [nextSibling?, hparent]
    previousSibling := by simp [previousSibling?, hparent]
    root := by simp [root?, hdead] }

/-- A handle that was alive and has been freed is lost for good. -/
theorem Evolves.lost {s t u : Store} (h₁ : Evolves s t) (h₂ : Evolves t u) (hu : Unwrapped u)
    {h : Handle} (hs : s.isAlive h = true) (ht : t.isAlive h = false) : Lost u h := by
  have hissued : t.Issued h := h₁.issued (h₂.unwrapped hu) (Or.inr hs)
  exact lost_of_not_isAlive (h₂.not_isAlive hu hissued ht)

-- ---------------------------------------------------------------------------
-- Histories
-- ---------------------------------------------------------------------------

/-- The parts of a history have run one after the other. -/
theorem performAll_append_eq_some {s u : Store} {calls more : List Call} :
    s.performAll (calls ++ more) = some u ↔
      ∃ t, s.performAll calls = some t ∧ t.performAll more = some u := by
  cases hcalls : s.performAll calls with
  | some t => simp [performAll_append hcalls]
  | none =>
    induction calls generalizing s with
    | nil => simp [performAll] at hcalls
    | cons call rest ih =>
      cases hcall : call.perform s with
      | none => simp [performAll, hcall]
      | some t =>
        simp only [performAll, hcall, Option.bind_some, List.cons_append] at hcalls ⊢
        simpa using ih hcalls

theorem performAll_cons_eq_some {s u : Store} {call : Call} {rest : List Call} :
    s.performAll (call :: rest) = some u ↔
      ∃ t, call.perform s = some t ∧ t.performAll rest = some u := Option.bind_eq_some_iff

/-- What a call gives out was stale in every store before it, as far back as the
history goes. -/
theorem stale_before_given {s t u : Store} (hs : Balanced s) (he : Evolves s t) (hu : Unwrapped u)
    {call : Call} {h : Handle} (hcall : call.perform t = some u) (hgives : call.Gives t h) :
    s.isAlive h = false := by
  have hfresh := Call.fresh_of_gives (he.balanced hs) hcall hgives
  by_contra halive
  rw [Bool.not_eq_false] at halive
  have hbetween := he.isAlive_between (Call.perform_evolves hcall) hu halive hfresh.2
  simp [hfresh.1] at hbetween

/-- In every history without a slot freed 2^32 times, a call that makes nodes gives out
handles that are alive after it, that were stale in every store before it and that no
call before it gave out; and nothing is found any more through a handle that was alive
in one store of the history and stale in a later one. -/
theorem handles_given_once {calls : List Call} {s : Store}
    (hrun : empty.performAll calls = some s) (hu : ∀ i, s.freedAt i < 2 ^ 32) :
    (∀ before call after t u h, calls = before ++ call :: after →
        empty.performAll before = some t → call.perform t = some u → call.Gives t h →
        u.isAlive h = true ∧
          (∀ earlier v, earlier <+: before → empty.performAll earlier = some v →
            v.isAlive h = false) ∧
          ∀ earlier other rest v, before = earlier ++ other :: rest →
            empty.performAll earlier = some v → ¬ other.Gives v h) ∧
      ∀ first second rest t u h, calls = first ++ second ++ rest →
        empty.performAll first = some t → t.isAlive h = true →
        t.performAll second = some u → u.isAlive h = false → Lost s h := by
  constructor
  · rintro before call after t u h rfl hbefore hcall hgives
    obtain ⟨t', ht', hrest⟩ := performAll_append_eq_some.1 hrun
    obtain rfl : t = t' := Option.some.inj (hbefore.symm.trans ht')
    obtain ⟨u', hu', hafter⟩ := performAll_cons_eq_some.1 hrest
    obtain rfl : u = u' := Option.some.inj (hcall.symm.trans hu')
    have hunwrapped : Unwrapped u := (performAll_evolves hafter).unwrapped hu
    have ht : Balanced t := (performAll_evolves hbefore).balanced balanced_empty
    refine ⟨(Call.fresh_of_gives ht hcall hgives).2, ?_, ?_⟩
    · rintro earlier v ⟨later, rfl⟩ hv
      have hlater : v.performAll later = some t := (performAll_append hv).symm.trans hbefore
      exact stale_before_given ((performAll_evolves hv).balanced balanced_empty)
        (performAll_evolves hlater) hunwrapped hcall hgives
    · rintro earlier other rest v rfl hv hother
      -- the other call left the handle alive, and it was stale by then
      obtain ⟨w, hw, hlater⟩ := performAll_cons_eq_some.1 ((performAll_append hv).symm.trans hbefore)
      have hbalanced : Balanced v := (performAll_evolves hv).balanced balanced_empty
      have halive := (Call.fresh_of_gives hbalanced hw hother).2
      have hstale := stale_before_given ((Call.perform_evolves hw).balanced hbalanced)
        (performAll_evolves hlater) hunwrapped hcall hgives
      simp [halive] at hstale
  · rintro first second rest t u h rfl hfirst halive hsecond hdead
    obtain ⟨u', hu', hrest⟩ := performAll_append_eq_some.1 hrun
    obtain rfl : u = u' := by
      rw [performAll_append hfirst, hsecond] at hu'
      exact Option.some.inj hu'
    exact (performAll_evolves hsecond).lost (performAll_evolves hrest) hu halive hdead

/-- Nodes are made in all three ways, one of them is freed and its slot is used again. -/
def reused : List Call :=
  [.create "a" none, .add ⟨0, 0⟩ "b" none, .deepClone ⟨0, 0⟩, .remove ⟨1, 0⟩, .create "c" none]

def reusedStore : Store where
  slots := #[⟨0, some { name := "a" }⟩, ⟨1, some { name := "c" }⟩,
    ⟨0, some { name := "a", children := [⟨3, 0⟩] }⟩,
    ⟨0, some { name := "b", parent := some ⟨2, 0⟩ }⟩]
  live := 4

/-- A slot is used again, and the handle of its first occupant is lost. -/
theorem handles_given_once_reused :
    empty.performAll reused = some reusedStore ∧ (∀ i, reusedStore.freedAt i < 2 ^ 32) ∧
      reusedStore.isAlive ⟨1, 1⟩ = true ∧ Lost reusedStore ⟨1, 0⟩ := by
  have hrun : empty.performAll reused = some reusedStore := by cbv
  have hu : ∀ i, reusedStore.freedAt i < 2 ^ 32 := by
    intro i
    -- the store has four slots
    rcases i with _ | _ | _ | _ | i
    · decide
    · decide
    · decide
    · decide
    · simp [freedAt, reusedStore]
  obtain ⟨hgiven, hlost⟩ := handles_given_once hrun hu
  obtain ⟨t, ht, hlast⟩ := performAll_append_eq_some.1
    (show empty.performAll (reused.take 4 ++ [.create "c" none]) = some reusedStore from hrun)
  obtain ⟨u, hcall, hend⟩ := performAll_cons_eq_some.1 hlast
  obtain rfl : u = reusedStore := Option.some.inj hend
  -- the last call reuses the slot under its next generation
  have hgives : (Call.create "c" none).Gives t ⟨1, 1⟩ := by
    cbv at ht
    obtain rfl := Option.some.inj ht
    exact ⟨_, _, rfl, Or.inl rfl⟩
  refine ⟨hrun, hu, (hgiven (reused.take 4) (.create "c" none) [] t _ ⟨1, 1⟩ rfl ht hcall hgives).1,
    hlost (reused.take 2) (reused.drop 2) [] _ reusedStore ⟨1, 0⟩ rfl (by cbv) ?_ (by cbv) ?_⟩
  · decide
  · decide

end TreeScript.Store
