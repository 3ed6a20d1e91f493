import TreeScript.Keyword.Flow
import TreeScript.Proofs.Keyword.Arguments

/-!
# TreeScript — keywords of control keep a store in order

Executing blocks, raising signals and repeating a body. A loop takes its body out of its
node first, so the body is a row of trees of their own during the rounds, and each of them
goes back below the node or is freed.

* `keeps_eval`, `keeps_evalMutable` — executing;
* `keeps_returnValue`, `keeps_breakLoop`, `keeps_continueLoop` — signals;
* `ensures_rounds`, `ensures_restoreBody`, `keeps_forEach` — loops.
-/

namespace TreeScript.Keyword

open Store Engine

variable {F : Fence} {b s : Store} {T : Set Handle} {scope : Scope}

-- ---------------------------------------------------------------------------
-- Executing
-- ---------------------------------------------------------------------------

/-- Executing keeps a store in order, whatever the name of the node says about the first block. -/
theorem ensures_executeByName (hseal : F.Sealed) (hscope : scope.Keeps F b) (mode : BlockMode)
    (own : String → Bool) (h : Handle) :
    Ensures (fun t => Held F b s T t ∧ F.Present t h)
      (do
        let name ← (← Engine.nodes).name h
        execute mode scope h (own name))
      (fun _ => Held F b s T) (Held F b s T) := by
  refine Ensures.bind_nodes fun m => Ensures.bind_liftFault (R := fun _ _ => True) ?_ fun name _ => ?_
  · rintro t - ⟨rfl, -, hh⟩
    exact (ends_name hh.1).mono (fun _ _ => trivial) fun _ he => he
  · exact (ensures_execute hseal hscope mode h (own name)).before fun _ _ ht => ht.1.2

theorem keeps_eval (hseal : F.Sealed) : Handler.Keeps F b eval := by
  intro scope hscope s T h
  exact ensures_executeByName hseal hscope .copy (· != "eval") h

theorem keeps_evalMutable (hseal : F.Sealed) : Handler.Keeps F b evalMutable :=
  fun _ hscope _ _ h => ensures_executeByName hseal hscope .inPlace (· != "eval-mutable") h

-- ---------------------------------------------------------------------------
-- Signals
-- ---------------------------------------------------------------------------

/-- Raising a signal keeps a store in order, as it makes its sentinel below the node's own root. -/
theorem ensures_raiseSignal (hseal : F.Sealed) (c : Control) (h : Handle) {E : Store → Prop} :
    Ensures (fun t => F.Inside h ∧ Held F b s T t) (raiseSignal c h) (fun _ => Held F b s T) E := by
  refine Ensures.edit (fun hf => .signal hf) (fun hu ht hf => ?_) fun {t} _ ht hf => ?_
  · exact ⟨ht.2.since.signal hf hu, ht.2.fenced.signal hseal.door ht.1 hf⟩
  · obtain ⟨t', hok⟩ := ht.2.disciplined.signal_isOk h c
    simp [hok] at hf

theorem keeps_breakLoop (hseal : F.Sealed) : Handler.Keeps F b breakLoop := by
  intro scope _ s T h
  exact (ensures_raiseSignal hseal .break h).before fun t _ ht => ⟨ht.2.2, ht.1⟩

theorem keeps_continueLoop (hseal : F.Sealed) : Handler.Keeps F b continueLoop := by
  intro scope _ s T h
  exact (ensures_raiseSignal hseal .continue h).before fun t _ ht => ⟨ht.2.2, ht.1⟩

/-- What is returned after the value: clones of the children, and the signal. -/
def returnChildren (root h : Handle) : Engine Unit := do
  let below ← (← Engine.nodes).children h
  below.forM fun child => do
    let copy ← Engine.deepClone child
    Engine.append root copy
  raiseSignal .return h

/-- What is returned: the value first. -/
def returnAll (root h : Handle) : Engine Unit := do
  let v ← (← Engine.nodes).value h
  if v.isSome then
    match ← (← Engine.nodes).singleValue h with
    | none =>
      Engine.setValue root none
      returnChildren root h
    | some v =>
      let v ← ownValue v
      Engine.setValue root (some v)
      returnChildren root h
  else returnChildren root h

/-- `return` does nothing at a node without a root, and returns everything to the root otherwise. -/
theorem returnValue_eq (scope : Scope) (h : Handle) :
    returnValue scope h = Engine.nodes >>= fun s =>
      match s.root? h with
      | none => pure ()
      | some root => returnAll root h := rfl

/-- The copies of the children that are returned stay inside. -/
theorem ensures_returnChildren (hseal : F.Sealed) (root h : Handle) {E : Store → Prop} :
    Ensures (fun t => (F.Inside root ∧ F.Inside h) ∧ Held F b s T t ∧ t.isAlive h = true ∧
        t.isAlive root = true)
      (returnChildren root h) (fun _ => Held F b s T) E := by
  refine Ensures.bind_nodes fun m => ?_
  refine Ensures.bind_liftFault (R := fun t below => ∀ c ∈ below, t.isAlive c = true) ?_
    fun below hbelow => ?_
  · rintro t - ⟨rfl, -, ht, hh, -⟩
    exact ends_children ht.live hh
  have hloop := Ensures.forM (E := E) (f := fun child => do
      let copy ← Engine.deepClone child
      Engine.append root copy)
    (I := fun rest t => F.Inside h ∧ Held F b s T t ∧ F.Present t root ∧
      ∀ c ∈ rest, F.Present t c) (fun c rest => ?_) below
  · refine Ensures.bind (hloop.before ?_) fun _ =>
      (ensures_raiseSignal hseal .return h).before fun _ _ ht => ⟨ht.1, ht.2.1⟩
    rintro t - ⟨⟨rfl, ⟨hroot, hh⟩, ht, -, halive⟩, hlives⟩
    exact ⟨hh, ht, ⟨halive, hroot⟩, fun c hc =>
      ⟨hlives c hc, ht.fenced.children hh.1 hbelow c hc⟩⟩
  · refine ensures_graftLast (F := F) (b := b) (s := s) (T := T)
      (fun _ ht => ⟨ht.2.1, ht.2.2.1.1, ht.2.2.1.2.1⟩)
      (fun _ ht => ⟨(ht.2.2.2 c (by simp)).1, Or.inl (ht.2.2.2 c (by simp)).2.1⟩)
      fun _ ht hheld hkeep => ⟨ht.1, hheld, ⟨hkeep _ ht.2.2.1.1, ht.2.2.1.2⟩, fun x hx => ?_⟩
    have hx := ht.2.2.2 x (List.mem_cons_of_mem _ hx)
    exact ⟨hkeep x hx.1, hx.2⟩

/-- All that is returned stays inside: the root is above the node and so on the same side of the
fence. -/
theorem ensures_returnAll (hseal : F.Sealed) (root h : Handle) :
    Ensures (fun t => (F.Inside root ∧ F.Inside h) ∧ Held F b s T t ∧ Below t h root)
      (returnAll root h) (fun _ => Held F b s T) (Held F b s T) := by
  have hchildren := ensures_returnChildren (b := b) (s := s) (T := T) hseal root h
    (E := Held F b s T)
  -- a value that may be given away goes to the root
  have hgive : ∀ v, Ensures (fun t => (F.Inside root ∧ F.Inside h) ∧
      Spare F b s T root v t ∧ Below t h root)
      (Engine.setValue root v >>= fun _ => returnChildren root h) (fun _ => Held F b s T)
      (Held F b s T) := fun v =>
    Ensures.seq (F.Inside root ∧ F.Inside h)
      (ensures_give (F := F) (b := b) (s := s) (T := T) root h v)
      (fun t _ ht => ⟨ht.1, ht.2.1, ht.1.1.1, ht.2.2⟩) fun _ => hchildren
  refine Ensures.bind_nodes fun m => ?_
  refine Ensures.bind_liftFault (R := fun _ _ => True) ?_ fun v _ => ?_
  · rintro t - ⟨rfl, -, -, hh, -⟩
    exact (ends_value hh).mono (fun _ _ => trivial) fun _ he => he
  refine Ensures.ite (fun _ => ?_) fun _ => hchildren.before ?_
  · refine Ensures.bind_nodes fun m' => ?_
    refine Ensures.bind_lift
      (R := fun t v => ∀ w, v = some w → ∀ g, w.owned? = some g → t.Issued g) ?_
      (fun _ _ ht => ht.2.1.2.2.1) fun v hv => ?_
    · rintro t - ⟨rfl, ⟨-, -, ht, hh, -⟩, -⟩
      exact ends_singleValue ht.disciplined hh
    · cases v with
      | none =>
        exact (hgive none).before fun t _ ht => ⟨ht.1.2.1.2.1,
          spare_of_held ht.1.2.1.2.2.1 (Or.inl rfl), ht.1.2.1.2.2.2⟩
      | some v =>
        refine Ensures.seq (F.Inside root ∧ F.Inside h)
          (ensures_ownValue (F := F) (b := b) (s := s) (T := T) v h root) ?_ fun v' => hgive (some v')
        rintro t - ⟨⟨rfl, ⟨-, hinside, ht, hbelow⟩, -⟩, hissued⟩
        exact ⟨hinside, ⟨ht.fenced.singleValue hseal hinside.2 hv, hissued v rfl⟩, ht, hbelow⟩
  · rintro t - ⟨⟨-, hinside, ht, hbelow⟩, -⟩
    exact ⟨hinside, ht, hbelow.1, hbelow.isAlive ht.disciplined.linked⟩

theorem keeps_returnValue (hseal : F.Sealed) : Handler.Keeps F b returnValue := by
  intro scope hscope s T h
  rw [returnValue_eq]
  refine Ensures.bind_nodes fun m => ?_
  split
  next => exact (Ensures.skip ()).before fun _ _ ht => ht.2.1
  next root hroot =>
    refine (ensures_returnAll hseal root h).before ?_
    rintro t - ⟨rfl, ht, hh⟩
    exact ⟨⟨ht.fenced.root? hseal.door hh.2 hroot, hh.2⟩, ht, root?_eq_some hroot⟩

-- ---------------------------------------------------------------------------
-- Rounds
-- ---------------------------------------------------------------------------

/-- A thing to loop over does not point out, and what it owns was given out once. -/
def Looped (F : Fence) (s : Store) (item : Item) : Prop := item.Admitted F ∧ item.Known s True

/-- What a round sees of its item may be given to a child of the loop's node. -/
theorem ensures_itemValue (hseal : F.Sealed) (item : Item) (h : Handle) {E : Store → Prop} :
    Ensures (fun t => Looped F s item ∧ Held F b s T t ∧ t.isAlive h = true) (itemValue item)
      (fun v t => (v = none → Held F b s T t) ∧
        ∀ w, v = some w → Spare F b s T h (some w) t ∧ t.isAlive h = true) E := by
  -- a value that owns nothing is handed over in the store as it is
  have hplain : ∀ v : Value, v.owned? = none → Ensures (fun t => F.Admits v ∧ Held F b s T t ∧
      t.isAlive h = true) (pure (some v)) (fun v t => (v = none → Held F b s T t) ∧
        ∀ w, v = some w → Spare F b s T h (some w) t ∧ t.isAlive h = true) E := by
    intro v hv
    refine (Ensures.pure (some v)).before fun t _ ht => ⟨by simp, fun w hw => ?_⟩
    obtain rfl := Option.some.inj hw
    refine ⟨⟨fun x hx => ?_, Or.inl ⟨ht.2.1, by simp [hv]⟩⟩, ht.2.2⟩
    obtain rfl := Option.some.inj hx
    exact ht.1
  cases item with
  | node target =>
    refine Ensures.bind_isAlive (Ensures.ite (fun _ => ?_) (by simp)) (Ensures.ite (by simp)
      fun _ => (Ensures.pure none).before fun t _ ht => ⟨fun _ => ht.1.2.1, by simp⟩)
    exact (hplain (.ref target) rfl).before fun t _ ht =>
      ⟨(hseal.refs target).2 ht.1.1.1, ht.1.2⟩
  -- a detached value is cloned, and the clone is new and on top
  | value v =>
    refine Ensures.bind ((ensures_ownValue (F := F) (b := b) (s := s) (T := T) v h h).before
      fun t hu ht => ?_) fun v' => ?_
    · obtain ⟨⟨hadm, hknown⟩, hheld, halive⟩ := ht
      exact ⟨⟨hadm, fun g hg => hheld.since.evolves.issued hu (hknown g hg)⟩, hheld,
        Below.refl halive⟩
    · refine (Ensures.pure (some v')).before fun t _ ht => ⟨by simp, fun w hw => ?_⟩
      obtain rfl := Option.some.inj hw
      exact ⟨ht.1, ht.2.1⟩
  | name text =>
    exact (hplain (.scalar (.string text)) rfl).before fun t _ ht => ⟨trivial, ht.2⟩
  | count n =>
    exact (hplain (.scalar (.int (Int64.ofNat n))) rfl).before fun t _ ht => ⟨trivial, ht.2⟩

/-- A round up to the execution: the node is cleared, and gets the item and a fresh body. -/
def prepareRound (h : Handle) (body : List Handle) (current : Value) : Engine Unit := do
  Engine.clear h
  let _ ← Engine.add h "_dp" (some current)
  cloneBehind h body

theorem ensures_prepareRound (h : Handle) (body : List Handle) (current : Value)
    {E : Store → Prop} :
    Ensures (fun t => (F.Inside h ∧ Templates F b T body) ∧ Spare F b s T h (some current) t ∧
        t.isAlive h = true)
      (prepareRound h body current) (fun _ t => Held F b s T t ∧ t.isAlive h = true) E := by
  have hclear : Ensures (fun t => (F.Inside h ∧ Templates F b T body) ∧
      Spare F b s T h (some current) t ∧ t.isAlive h = true) (Engine.clear h)
      (fun _ t => (F.Inside h ∧ Templates F b T body) ∧ Spare F b s T h (some current) t ∧
        t.isAlive h = true) E := by
    refine Ensures.edit (fun hf => .clear hf) (fun hu ht hf => ?_) fun {t} _ ht hf => ?_
    · exact ⟨ht.1, ht.2.1.clear ht.1.1.1 hf hu, ht.2.1.disciplined.isAlive_clear_self hf⟩
    · obtain ⟨t', hok⟩ := ht.2.1.disciplined.clear_isOk ht.2.2
      simp [hok] at hf
  refine hclear.bind fun _ => ?_
  refine Ensures.seq (F.Inside h ∧ Templates F b T body)
    (ensures_add (F := F) (b := b) (s := s) (T := T) h h "_dp" (some current))
    (fun t _ ht => ⟨ht.1, ht.2.1, ht.1.1.1, ht.2.2, ht.2.2⟩) fun _ => ?_
  exact (ensures_cloneBehind (F := F) (b := b) (s := s) (T := T) h body).before
    fun t _ ht => ⟨⟨ht.1.1.1, ht.1.2⟩, ht.2.2.1, ht.2.2.2.1⟩

/-- What does not change during the rounds of a loop. -/
structure Looping (F : Fence) (b s : Store) (T : Set Handle) (h : Handle) (body : List Handle)
    (items : List Item) : Prop where
  inside : F.Inside h
  body : Templates F b T body
  items : ∀ i ∈ items, Looped F s i

/-- The same holds during the rounds for the items that are left. -/
theorem Looping.tail {h : Handle} {body : List Handle} {item : Item} {rest : List Item}
    (hl : Looping F b s T h body (item :: rest)) : Looping F b s T h body rest :=
  ⟨hl.inside, hl.body, fun i hi => hl.items i (List.mem_cons_of_mem _ hi)⟩

/-- What a loop does after a round, by the signal that has ended it. -/
def endRound (scope : Scope) (h : Handle) (body : List Handle) (rest : List Item) :
    Control → Engine Unit
  | .none => rounds scope h body rest
  | .continue => do
    let _ ← Engine.change fun s => s.clearSignal h
    rounds scope h body rest
  | .break => do
    let _ ← Engine.change fun s => s.clearSignal h
  | .return => pure ()

/-- A round in three parts: it is prepared, executed and evaluated. -/
theorem rounds_cons (scope : Scope) (h : Handle) (body : List Handle) (item : Item)
    (rest : List Item) :
    rounds scope h body (item :: rest) = Engine.isAlive h >>= fun alive =>
      if alive = true then itemValue item >>= fun
        | none => rounds scope h body rest
        | some current =>
          prepareRound h body current >>= fun _ => executeAll scope h >>= endRound scope h body rest
      else pure () := by
  rw [rounds]
  refine bind_congr fun alive => ?_
  cases alive with
  | false => rfl
  | true =>
    refine bind_congr fun current => ?_
    cases current with
    | none => rfl
    | some current =>
      exact ((bind_assoc _ _ _).trans (bind_congr fun _ => bind_assoc _ _ _)).symm

theorem ensures_endRound (hseal : F.Sealed) {h : Handle} {body : List Handle} {rest : List Item}
    (hrest : Ensures (fun t => Looping F b s T h body rest ∧ Held F b s T t)
      (rounds scope h body rest) (fun _ => Held F b s T) (Held F b s T)) (c : Control) :
    Ensures (fun t => Looping F b s T h body rest ∧ Held F b s T t) (endRound scope h body rest c)
      (fun _ => Held F b s T) (Held F b s T) := by
  have hend : Ensures (fun t => Looping F b s T h body rest ∧ Held F b s T t) (pure ())
      (fun _ => Held F b s T) (Held F b s T) := (Ensures.skip ()).before fun t _ ht => ht.2
  have hclear : Ensures (fun t => Looping F b s T h body rest ∧ Held F b s T t)
      (Engine.change fun t => t.clearSignal h)
      (fun _ t => Looping F b s T h body rest ∧ Held F b s T t) (Held F b s T) :=
    ((ensures_clearSignal hseal h).frame (Looping F b s T h body rest)).weaken
      (fun t _ ht => ⟨ht.1, ht.1.inside, ht.2⟩) (fun _ _ _ ht => ht) fun _ _ ht => ht.2
  cases c with
  | none => exact hrest
  | «continue» => exact hclear.bind fun _ => hrest
  | «break» => exact hclear.bind fun _ => hend
  | «return» => exact hend

theorem ensures_rounds (hseal : F.Sealed) (hscope : scope.Keeps F b) (h : Handle)
    (body : List Handle) (items : List Item) :
    Ensures (fun t => Looping F b s T h body items ∧ Held F b s T t) (rounds scope h body items)
      (fun _ => Held F b s T) (Held F b s T) := by
  -- by induction on the items: a round ends in what the next one begins with
  induction items with
  | nil => exact (Ensures.skip ()).before fun _ _ ht => ht.2
  | cons item rest ih =>
    rw [rounds_cons]
    refine Ensures.bind_isAlive (Ensures.ite (fun _ => ?_) (by simp))
      (Ensures.ite (by simp) fun _ => (Ensures.skip ()).before fun _ _ ht => ht.1.2)
    refine Ensures.seq (Looping F b s T h body (item :: rest))
      (ensures_itemValue (b := b) (s := s) (T := T) hseal item h)
      (fun t _ ht => ⟨ht.1.1, ht.1.1.items item (by simp), ht.1.2, ht.2⟩) fun v => ?_
    cases v with
    | none => exact ih.before fun t _ ht => ⟨ht.1.tail, ht.2.1 rfl⟩
    | some current =>
      refine Ensures.seq (Looping F b s T h body (item :: rest))
        (ensures_prepareRound (F := F) (b := b) (s := s) (T := T) h body current)
        (fun t _ ht => ⟨ht.1, ⟨ht.1.inside, ht.1.body⟩, ht.2.2 current rfl⟩) fun _ => ?_
      refine Ensures.seq (Looping F b s T h body (item :: rest))
        (ensures_executeAll (s := s) (T := T) hscope h)
        (fun t _ ht => ⟨ht.1, ht.2.1, ht.2.2, ht.1.inside⟩) fun c => ?_
      exact (ensures_endRound hseal ih c).before fun t _ ht => ⟨ht.1.tail, ht.2⟩

-- ---------------------------------------------------------------------------
-- Loops
-- ---------------------------------------------------------------------------

/-- The body of a loop in the store where the loop begins. -/
structure Body (F : Fence) (m : Store) (T : Set Handle) (h : Handle) (body : List Handle) :
    Prop where
  inside : F.Inside h
  disciplined : Disciplined m
  nodup : body.Nodup
  childOf : ∀ c ∈ body, m.ChildOf c h
  apart : ∀ c ∈ body, c ∉ T ∧ F.Inside c

/-- The body is taken out of the loop's node. -/
theorem ensures_takeBody {m : Store} (h : Handle) (body : List Handle) {E : Store → Prop} :
    Ensures (fun t => Body F m T h body ∧ t = m ∧ Held F b m T t) (body.forM Engine.detach)
      (fun _ t => Body F m T h body ∧ Held F b m (T ∪ { c | c ∈ body }) t) E := by
  -- on top are the nodes of the body that are no longer in what is to come
  have hloop := Ensures.forM (E := E) (f := Engine.detach) (I := fun rest t =>
    (Body F m T h body ∧ rest.Nodup ∧ ∀ c ∈ rest, c ∈ body) ∧
      Held F b m (T ∪ { c | c ∈ body ∧ c ∉ rest }) t ∧ ∀ c ∈ rest, t.ChildOf c h)
    (fun c rest => ?_) body
  · refine hloop.weaken ?_ (fun _ t _ ht => ⟨ht.1.1, ht.2.1.congr fun x => by simp⟩)
      fun _ _ ht => ht
    rintro t - ⟨hbody, rfl, ht⟩
    refine ⟨⟨hbody, hbody.nodup, fun _ hc => hc⟩, ht.congr fun x => ?_, hbody.childOf⟩
    simp
  · refine Ensures.edit_ok (fun t => .detach t c) fun {t} hu ht => ?_
    obtain ⟨⟨hbody, hnodup, hsub⟩, hheld, hchildren⟩ := ht
    obtain ⟨hc, hnodup⟩ := List.nodup_cons.1 hnodup
    have hmem := hsub c (by simp)
    refine ⟨⟨hbody, hnodup, fun x hx => hsub x (List.mem_cons_of_mem _ hx)⟩,
      ⟨(hheld.since.detach (hchildren c (by simp)) hu).congr fun x => ?_,
        hheld.fenced.detach (hbody.apart c hmem).2⟩, fun x hx => ?_⟩
    -- the node just taken out joins those on top
    · simp only [Set.mem_union, Set.mem_ofPred_eq, Set.mem_singleton_iff, List.mem_cons, not_or,
        or_assoc]
      refine or_congr_right ⟨?_, ?_⟩
      · rintro (⟨hx, -, hrest⟩ | rfl)
        · exact ⟨hx, hrest⟩
        · exact ⟨hmem, hc⟩
      · rintro ⟨hx, hrest⟩
        by_cases heq : x = c
        · exact Or.inr heq
        · exact Or.inl ⟨hx, heq, hrest⟩
    -- the others are still children of the same parent
    · have hne : x ≠ c := fun heq => hc (heq ▸ hx)
      unfold Store.ChildOf
      rw [parent?_detach, if_neg hne]
      exact hchildren x (List.mem_cons_of_mem _ hx)

/-- A node without parent that is moved behind the children of another one. -/
theorem moveBelow_last {t : Store} {p c : Handle} (hc : t.parent? c = none)
    (hp : t.isAlive p = true) (halive : t.isAlive c = true) :
    t.moveBelow p (t.childList p).length c = .ok (t.linkLast p c) := by
  have hplace : t.targetIndex p (t.childList p).length c = (t.childList p).length := by
    simp [targetIndex, hc]
  simp [Store.moveBelow, hplace, detach_eq_self hc, hp, halive, linkLast]

/-- A node that is put behind the children of another is the last of them. -/
theorem childList_linkLast_self {t : Store} {p c : Handle} (hp : t.isAlive p = true)
    (hne : p ≠ c) : (t.linkLast p c).childList p = t.childList p ++ [c] := by
  obtain ⟨n, hn⟩ := isAlive_iff.1 hp
  have hnode : (t.linkLast p c).node? p = some { n with children := n.children ++ [c] } := by
    rw [node?_linkLast hn hne, hn]
    simp [hne]
  rw [childList_eq hnode, childList_eq hn]

/-- A body of which the members `rest` are still aside. -/
structure Body.Aside (F : Fence) (b m : Store) (T : Set Handle) (h : Handle)
    (body rest : List Handle) (t : Store) : Prop where
  of : Body F m T h body
  nodup : rest.Nodup
  subset : ∀ c ∈ rest, c ∈ body
  held : Held F b m (T ∪ { c | c ∈ rest }) t
  alive : t.isAlive h = true

namespace Body.Aside

variable {m t t' : Store} {h c : Handle} {body rest : List Handle}

/-- A member of the body can be put back. -/
theorem ready (ht : Aside F b m T h body (c :: rest) t) :
    Disciplined t ∧ t.isAlive h = true ∧ t.isAlive c = true ∧ ¬ t.Reaches c h := by
  refine ⟨ht.held.disciplined, ht.alive, ht.held.isAlive (Or.inr (by simp)), fun hreach => ?_⟩
  -- it did not lead to its parent, and no way to the parent is new
  have hholds := holds_of_childOf ht.of.disciplined.linked (ht.of.childOf c (ht.subset c (by simp)))
  exact ht.of.disciplined.not_reaches_holder hholds
    (ht.held.since.reaches_back hholds.isAlive ht.alive hreach)

/-- A member of the body has been put back. -/
theorem moved (ht : Aside F b m T h body (c :: rest) t) {i : Nat}
    (hok : t.moveBelow h i c = .ok t') (hu : Unwrapped t') : Aside F b m T h body rest t' := by
  obtain ⟨hc, hnodup⟩ := List.nodup_cons.1 ht.nodup
  have hmem := ht.subset c (by simp)
  obtain ⟨hcT, hinside⟩ := ht.of.apart c hmem
  have hmoved := ht.held.moveBelow hok ht.of.inside.1 hinside (Or.inl (Or.inr (by simp)))
    ht.ready.2.2.2 (fun _ => ⟨holds_of_childOf ht.of.disciplined.linked (ht.of.childOf c hmem),
      ht.of.childOf c hmem⟩) hu
  refine ⟨ht.of, hnodup, fun x hx => ht.subset x (List.mem_cons_of_mem _ hx),
    hmoved.congr fun x => ?_, by rw [isAlive_moveBelow hok]; exact ht.alive⟩
  simp only [Set.mem_sdiff, Set.mem_union, Set.mem_ofPred_eq, List.mem_cons,
    Set.mem_singleton_iff]
  grind

end Body.Aside

/-- A body of which the members `rest` are still aside, and the others are the children again. -/
structure Body.Rebuilt (F : Fence) (b m : Store) (T : Set Handle) (h : Handle)
    (body rest : List Handle) (t : Store) : Prop where
  aside : Body.Aside F b m T h body rest t
  order : t.childList h ++ rest = body

/-- A member of the body comes behind those that are there. -/
theorem Body.Rebuilt.moved {m t t' : Store} {h c : Handle} {body rest : List Handle}
    (ht : Rebuilt F b m T h body (c :: rest) t)
    (hok : t.moveBelow h (t.childList h).length c = .ok t') (hu : Unwrapped t') :
    Rebuilt F b m T h body rest t' := by
  refine ⟨ht.aside.moved hok hu, ?_⟩
  obtain ⟨hd, hh, hc, hback⟩ := ht.aside.ready
  have htop : t.Top c := ht.aside.held.since.top (Or.inr (by simp))
  have hne : h ≠ c := fun heq => hback (heq ▸ .refl _ _)
  rw [moveBelow_last (htop.parent? hd.linked) hh hc] at hok
  obtain rfl := Except.ok.inj hok
  rw [childList_linkLast_self hh hne, List.append_assoc]
  exact ht.order

/-- The body goes back below the loop's node, in its order, or is freed if that is gone. -/
theorem ensures_restoreBody {m : Store} (h : Handle) (body : List Handle) {E : Store → Prop} :
    Ensures (fun t => (Body F m T h body ∧ m.isAlive h = true) ∧
        Held F b m (T ∪ { c | c ∈ body }) t)
      (restoreBody h body)
      (fun _ t => Held F b m T t ∧ (t.isAlive h = true → t.childList h = body)) E := by
  refine Ensures.bind_isAlive (Ensures.ite (fun _ => ?_) (by simp)) (Ensures.ite (by simp)
    fun _ => ?_)
  -- the target is emptied, then the body is appended in its order
  · have hloop := Ensures.forM (E := E) (f := Engine.append h) (I := Body.Rebuilt F b m T h body)
      (fun c rest => ensures_append (fun _ ht => ht.aside.ready) fun hu ht hok => ht.moved hok hu)
      body
    refine Ensures.bind (ensures_clear (F := F) (b := b) (s := m) (T := T ∪ { c | c ∈ body })
      (fun _ ht => ⟨ht.1.2, ht.2, ht.1.1.1.inside.1⟩) fun _ ht hok hheld => ?_) fun _ =>
        hloop.weaken (fun _ _ ht => ht) (fun _ t _ ht => ⟨ht.aside.held.congr fun x => by simp,
          fun _ => by simpa using ht.order⟩) fun _ _ ht => ht
    exact ⟨⟨ht.1.1.1, ht.1.1.1.nodup, fun _ hc => hc, hheld,
      ht.1.2.disciplined.isAlive_clear_self hok⟩,
      by rw [ht.1.2.disciplined.childList_clear_self hok, List.nil_append]⟩
  · -- a node that is gone is not there again when the body has been freed
    refine Ensures.start fun t₀ => ((ensures_removeAll (F := F) (b := b) (s := t₀) (T := T)
      body).frame ((m.isAlive h = true ∧ t₀.isAlive h = false) ∧
        Held F b m (T ∪ { c | c ∈ body }) t₀)).weaken ?_ ?_ fun _ _ ht => ht.2
    · rintro t - ⟨rfl, ⟨⟨hbody, hh⟩, hheld⟩, hdead⟩
      exact ⟨⟨⟨hh, hdead⟩, hheld⟩, ⟨hbody.nodup, hbody.apart⟩, hheld.rebase⟩
    · rintro _ t hu ⟨⟨⟨hh, hdead⟩, hheld⟩, hend⟩
      refine ⟨hheld.trans hend hu, fun hlive => ?_⟩
      have hbetween := hheld.since.evolves.isAlive_between hend.since.evolves hu hh hlive
      simp [hdead] at hbetween

/-- A loop keeps the store in order, and its node has the children that it had, in their order,
if it is still there. -/
theorem ensures_forEach (hseal : F.Sealed) (hscope : scope.Keeps F b) (h : Handle) (m : Store) :
    Ensures (fun t => t = m ∧ Held F b s T t ∧ F.Present t h) (forEach scope h)
      (fun _ t => Held F b s T t ∧ (t.isAlive h = true → t.childList h = m.childList h))
      (fun t => Held F b s T t ∧ (t.isAlive h = true → t.childList h = m.childList h)) := by
  refine Ensures.bind_nodes fun m' => ?_
  refine Ensures.bind_lift (R := fun t items => ∀ i ∈ items, i.Known t t.Dangles) ?_
    (fun _ _ ht => ⟨ht.2.2.1, fun _ => by rw [ht.2.1]⟩) fun items hitems => ?_
  · rintro t - ⟨rfl, -, ht, hh⟩
    exact ends_resolve ht.disciplined hh.1
  refine Ensures.bind_nodes fun m'' => ?_
  refine Ensures.bind_liftFault (R := fun _ _ => True) ?_ fun body hbody => ?_
  · rintro t - ⟨rfl, ⟨-, -, ht, hh⟩, -⟩
    exact (ends_children ht.live hh.1).mono (fun _ _ => trivial) fun _ he => he
  -- from here on the store to return to is the one before the body was taken out
  refine Ensures.seq (((Held F b s T m ∧ m.childList h = body) ∧ m.isAlive h = true) ∧
      ∀ i ∈ items, Looped F m i)
    (ensures_takeBody (F := F) (b := b) (m := m) (T := T) h body) ?_ fun _ => ?_
  · rintro t - ⟨⟨rfl, ⟨rfl, rfl, ht, hh⟩, hknown⟩, -⟩
    obtain ⟨n, hn, rfl⟩ := children_eq_ok.1 hbody
    have hadm := ht.fenced.resolve hseal hh.2 hitems
    refine ⟨⟨⟨⟨ht, childList_eq hn⟩, hh.1⟩, fun i hi => ⟨hadm i hi, (hknown i hi).mono fun _ => trivial⟩⟩,
      ⟨hh.2, ht.disciplined, ht.disciplined.linked.nodup hn, fun c hc =>
        ht.disciplined.childOf_of_mem (by rwa [childList_eq hn]), fun c hc => ?_⟩, rfl, ht.rebase⟩
    · exact ⟨ht.since.not_mem_of_holds ⟨n, hn, Or.inl hc⟩,
        ht.fenced.children hh.2.1 hbody c hc⟩
  -- putting the body back makes up for taking it out, on every exit
  · have hrestore : Ensures (fun t => (((Held F b s T m ∧ m.childList h = body) ∧
          m.isAlive h = true) ∧ Body F m T h body) ∧ Held F b m (T ∪ { c | c ∈ body }) t)
        (restoreBody h body)
        (fun _ t => Held F b s T t ∧ (t.isAlive h = true → t.childList h = m.childList h))
        (fun t => Held F b s T t ∧ (t.isAlive h = true → t.childList h = m.childList h)) :=
      ((ensures_restoreBody (F := F) (b := b) (m := m) (T := T) h body (E := fun t =>
        Held F b m T t ∧ (t.isAlive h = true → t.childList h = body))).frame
          (Held F b s T m ∧ m.childList h = body)).weaken
        (fun t _ ht => ⟨ht.1.1.1, ⟨ht.1.2, ht.1.1.2⟩, ht.2⟩)
        (fun _ t hu ht => ⟨ht.1.1.trans ht.2.1 hu, fun hh => (ht.2.2 hh).trans ht.1.2.symm⟩)
        fun t hu ht => ⟨ht.1.1.trans ht.2.1 hu, fun hh => (ht.2.2 hh).trans ht.1.2.symm⟩
    have hrounds := ((ensures_rounds (s := m) (T := T ∪ { c | c ∈ body }) hseal hscope h body
      items).frame (((Held F b s T m ∧ m.childList h = body) ∧ m.isAlive h = true) ∧
        Body F m T h body)).before (I := fun t =>
        (((Held F b s T m ∧ m.childList h = body) ∧ m.isAlive h = true) ∧
          ∀ i ∈ items, Looped F m i) ∧ Body F m T h body ∧ Held F b m (T ∪ { c | c ∈ body }) t)
      fun t _ ht => ⟨⟨ht.1.1, ht.2.1⟩, ⟨ht.2.1.inside, fun c hc =>
        ⟨Or.inr hc, Or.inl (ht.2.1.apart c hc).2.1⟩, ht.1.2⟩, ht.2.2⟩
    exact Ensures.always (hrounds.nested fun t _ ht => ⟨ht.2.2.live, ⟨ht.1.1, ht.2.1⟩, ht.2.2⟩)
      (fun _ => hrestore) hrestore

theorem keeps_forEach (hseal : F.Sealed) : Handler.Keeps F b forEach := by
  intro scope hscope s T h
  exact Ensures.start fun m => (ensures_forEach hseal hscope h m).weaken (fun _ _ ht => ht)
    (fun _ _ _ ht => ht.1) fun _ _ ht => ht.1

end TreeScript.Keyword
