import TreeScript.Engine.Execute
import TreeScript.Proofs.Engine.Block
import TreeScript.Proofs.Store.Load

/-!
# TreeScript — executing nodes keeps a store in order

Executing a node by its value, and executing a program. Argument templates and the blocks
of texts are trees of their own while they are needed, and freed on every way out.

* `Item.block?`, `Sourced`, `ensures_toSource` — the blocks that a value leads to;
* `runItem`, `ensures_runSources_of` — one block after the other;
* `ensures_runSources`, `ensures_templates`, `ensures_executeSources` — executing them;
* `ensures_execute`, `ensures_evaluate` — nodes and programs.
-/

namespace TreeScript

open Store Engine

variable {F : Fence} {b s : Store} {T : Set Handle} {scope : Scope}

-- ---------------------------------------------------------------------------
-- Executing by value
-- ---------------------------------------------------------------------------

/-- The node that an item names. -/
def Item.block? : Item → Option Handle
  | .node h => some h
  | .value v => v.target?
  | .name _ => none
  | .count _ => none

/-- What is known of the block that an item led to. One that was there is named by the
item, and one that was made of a text is a tree of its own, without references. -/
def Sourced (F : Fence) (b s : Store) (T : Set Handle) (t₀ : Store) (item : Item) :
    Option Source → Store → Prop
  | none, t => t = t₀
  | some source, t =>
    if source.owned then
      (source.block ∉ T ∧ F.Inside source.block ∧ item.block? = none) ∧
        Sprouted t₀ source.block t ∧ Held F b s (T ∪ {source.block}) t ∧ t.Bare source.block
    else t = t₀ ∧ t.isAlive source.block = true ∧ item.block? = some source.block

variable {t₀ : Store} {item : Item}

/-- A store with its nodes as they were is still held. -/
theorem Store.Held.restored {t t' : Store} (h : Held F b s T t) (hback : Restored t t')
    (hu : Unwrapped t') : Held F b s T t' :=
  ⟨hback.since h.since hu, hback.fenced h.fenced hu⟩

/-- What is known of a text that has been read, or not. -/
def Read (F : Fence) (b s : Store) (T : Set Handle) (t₀ : Store) (item : Item) :
    Except ReadError Handle → Store → Prop
  | .ok block, t => Sourced F b s T t₀ item (some ⟨block, true⟩) t
  | .error _, t => Restored t₀ t ∧ LiveChildren t

/-- A text that is read is a tree of its own, and one that is refused leaves the nodes. -/
theorem ensures_load (hitem : item.block? = none) (text : String) {E : Store → Prop} :
    Ensures (fun t => t = t₀ ∧ Held F b s T t) (Engine.load text) (Read F b s T t₀ item) E := by
  refine Ensures.change (fun {t a t'} hf => ?_) (fun {t a t'} hu ht hf => ?_)
    fun {t} _ _ hf => by simp at hf
  · have hload := Evolves.load t text
    rwa [Except.ok.inj hf] at hload
  · obtain ⟨rfl, ht⟩ := ht
    have hload : t.load text = (a, t') := Except.ok.inj hf
    have hbal := ht.disciplined.balanced
    cases hp : t.parse text with
    | ok r =>
      obtain ⟨rfl, rfl⟩ := Prod.mk.inj (hload.symm.trans (load_of_parse_eq_ok hbal hp))
      have hsprout := hbal.sprouted_parse hp
      obtain ⟨hfenced, hinside⟩ := ht.fenced.parse hp
      exact ⟨⟨ht.since.not_mem_of_sprouted hsprout, hinside, hitem⟩, hsprout,
        ⟨ht.since.parse hp hu, hfenced⟩, ht.disciplined.bare_parse hp⟩
    | error e =>
      obtain ⟨t'', hfailed, hback⟩ := load_of_parse_eq_error hbal hp
      obtain ⟨rfl, rfl⟩ := Prod.mk.inj (hload.symm.trans hfailed)
      exact ⟨hback, (hback.disciplined ht.disciplined hu).live⟩

/-- A text becomes a source, or the nodes are as they were. -/
theorem ensures_sourceOfText (hitem : item.block? = none) (h : Handle) (text : String) :
    Ensures (fun t => t = t₀ ∧ Held F b s T t) (sourceOfText h text) (Sourced F b s T t₀ item)
      (Restored t₀) := by
  refine (ensures_load hitem text).bind fun r => ?_
  cases r with
  | ok block => exact (Ensures.pure (some (Source.mk block true))).before fun _ _ ht => ht
  | error e => exact Ensures.fail h _ fun t _ ht => ⟨ht.2, ht.1⟩

/-- A block is looked up without changing anything, or read from a text. -/
theorem ensures_toSource (h : Handle) (item : Item) :
    Ensures (fun t => t = t₀ ∧ Held F b s T t) (toSource h item) (Sourced F b s T t₀ item)
      (Restored t₀) := by
  have hlive : ∀ block, item.block? = some block →
      Ensures (fun t => t = t₀ ∧ Held F b s T t) (toSource.live block) (Sourced F b s T t₀ item)
      (Restored t₀) := fun block hblock =>
    Ensures.bind_isAlive ((Ensures.pure _).before fun t _ ht => ⟨ht.1.1, ht.2, hblock⟩)
      ((Ensures.pure _).before fun t _ ht => ht.1.1)
  have hfail : ∀ f, Ensures (fun t => t = t₀ ∧ Held F b s T t) (Engine.fail h f)
      (Sourced F b s T t₀ item) (Restored t₀) :=
    fun f => Ensures.fail h f fun t _ ht => ⟨ht.2.live, ht.1 ▸ .refl _⟩
  unfold toSource
  split
  next block => exact hlive block rfl
  next block => exact hlive block rfl
  next block => exact hlive block rfl
  next text => exact ensures_sourceOfText rfl h text
  next text => exact ensures_sourceOfText rfl h text
  next => exact hfail _
  next => exact hfail _

-- ---------------------------------------------------------------------------
-- One block after the other
-- ---------------------------------------------------------------------------

/-- Executes the block of one item, and tells whether there was one. -/
def runItem (mode : BlockMode) (scope : Scope) (h : Handle) (args : List Handle) (first : Bool)
    (item : Item) : Engine Bool := do
  match ← toSource h item with
  | none => return false
  | some source =>
    Engine.always (executeBlock mode scope source.block h args first)
      (if source.owned then Engine.remove source.block else pure ())
    return true

/-- The first item is run, and the others only if no signal is pending then. -/
theorem runSources_cons (mode : BlockMode) (scope : Scope) (h : Handle) (args : List Handle)
    (first : Bool) (item : Item) (rest : List Item) :
    runSources mode scope h args first (item :: rest) = (do
      if ← Engine.isAlive h then
        if ← runItem mode scope h args first item then
          let c ← (← Engine.nodes).pending h
          unless c.isActive do runSources mode scope h args false rest
        else runSources mode scope h args first rest : Engine Unit) := by
  rw [runSources]
  refine bind_congr fun alive => ?_
  cases alive with
  | false => rfl
  | true =>
    simp only [runItem, bind_assoc, if_true]
    refine bind_congr fun source => ?_
    cases source with
    | none => simp
    | some source => simp

/-- An invariant of each block holds of all of them. It may tell whether a block has been
executed, and which items are left. -/
theorem ensures_runSources_of {mode : BlockMode} {h : Handle} {args : List Handle}
    {I : Bool → List Item → Store → Prop} {E : Store → Prop}
    (hlive : ∀ first items t, I first items t → LiveChildren t)
    (hitem : ∀ first item rest, Ensures (fun t => I first (item :: rest) t ∧ t.isAlive h = true)
      (runItem mode scope h args first item) (fun ran t => I (first && !ran) rest t) E)
    (first : Bool) (items : List Item) :
    Ensures (I first items) (runSources mode scope h args first items)
      (fun _ t => ∃ first items, I first items t) E := by
  induction items generalizing first with
  | nil => exact (Ensures.pure ()).before fun _ _ ht => ⟨first, [], ht⟩
  | cons item rest ih =>
    have hend : ∀ {first items}, Ensures (I first items) (pure () : Engine Unit)
        (fun _ t => ∃ first items, I first items t) E := (Ensures.pure ()).before
      fun _ _ ht => ⟨_, _, ht⟩
    rw [runSources_cons]
    refine Ensures.bind_isAlive ?_ (hend.before fun _ _ ht => ht.1)
    refine Ensures.ite (fun _ => ?_) (by simp)
    refine (hitem first item rest).bind fun ran => ?_
    cases ran with
    | false => exact (ih first).before fun t _ ht => by simpa using ht
    | true =>
      -- after a block has been executed, a signal may end it all
      refine Ensures.ite (fun _ => ?_) (by simp)
      refine Ensures.bind_nodes fun m => ?_
      refine Ensures.bind_liftFault (R := fun _ _ => True) ?_ fun c _ => ?_
      · rintro t - ⟨rfl, ht⟩
        exact ends_pending (hlive _ _ _ ht) h
      · exact Ensures.ite (fun _ => hend.before fun _ _ ht => ht.1.2)
          fun _ => (ih false).before fun t _ ht => by simpa using ht.1.2

/-- What has to be known to execute the blocks of some items inside a sealed fence. -/
def Sources (F : Fence) (b : Store) (T : Set Handle) (h : Handle) (args : List Handle)
    (items : List Item) : Prop :=
  F.Inside h ∧ Templates F b T args ∧ ∀ i ∈ items, i.Admitted F

theorem Item.Admitted.inside (hseal : F.Sealed) {item : Item} (hitem : item.Admitted F)
    {block : Handle} (hblock : item.block? = some block) : F.Inside block := by
  cases item with
  | node h =>
    obtain rfl := Option.some.inj hblock
    exact hitem
  | value v => exact hseal.inside_target hitem hblock
  | name _ => simp [Item.block?] at hblock
  | count _ => simp [Item.block?] at hblock

theorem ensures_runItem (hseal : F.Sealed) (hscope : scope.Keeps F b) (mode : BlockMode)
    (h : Handle) (args : List Handle) (first : Bool) (item : Item) :
    Ensures (fun t => (F.Inside h ∧ Templates F b T args ∧ item.Admitted F) ∧ Held F b s T t ∧
        t.isAlive h = true)
      (runItem mode scope h args first item) (fun _ => Held F b s T) (Held F b s T) := by
  refine Ensures.start fun m => ?_
  -- the item becomes a source in a store that is otherwise the one before
  refine Ensures.bind (Q := fun source t => ((F.Inside h ∧ Templates F b T args ∧
      item.Admitted F) ∧ Held F b s T m ∧ m.isAlive h = true) ∧ Sourced F b s T m item source t)
    (((ensures_toSource h item).frame _).weaken ?_ (fun _ _ _ ht => ht) ?_) fun source => ?_
  · rintro t - ⟨rfl, hpure, hheld⟩
    exact ⟨⟨hpure, hheld⟩, rfl, hheld.1⟩
  · rintro t hu ⟨⟨-, hheld, -⟩, hback⟩
    exact hheld.restored hback hu
  · cases source with
    | none => exact (Ensures.pure false).before fun t _ ⟨⟨_, hheld, _⟩, heq⟩ => heq ▸ hheld
    | some source =>
      obtain ⟨block, owned⟩ := source
      cases owned with
      -- a node of the tree is executed where it stands
      | false =>
        refine Ensures.bind ?_ fun _ => Ensures.skip true
        refine ((ensures_executeBlock (s := s) (T := T) hseal hscope mode block h args first).always
          (fun _ => Ensures.skip _) (Ensures.skip _)).before ?_
        rintro t - ⟨⟨⟨hinside, hargs, hitem⟩, hheld, hh⟩, rfl, halive, hblock⟩
        exact ⟨hargs, hheld, ⟨halive, hitem.inside hseal hblock⟩, hh, hinside⟩
      -- a text has made a block of its own, which is freed on every exit
      | true =>
        have hremove : Ensures (fun t => (block ∉ T ∧ F.Inside block) ∧
            Held F b s (T ∪ {block}) t) (Engine.remove block) (fun _ => Held F b s T)
            (Held F b s T) :=
          ensures_remove (fun _ ht => ⟨ht.2, ht.1.2⟩) fun _ ht hheld => hheld.forget ht.1.1
        refine Ensures.bind ?_ fun _ => Ensures.skip true
        refine (((ensures_executeBlock (s := s) (T := T ∪ {block}) hseal hscope mode block h args
          first).frame (block ∉ T ∧ F.Inside block)).always (fun _ => hremove) hremove).before ?_
        rintro t - ⟨⟨⟨hinside, hargs, -⟩, -, hh⟩, hnew, hsprout, hheld, -⟩
        exact ⟨⟨hnew.1, hnew.2.1⟩, fun a ha => ⟨Or.inl (hargs a ha).1, (hargs a ha).2⟩, hheld,
          ⟨hheld.isAlive (Or.inr rfl), hnew.2.1⟩, hsprout.isAlive hh, hinside⟩

/-- The blocks that a value led to are executed one after the other. -/
theorem ensures_runSources (hseal : F.Sealed) (hscope : scope.Keeps F b) (mode : BlockMode)
    (h : Handle) (args : List Handle) (items : List Item) (first : Bool) :
    Ensures (fun t => Sources F b T h args items ∧ Held F b s T t)
      (runSources mode scope h args first items) (fun _ => Held F b s T) (Held F b s T) := by
  refine (ensures_runSources_of (I := fun _ items t => Sources F b T h args items ∧ Held F b s T t)
    (fun _ _ _ ht => ht.2.live) (fun first item rest => ?_) first items).weaken (fun _ _ ht => ht)
    (fun _ t _ ⟨_, _, ht⟩ => ht.2) fun _ _ ht => ht
  refine ((ensures_runItem (s := s) (T := T) hseal hscope mode h args first item).frame
    (Sources F b T h args rest)).weaken ?_ (fun _ _ _ ht => ht) fun _ _ ht => ht.2
  rintro t - ⟨⟨⟨hinside, hargs, hitems⟩, hheld⟩, hh⟩
  obtain ⟨hitem, hrest⟩ := List.forall_mem_cons.1 hitems
  exact ⟨⟨hinside, hargs, hrest⟩, ⟨hinside, hargs, hitem⟩, hheld, hh⟩

/-- Copies of nodes that are there, set aside. They are new. -/
theorem ensures_templates (args : List Handle) {E : Store → Prop} :
    Ensures (fun t => Held F b s T t ∧ ∀ a ∈ args, t.isAlive a = true ∧ F.Copies b a)
      (args.mapM Engine.deepClone)
      (fun templates t => (templates.Nodup ∧ ∀ c ∈ templates, c ∉ T ∧ F.Inside c) ∧
        Held F b s (T ∪ { c | c ∈ templates }) t ∧
        ∀ c ∈ templates, t.Whole c ∧ s.isAlive c = false) E := by
  refine (Ensures.mapM (I := fun done t => ((done.Nodup ∧ ∀ c ∈ done, c ∉ T ∧ F.Inside c) ∧
    Held F b s (T ∪ { c | c ∈ done }) t ∧ ∀ c ∈ done, t.Whole c ∧ s.isAlive c = false) ∧
    ∀ a ∈ args, t.isAlive a = true ∧ F.Copies b a) (fun a ha done => ?_)
    []).weaken (fun t _ ht => ?_) (fun _ _ _ ht => ht.1) fun _ _ ht => ht
  · refine ensures_deepClone (F := F) (b := b) (s := s) (T := T ∪ { c | c ∈ done })
      (fun _ ht => ⟨ht.1.2.1, ht.2 a ha⟩) fun {t c t'} hu ht hsprout hheld hinside => ?_
    obtain ⟨⟨⟨hnodup, hdone⟩, hheld₀, hwhole⟩, hargs⟩ := ht
    -- a copy made later is neither set aside before nor one of the earlier copies
    have hnot := hheld₀.since.not_mem_of_sprouted hsprout
    simp only [Set.mem_union, Set.mem_ofPred_eq, not_or] at hnot
    refine ⟨⟨⟨?_, ?_⟩, hheld.congr fun x => ?_, ?_⟩, fun x hx => ?_⟩
    -- the new copy joins the ones already made
    · refine List.nodup_append.2 ⟨hnodup, by simp, fun x hx y hy => ?_⟩
      obtain rfl := List.mem_singleton.1 hy
      exact fun heq => hnot.2 (heq ▸ hx)
    · intro x hx
      rcases List.mem_append.1 hx with hx | hx
      · exact hdone x hx
      · obtain rfl := List.mem_singleton.1 hx
        exact ⟨hnot.1, hinside⟩
    · simp only [Set.mem_union, Set.mem_ofPred_eq, Set.mem_singleton_iff, List.mem_append,
        List.mem_singleton, or_assoc]
    · intro x hx
      rcases List.mem_append.1 hx with hx | hx
      · exact ⟨(hwhole x hx).1.of_keeps fun _ _ _ hn => hsprout.keeps hn, (hwhole x hx).2⟩
      · obtain rfl := List.mem_singleton.1 hx
        exact ⟨hsprout.whole, hheld₀.since.not_isAlive_of_sprouted hsprout hu⟩
    · exact ⟨hsprout.isAlive (hargs x hx).1, (hargs x hx).2⟩
  · exact ⟨⟨⟨by simp, by simp⟩, ht.1.congr fun x => by simp, by simp⟩, ht.2⟩

theorem ensures_executeSources (hseal : F.Sealed) (hscope : scope.Keeps F b) (mode : BlockMode)
    (h : Handle) :
    Ensures (fun t => Held F b s T t ∧ F.Present t h) (executeSources mode scope h)
      (fun _ => Held F b s T) (Held F b s T) := by
  -- the items and the arguments are read before any source runs
  refine Ensures.bind_nodes fun m => ?_
  refine Ensures.bind_lift (R := fun _ _ => True) ?_ (fun _ _ ht => ht.2.1) fun items hitems => ?_
  · rintro t - ⟨rfl, ht, hh⟩
    exact (ends_resolve ht.disciplined hh.1).mono (fun _ _ => trivial) fun _ he => he
  refine Ensures.bind_nodes fun m' => ?_
  refine Ensures.bind_liftFault (R := fun t args => ∀ a ∈ args, t.isAlive a = true) ?_
    fun args hargs => ?_
  · rintro t - ⟨rfl, ⟨-, ht, hh⟩, -⟩
    exact ends_children ht.live hh.1
  refine Ensures.seq (F.Inside h ∧ ∀ i ∈ items, i.Admitted F)
    (ensures_templates (F := F) (b := b) (s := s) (T := T) args) ?_ fun templates => ?_
  · rintro t - ⟨⟨rfl, ⟨rfl, ht, hh⟩, -⟩, halive⟩
    exact ⟨⟨hh.2, ht.fenced.resolve hseal hh.2 hitems⟩, ht, fun a ha =>
      ⟨halive a ha, Or.inl (ht.fenced.children hh.2.1 hargs a ha).1⟩⟩
  -- the templates are freed in either case
  · have hremove := ensures_removeAll (F := F) (b := b) (s := s) (T := T) templates
      (E := Held F b s T)
    refine ((ensures_runSources (s := s) (T := T ∪ { c | c ∈ templates }) hseal hscope mode h
      templates items true).frame (templates.Nodup ∧ ∀ c ∈ templates, c ∉ T ∧ F.Inside c)).always
      (fun _ => hremove) hremove |>.before fun t _ ht => ?_
    obtain ⟨⟨hinside, hitems⟩, htemplates, hheld, -⟩ := ht
    exact ⟨htemplates, ⟨hinside, fun a ha => ⟨Or.inr ha, Or.inl (htemplates.2 a ha).2.1⟩, hitems⟩,
      hheld⟩

-- ---------------------------------------------------------------------------
-- Nodes and programs
-- ---------------------------------------------------------------------------

/-- Executing a node keeps the store in order. -/
theorem ensures_execute (hseal : F.Sealed) (hscope : scope.Keeps F b) (mode : BlockMode)
    (h : Handle) (own : Bool) :
    Ensures (fun t => Held F b s T t ∧ F.Present t h) (execute mode scope h own)
      (fun _ => Held F b s T) (Held F b s T) := by
  have hown := (ensures_executeBlock (s := s) (T := T) hseal hscope mode h h [] true).before
    (I := fun t => Held F b s T t ∧ F.Present t h)
    fun t _ ht => ⟨by simp [Templates], ht.1, ht.2, ht.2⟩
  refine Ensures.nested ?_ fun t _ ht => ⟨ht.1.live, ht.1⟩
  refine Ensures.ite (fun _ => hown) fun _ => ?_
  refine Ensures.bind_nodes fun m => ?_
  refine Ensures.bind_liftFault (R := fun _ _ => True) ?_ fun v _ => ?_
  · rintro t - ⟨rfl, -, hh⟩
    exact (ends_value hh.1).mono (fun _ _ => trivial) fun _ he => he
  · cases v with
    | none => exact hown.before fun _ _ ht => ht.1.2
    | some v => exact (ensures_executeSources hseal hscope mode h).before fun _ _ ht => ht.1.2

/-- Executing a program keeps the store in order. -/
theorem ensures_evaluate (hseal : F.Sealed) (hscope : scope.Keeps F b) (root : Handle) :
    Ensures (fun t => Held F b s T t ∧ F.Present t root) (evaluate scope root)
      (fun _ => Held F b s T) (Held F b s T) := by
  refine Ensures.seq (F.Inside root) (ensures_execute (s := s) (T := T) hseal hscope .inPlace root
    true) (fun t _ ht => ⟨ht.2.2, ht⟩) fun _ => ?_
  exact (ensures_clearSignal hseal root).bind fun _ => Ensures.skip _

end TreeScript
