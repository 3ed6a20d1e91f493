import TreeScript.Proofs.Engine.Moment
import TreeScript.Proofs.Keyword.Standard

/-!
# TreeScript — scopes around a block

Two keywords execute blocks in place: `eval-mutable` its own children or the blocks that its
value leads to, and `for-each` its children in rounds. Around the loop of such a block there
is a frame: what the keyword has set aside, and what it does when the block has ended.

* `Frame`, `Frame.around` — what is around a block;
* `Way`, `enter` — how a keyword comes to one of its blocks, and to a node of it;
* `enter_eq_around` — a keyword is what is around the block that it has come to.
-/

namespace TreeScript

open Store Engine

namespace Keyword

-- ---------------------------------------------------------------------------
-- Frames
-- ---------------------------------------------------------------------------

/-- One block execution less. -/
def shallower : Engine Unit := modify fun session => { session with depth := session.depth - 1 }

/-- One block execution more, unless that is too deep. -/
def deeper (settings : Settings) (h : Handle) : Engine Unit := do
  if settings.maxDepth ≤ (← get).depth then
    Engine.fail h (.depthExceeded settings.maxDepth)
  else
    modify fun session => { session with depth := session.depth + 1 }

/-- What a keyword has around a block: the node that it is called on, which may be the block
itself; what it has set aside, and the items that come next. -/
inductive Frame where
  | own (h : Handle)
  | source (h : Handle) (templates : List Handle) (found : Source) (rest : List Item)
  | round (h : Handle) (body : List Handle) (rest : List Item)

/-- The block. -/
def Frame.block : Frame → Handle
  | .own h => h
  | .source _ _ found _ => found.block
  | .round h _ _ => h

/-- Whether this is a loop. -/
def Frame.isRound : Frame → Bool
  | .round .. => true
  | _ => false

/-- What a keyword does around the loop of a block. -/
def Frame.around (scope : Scope) (x : Engine Control) : Frame → Engine Unit
  | .own h => Engine.always (do
      let _ ← x
      Engine.edit fun s => s.stripReturn h) shallower
  | .source h templates found rest => Engine.always (Engine.always (do
      Engine.always (do
          let _ ← x
          Engine.edit fun s => s.stripReturn found.block)
        (if found.owned then Engine.remove found.block else pure ())
      let c ← (← Engine.nodes).pending h
      unless c.isActive do runSources .inPlace scope h templates false rest)
      (templates.forM Engine.remove)) shallower
  | .round h body rest =>
    Engine.always (Engine.always (x >>= endRound scope h body rest) shallower) (restoreBody h body)

-- ---------------------------------------------------------------------------
-- Ways into a keyword
-- ---------------------------------------------------------------------------

/-- Which block of a keyword is meant, and how many nodes of it are behind its loop: the own
children of a node without value, or the block of an item of the value, or a round. -/
inductive Way where
  | own (count : Nat)
  | source (item count : Nat)
  | round (item count : Nat)

/-- Executes the blocks of the first items, and looks up that of the next. There may be none. -/
def sourceTo (scope : Scope) (h : Handle) (args : List Handle) :
    (first : Bool) → (item : Nat) → List Item → Engine (Source × List Item)
  | _, _, [] => throw (.fault .endless)
  | _, 0, item :: rest => do
    if ← Engine.isAlive h then
      match ← toSource h item with
      | none => throw (.fault .endless)
      | some source => return (source, rest)
    else throw (.fault .endless)
  | first, n + 1, item :: rest => do
    if ← Engine.isAlive h then
      if ← runItem .inPlace scope h args first item then
        let c ← (← Engine.nodes).pending h
        if c.isActive then throw (.fault .endless) else sourceTo scope h args false n rest
      else sourceTo scope h args first n rest
    else throw (.fault .endless)

/-- Executes the first rounds, and prepares the next. There may be none. -/
def roundTo (scope : Scope) (h : Handle) (body : List Handle) :
    (item : Nat) → List Item → Engine (List Item)
  | _, [] => throw (.fault .endless)
  | 0, item :: rest => do
    if ← Engine.isAlive h then
      match ← itemValue item with
      | none => throw (.fault .endless)
      | some current =>
        prepareRound h body current
        return rest
    else throw (.fault .endless)
  | n + 1, item :: rest => do
    if ← Engine.isAlive h then
      match ← itemValue item with
      | none => roundTo scope h body n rest
      | some current =>
        prepareRound h body current
        match ← executeAll scope h with
        | .none => roundTo scope h body n rest
        | .continue =>
          let _ ← Engine.change fun s => s.clearSignal h
          roundTo scope h body n rest
        | _ => throw (.fault .endless)
    else throw (.fault .endless)

/-- Calls a keyword on a node, until it has come to a node of one of its blocks. There may be
no such block or node. -/
def enter (scope : Scope) (h : Handle) : Way → Engine (Frame × Moment)
  | .own count => do
    deeper scope.settings h
    match ← (← Engine.nodes).value h with
    | some _ => throw (.fault .endless)
    | none =>
      let m ← blockTo scope h count
      return (.own h, m)
  | .source item count => do
    deeper scope.settings h
    match ← (← Engine.nodes).value h with
    | none => throw (.fault .endless)
    | some _ =>
      let items ← (← Engine.nodes).resolve h
      let args ← (← Engine.nodes).children h
      let templates ← args.mapM Engine.deepClone
      let (source, rest) ← sourceTo scope h templates true item items
      cloneBehind source.block templates
      let m ← blockTo scope source.block count
      return (.source h templates source rest, m)
  | .round item count => do
    let items ← (← Engine.nodes).resolve h
    let body ← (← Engine.nodes).children h
    body.forM Engine.detach
    deeper scope.settings h
    let rest ← roundTo scope h body item items
    let m ← blockTo scope h count
    return (.round h body rest, m)

/-- The name of the keyword that a way leads into. -/
def Way.name : Way → String
  | .round .. => "for-each"
  | _ => "eval-mutable"

/-- The keyword that a way leads into. -/
def Way.keyword : Way → Handler
  | .round .. => forEach
  | _ => evalMutable

-- ---------------------------------------------------------------------------
-- What is left of a keyword
-- ---------------------------------------------------------------------------

variable {scope : Scope} {h : Handle} {σ τ : Session}

/-- A nested computation goes one level deeper, if it may, and comes up on every exit. -/
theorem nested_eq {α : Type} (settings : Settings) (h : Handle) (body : Engine α) :
    Engine.nested settings h body = deeper settings h >>= fun _ => Engine.always body shallower := by
  unfold Engine.nested deeper
  rw [bind_assoc]
  refine bind_congr fun σ => ?_
  split
  next => rw [fail_bind]
  next => rfl

/-- A block in place gets the arguments behind its children, is executed, and loses a return of its
own. -/
theorem executeBlock_inPlace_eq (scope : Scope) (block h : Handle) (args : List Handle)
    (first : Bool) : executeBlock .inPlace scope block h args first =
      cloneBehind block args >>= fun _ => executeAll scope block >>= fun _ =>
        Engine.edit fun s => s.stripReturn block := by
  simp only [executeBlock, executeInPlace, bind_assoc, pure_bind]
  refine bind_congr fun _ => bind_congr fun _ => ?_
  exact bind_pure (Engine.edit fun s => s.stripReturn block)

/-- The next block is that of the next item. -/
theorem sourceTo_zero_eq_ok {args : List Handle} {first : Bool} {items rest : List Item}
    {source : Source} (hto : sourceTo scope h args first 0 items σ = .ok (source, rest) τ) :
    ∃ item, items = item :: rest ∧ σ.nodes.isAlive h = true ∧
      toSource h item σ = .ok (some source) τ := by
  cases items with
  | nil => exact absurd hto throw_ne_ok
  | cons item rest' =>
    rw [sourceTo, isAlive_bind_apply] at hto
    cases halive : σ.nodes.isAlive h with
    | false =>
      rw [halive] at hto
      exact absurd hto throw_ne_ok
    | true =>
      rw [halive, if_pos rfl] at hto
      obtain ⟨found, σ₁, hfound, hto⟩ := bind_eq_ok hto
      cases found with
      | none => exact absurd hto throw_ne_ok
      | some found =>
        injection hto with hpair hτ
        obtain ⟨rfl, rfl⟩ := Prod.mk.inj hpair
        exact ⟨item, rfl, rfl, hτ ▸ hfound⟩

/-- An item that is left behind is one whose block has been executed without a signal, or that
has no block. -/
theorem runSources_step {args : List Handle} {first : Bool} {n : Nat} {items : List Item}
    {r : Source × List Item} (hto : sourceTo scope h args first (n + 1) items σ = .ok r τ) :
    ∃ first' items' σ₁, sourceTo scope h args first' n items' σ₁ = .ok r τ ∧
      runSources .inPlace scope h args first items σ =
        runSources .inPlace scope h args first' items' σ₁ := by
  cases items with
  -- without an item left there is no source to get to
  | nil => exact absurd hto throw_ne_ok
  | cons item rest =>
    rw [sourceTo, isAlive_bind_apply] at hto
    rw [runSources_cons, isAlive_bind_apply]
    cases halive : σ.nodes.isAlive h with
    | false =>
      rw [halive] at hto
      exact absurd hto throw_ne_ok
    | true =>
      rw [halive, if_pos rfl] at hto
      rw [if_pos rfl]
      -- the item is run the same way in both
      obtain ⟨ran, σ₁, hran, hto⟩ := bind_eq_ok hto
      rw [bind_of_ok hran]
      -- an item that is gone is passed over, one that is there has run
      cases ran with
      | false => exact ⟨first, rest, σ₁, hto, rfl⟩
      | true =>
        rw [if_pos rfl, nodes_bind_apply] at hto ⊢
        obtain ⟨c, σ₂, hc, hto⟩ := bind_eq_ok hto
        rw [bind_of_ok hc]
        by_cases hactive : c.isActive = true
        · rw [if_pos hactive] at hto
          exact absurd hto throw_ne_ok
        · rw [if_neg hactive] at hto ⊢
          exact ⟨false, rest, σ₂, hto, rfl⟩

/-- The sources from the one on that has been come to. -/
theorem runSources_eq {args : List Handle} {first : Bool} {n : Nat} {items rest : List Item}
    {source : Source} (hto : sourceTo scope h args first n items σ = .ok (source, rest) τ) :
    runSources .inPlace scope h args first items σ = (do
      Engine.always (executeBlock .inPlace scope source.block h args true)
        (if source.owned then Engine.remove source.block else pure ())
      let c ← (← Engine.nodes).pending h
      unless c.isActive do runSources .inPlace scope h args false rest : Engine Unit) τ := by
  induction n generalizing first items σ with
  | zero =>
    obtain ⟨item, rfl, halive, hfound⟩ := sourceTo_zero_eq_ok hto
    rw [runSources, isAlive_bind_apply, if_pos halive, bind_of_ok hfound]
    rfl
  | succ n ih =>
    obtain ⟨first', items', σ₁, hto', hsame⟩ := runSources_step hto
    rw [hsame, ih hto']

/-- The next round is that of the next item. -/
theorem roundTo_zero_eq_ok {body : List Handle} {items rest : List Item}
    (hto : roundTo scope h body 0 items σ = .ok rest τ) :
    ∃ item current σ₁, items = item :: rest ∧ σ.nodes.isAlive h = true ∧
      itemValue item σ = .ok (some current) σ₁ ∧ prepareRound h body current σ₁ = .ok () τ := by
  cases items with
  | nil => exact absurd hto throw_ne_ok
  | cons item rest' =>
    rw [roundTo, isAlive_bind_apply] at hto
    cases halive : σ.nodes.isAlive h with
    | false =>
      rw [halive] at hto
      exact absurd hto throw_ne_ok
    | true =>
      rw [halive, if_pos rfl] at hto
      obtain ⟨found, σ₁, hfound, hto⟩ := bind_eq_ok hto
      cases found with
      | none => exact absurd hto throw_ne_ok
      | some current =>
        obtain ⟨⟨⟩, σ₂, hprepare, hto⟩ := bind_eq_ok hto
        injection hto with hrest hτ
        exact ⟨item, current, σ₁, by rw [hrest], rfl, hfound, hτ ▸ hprepare⟩

/-- An item that is left behind is one whose round has ended or been continued, or that has no
round. -/
theorem rounds_step {body : List Handle} {n : Nat} {items rest : List Item}
    (hto : roundTo scope h body (n + 1) items σ = .ok rest τ) :
    ∃ items' σ₁, roundTo scope h body n items' σ₁ = .ok rest τ ∧
      rounds scope h body items σ = rounds scope h body items' σ₁ := by
  cases items with
  -- without an item left there is no round to get to
  | nil => exact absurd hto throw_ne_ok
  | cons item items' =>
    rw [roundTo, isAlive_bind_apply] at hto
    rw [rounds_cons, isAlive_bind_apply]
    cases halive : σ.nodes.isAlive h with
    | false =>
      rw [halive] at hto
      exact absurd hto throw_ne_ok
    | true =>
      rw [halive, if_pos rfl] at hto
      rw [if_pos rfl]
      -- the item is read the same way in both
      obtain ⟨found, σ₁, hfound, hto⟩ := bind_eq_ok hto
      rw [bind_of_ok hfound]
      cases found with
      | none => exact ⟨items', σ₁, hto, rfl⟩
      | some current =>
        obtain ⟨⟨⟩, σ₂, hprepare, hto⟩ := bind_eq_ok hto
        obtain ⟨c, σ₃, hc, hto⟩ := bind_eq_ok hto
        simp only [bind_of_ok hprepare, bind_of_ok hc]
        cases c with
        | none => exact ⟨items', σ₃, hto, rfl⟩
        | «continue» =>
          obtain ⟨d, σ₄, hclear, hto⟩ := bind_eq_ok hto
          rw [endRound, bind_of_ok hclear]
          exact ⟨items', σ₄, hto, rfl⟩
        -- a `_break` or `_return` ends the loop, so the round asked for is never reached
        | «break» => exact absurd hto throw_ne_ok
        | «return» => exact absurd hto throw_ne_ok

/-- The rounds from the one on that has been come to. -/
theorem rounds_eq {body : List Handle} {n : Nat} {items rest : List Item}
    (hto : roundTo scope h body n items σ = .ok rest τ) :
    rounds scope h body items σ =
      (executeAll scope h >>= endRound scope h body rest) τ := by
  induction n generalizing items σ with
  | zero =>
    obtain ⟨item, current, σ₁, rfl, halive, hfound, hprepare⟩ := roundTo_zero_eq_ok hto
    rw [rounds_cons, isAlive_bind_apply, if_pos halive, bind_of_ok hfound]
    exact bind_of_ok hprepare
  | succ n ih =>
    obtain ⟨items', σ₁, hto', hsame⟩ := rounds_step hto
    rw [hsame, ih hto']

/-- What `eval-mutable` does, when it has looked at its name. -/
theorem evalMutable_eq (hname : σ.nodes.name h = .ok "eval-mutable") :
    evalMutable scope h σ = (deeper scope.settings h >>= fun _ => Engine.always (do
      match ← (← Engine.nodes).value h with
      | none => executeBlock .inPlace scope h h [] true
      | some _ => executeSources .inPlace scope h) shallower : Engine Unit) σ := by
  rw [evalMutable, nodes_bind_apply, hname]
  show execute .inPlace scope h ("eval-mutable" != "eval-mutable") σ = _
  rw [execute, nested_eq]
  rfl

/-- `eval-mutable` on its own children is what is around them, with the rest of the loop inside. -/
theorem evalMutable_eq_own {count : Nat} {f : Frame} {m : Moment}
    (hname : σ.nodes.name h = .ok "eval-mutable")
    (hto : enter scope h (.own count) σ = .ok (f, m) τ) :
    evalMutable scope h σ = f.around scope (m.run scope) τ := by
  obtain ⟨⟨⟩, σ₁, hdeeper, hto⟩ := bind_eq_ok hto
  rw [evalMutable_eq hname, bind_of_ok hdeeper]
  rw [nodes_bind_apply] at hto
  obtain ⟨v, σ₂, hv, hto⟩ := bind_eq_ok hto
  cases v with
  | some v => exact absurd hto throw_ne_ok
  | none =>
    obtain ⟨m', τ', hblock, hto⟩ := bind_eq_ok hto
    injection hto with hpair hτ
    obtain ⟨rfl, rfl⟩ := Prod.mk.inj hpair
    subst hτ
    refine always_congr ?_ _
    rw [nodes_bind_apply, bind_of_ok hv]
    rw [executeBlock_inPlace_eq]
    exact bind_congr_run (executeAll_eq_run hblock) _

/-- `eval-mutable` on a source is what is around it, with the rest of the loop inside. -/
theorem evalMutable_eq_source {item count : Nat} {f : Frame} {m : Moment}
    (hname : σ.nodes.name h = .ok "eval-mutable")
    (hto : enter scope h (.source item count) σ = .ok (f, m) τ) :
    evalMutable scope h σ = f.around scope (m.run scope) τ := by
  obtain ⟨⟨⟩, σ₁, hdeeper, hto⟩ := bind_eq_ok hto
  rw [evalMutable_eq hname, bind_of_ok hdeeper]
  rw [nodes_bind_apply] at hto
  obtain ⟨v, σ₂, hv, hto⟩ := bind_eq_ok hto
  cases v with
  | none => exact absurd hto throw_ne_ok
  -- up to the source asked for, both sides take the same steps
  | some v =>
    dsimp only at hto
    rw [nodes_bind_apply] at hto
    obtain ⟨items, σ₃, hitems, hto⟩ := bind_eq_ok hto
    rw [nodes_bind_apply] at hto
    obtain ⟨args, σ₄, hargs, hto⟩ := bind_eq_ok hto
    obtain ⟨templates, σ₅, htemplates, hto⟩ := bind_eq_ok hto
    obtain ⟨⟨found, rest⟩, σ₆, hfound, hto⟩ := bind_eq_ok hto
    obtain ⟨⟨⟩, σ₇, hclone, hto⟩ := bind_eq_ok hto
    obtain ⟨m', τ', hblock, hto⟩ := bind_eq_ok hto
    injection hto with hpair hτ
    obtain ⟨rfl, rfl⟩ := Prod.mk.inj hpair
    subst hτ
    -- what is behind the block is the frame: the templates and the depth
    refine always_congr ?_ _
    rw [nodes_bind_apply, bind_of_ok hv]
    show executeSources .inPlace scope h σ₂ = _
    rw [executeSources, nodes_bind_apply, bind_of_ok hitems, nodes_bind_apply, bind_of_ok hargs,
      bind_of_ok htemplates]
    refine always_congr ?_ _
    rw [runSources_eq hfound]
    refine bind_congr_run (always_congr ?_ _) _
    rw [executeBlock_inPlace_eq, bind_of_ok hclone]
    exact bind_congr_run (executeAll_eq_run hblock) _

/-- `for-each` in a round is what is around it, with the rest of the loop inside. -/
theorem forEach_eq_round {item count : Nat} {f : Frame} {m : Moment}
    (hto : enter scope h (.round item count) σ = .ok (f, m) τ) :
    forEach scope h σ = f.around scope (m.run scope) τ := by
  rw [enter, nodes_bind_apply] at hto
  rw [forEach, nodes_bind_apply]
  obtain ⟨items, σ₁, hitems, hto⟩ := bind_eq_ok hto
  rw [bind_of_ok hitems]
  rw [nodes_bind_apply] at hto ⊢
  obtain ⟨body, σ₂, hbody, hto⟩ := bind_eq_ok hto
  -- up to the round asked for, both sides take the same steps
  obtain ⟨⟨⟩, σ₃, hdetach, hto⟩ := bind_eq_ok hto
  obtain ⟨⟨⟩, σ₄, hdeeper, hto⟩ := bind_eq_ok hto
  obtain ⟨rest, σ₅, hrounds, hto⟩ := bind_eq_ok hto
  obtain ⟨m', τ', hblock, hto⟩ := bind_eq_ok hto
  injection hto with hpair hτ
  obtain ⟨rfl, rfl⟩ := Prod.mk.inj hpair
  subst hτ
  rw [bind_of_ok hbody, bind_of_ok hdetach]
  -- what is behind the block is the frame: the body and the depth
  refine always_congr ?_ _
  rw [nested_eq, bind_of_ok hdeeper]
  refine always_congr ?_ _
  rw [rounds_eq hrounds]
  exact bind_congr_run (executeAll_eq_run hblock) _

/-- A keyword that has come to a block does what is around it, and the block. -/
theorem enter_eq_around {way : Way} {f : Frame} {m : Moment}
    (hname : σ.nodes.name h = .ok way.name) (hto : enter scope h way σ = .ok (f, m) τ) :
    way.keyword scope h σ = f.around scope (m.run scope) τ := by
  cases way with
  | own count => exact evalMutable_eq_own hname hto
  | source item count => exact evalMutable_eq_source hname hto
  | round item count => exact forEach_eq_round hto

-- ---------------------------------------------------------------------------
-- What is set aside
-- ---------------------------------------------------------------------------

/-- The node that the keyword is called on. -/
def Frame.node : Frame → Handle
  | .own h => h
  | .source h _ _ _ => h
  | .round h _ _ => h

/-- The trees that are set aside. -/
def Frame.trees : Frame → List Handle
  | .own _ => []
  | .source _ templates found _ => if found.owned then found.block :: templates else templates
  | .round _ body _ => body

/-- What is known of a frame from the store in front of the keyword: the trees that it sets
aside are new, or have been children of the node. -/
structure Frame.Apart (s : Store) (T : Set Handle) (h : Handle) (f : Frame) : Prop where
  node : f.node = h
  nodup : f.trees.Nodup
  tops : ∀ c ∈ f.trees, c ∉ T
  fresh : ∀ c ∈ f.trees, if f.isRound then s.ChildOf c h else s.isAlive c = false

variable {F : Fence} {b s : Store} {T : Set Handle}

/-- Going deeper changes no nodes; the failure at the limit needs children that are there, to tell
where it happened. -/
theorem ensures_deeper (settings : Settings) (h : Handle) {P E : Store → Prop}
    (hP : ∀ t, Unwrapped t → P t → LiveChildren t ∧ E t) :
    Ensures P (deeper settings h) (fun _ => P) E := by
  refine Ensures.bind_get fun σ => Ensures.ite (fun _ => ?_) fun _ => ?_
  · exact Ensures.fail h _ hP
  · exact Ensures.aside fun _ => rfl

/-- What is known of the block that has been found behind some items. -/
def Found (F : Fence) (b s : Store) (T : Set Handle) (source : Source) (t : Store) : Prop :=
  (source.owned = true → source.block ∉ T ∧ s.isAlive source.block = false) ∧
    Held F b s (T ∪ { c | source.owned = true ∧ c = source.block }) t ∧ F.Present t source.block

/-- A source that has been made from an item is a block that may be executed. -/
theorem found_of_sourced {m t : Store} {item : Item} {source : Source} (hseal : F.Sealed)
    (hsourced : Sourced F b s T m item (some source) t) (hitem : item.Admitted F)
    (hheld : Held F b s T m) (hu : Unwrapped t) : Found F b s T source t := by
  obtain ⟨block, owned⟩ := source
  cases owned with
  | false =>
    obtain ⟨rfl, halive, hblock⟩ := hsourced
    exact ⟨by simp, hheld.congr fun x => by simp, halive, hitem.inside hseal hblock⟩
  | true =>
    obtain ⟨⟨hnew, hinside, -⟩, hsprout, hheld', -⟩ := hsourced
    exact ⟨fun _ => ⟨hnew, hheld.since.not_isAlive_of_sprouted hsprout hu⟩,
      hheld'.congr fun x => by simp, hheld'.isAlive (Or.inr rfl), hinside⟩

theorem ensures_sourceTo (hseal : F.Sealed) (hscope : scope.Keeps F b) (h : Handle)
    (args : List Handle) (first : Bool) (n : Nat) (items : List Item) :
    Ensures (fun t => Sources F b T h args items ∧ Held F b s T t)
      (sourceTo scope h args first n items) (fun r t => Found F b s T r.1 t)
      (Held F b s T) := by
  induction n generalizing first items with
  -- the source asked for is the first that is still there
  | zero =>
    match items with
    | [] => exact Ensures.throw_endless
    | item :: rest =>
      refine Ensures.bind_isAlive (Ensures.ite (fun _ => ?_) (by simp))
        (Ensures.ite (by simp) fun _ => Ensures.throw_endless)
      refine Ensures.start fun m => ?_
      refine Ensures.bind (Q := fun source t => (Sources F b T h args (item :: rest) ∧
        Held F b s T m) ∧ Sourced F b s T m item source t)
        (((ensures_toSource h item).frame _).weaken ?_ (fun _ _ _ ht => ht) ?_) fun source => ?_
      · rintro t - ⟨rfl, ⟨hsources, hheld⟩, -⟩
        exact ⟨⟨hsources, hheld⟩, rfl, hheld⟩
      · rintro t hu ⟨⟨-, hheld⟩, hback⟩
        exact hheld.restored hback hu
      · cases source with
        | none => exact Ensures.throw_endless
        | some source =>
          refine (Ensures.pure _).before ?_
          rintro t hu ⟨⟨hsources, hheld⟩, hsourced⟩
          exact found_of_sourced hseal hsourced (hsources.2.2 item (by simp)) hheld hu
  -- an earlier source runs as in the whole loop, and the rest is by induction
  | succ n ih =>
    match items with
    | [] => exact Ensures.throw_endless
    | item :: rest =>
      refine Ensures.bind_isAlive (Ensures.ite (fun _ => ?_) (by simp))
        (Ensures.ite (by simp) fun _ => Ensures.throw_endless)
      have htail : ∀ t, Unwrapped t → Sources F b T h args rest ∧ Held F b s T t →
          Sources F b T h args rest ∧ Held F b s T t := fun _ _ ht => ht
      refine Ensures.seq (Sources F b T h args rest)
        (ensures_runItem (s := s) (T := T) hseal hscope .inPlace h args first item) ?_ fun ran => ?_
      · rintro t - ⟨⟨⟨hinside, hargs, hitems⟩, hheld⟩, hh⟩
        obtain ⟨hitem, hrest⟩ := List.forall_mem_cons.1 hitems
        exact ⟨⟨hinside, hargs, hrest⟩, ⟨hinside, hargs, hitem⟩, hheld, hh⟩
      -- a source that has run without a signal is followed by the next one
      · cases ran with
        | false => exact ih first rest
        | true =>
          refine Ensures.ite (fun _ => ?_) (by simp)
          refine Ensures.bind_nodes fun m => ?_
          refine Ensures.bind_liftFault (R := fun _ _ => True) ?_ fun c _ => ?_
          · rintro t - ⟨rfl, -, ht⟩
            exact ends_pending ht.live h
          · exact Ensures.ite (fun _ => Ensures.throw_endless) fun _ =>
              (ih false rest).before fun _ _ ht => ht.1.2

theorem ensures_roundTo (hseal : F.Sealed) (hscope : scope.Keeps F b) (h : Handle)
    (body : List Handle) (n : Nat) (items : List Item) :
    Ensures (fun t => Looping F b s T h body items ∧ Held F b s T t)
      (roundTo scope h body n items) (fun _ t => Held F b s T t ∧ t.isAlive h = true)
      (Held F b s T) := by
  induction n generalizing items with
  -- the round asked for is prepared but not run
  | zero =>
    match items with
    | [] => exact Ensures.throw_endless
    | item :: rest =>
      refine Ensures.bind_isAlive (Ensures.ite (fun _ => ?_) (by simp))
        (Ensures.ite (by simp) fun _ => Ensures.throw_endless)
      refine Ensures.seq (Looping F b s T h body (item :: rest))
        (ensures_itemValue (b := b) (s := s) (T := T) hseal item h)
        (fun t _ ht => ⟨ht.1.1, ht.1.1.items item (by simp), ht.1.2, ht.2⟩) fun v => ?_
      cases v with
      | none => exact Ensures.throw_endless
      | some current =>
        refine Ensures.seq True
          (ensures_prepareRound (F := F) (b := b) (s := s) (T := T) h body current)
          (fun t _ ht => ⟨trivial, ⟨ht.1.inside, ht.1.body⟩, ht.2.2 current rfl⟩) fun _ => ?_
        exact (Ensures.pure rest).before fun _ _ ht => ht.2
  -- an earlier round runs as in the whole loop, and the rest is by induction
  | succ n ih =>
    match items with
    | [] => exact Ensures.throw_endless
    | item :: rest =>
      have hrest := (ih rest).before
        (I := fun t => Looping F b s T h body (item :: rest) ∧ Held F b s T t)
        fun t _ ht => ⟨ht.1.tail, ht.2⟩
      refine Ensures.bind_isAlive (Ensures.ite (fun _ => ?_) (by simp))
        (Ensures.ite (by simp) fun _ => Ensures.throw_endless)
      refine Ensures.seq (Looping F b s T h body (item :: rest))
        (ensures_itemValue (b := b) (s := s) (T := T) hseal item h)
        (fun t _ ht => ⟨ht.1.1, ht.1.1.items item (by simp), ht.1.2, ht.2⟩) fun v => ?_
      cases v with
      | none => exact hrest.before fun t _ ht => ⟨ht.1, ht.2.1 rfl⟩
      | some current =>
        refine Ensures.seq (Looping F b s T h body (item :: rest))
          (ensures_prepareRound (F := F) (b := b) (s := s) (T := T) h body current)
          (fun t _ ht => ⟨ht.1, ⟨ht.1.inside, ht.1.body⟩, ht.2.2 current rfl⟩) fun _ => ?_
        refine Ensures.seq (Looping F b s T h body (item :: rest))
          (ensures_executeAll (s := s) (T := T) hscope h)
          (fun t _ ht => ⟨ht.1, ht.2.1, ht.2.2, ht.1.inside⟩) fun c => ?_
        cases c with
        | none => exact hrest
        | «continue» =>
          exact Ensures.seq (Looping F b s T h body (item :: rest)) (ensures_clearSignal hseal h)
            (fun t _ ht => ⟨ht.1, ht.1.inside, ht.2⟩) fun _ => hrest
        | «break» => exact Ensures.throw_endless
        | «return» => exact Ensures.throw_endless

/-- What is known when a keyword has come to a block, from the store in front of it. -/
def Entered (F : Fence) (b s : Store) (T : Set Handle) (h : Handle) (r : Frame × Moment)
    (t : Store) : Prop :=
  (r.1.Apart s T h ∧ r.2.block = r.1.block) ∧ Held F b s (T ∪ { c | c ∈ r.1.trees }) t ∧
    r.2.Placed t

/-- The block of a frame is executed up to a node. -/
theorem ensures_enterBlock (hscope : scope.Keeps F b) (f : Frame) (count : Nat) :
    Ensures (fun t => f.Apart s T h ∧ Held F b s (T ∪ { c | c ∈ f.trees }) t ∧
        F.Present t f.block)
      (blockTo scope f.block count >>= fun m => pure (f, m)) (Entered F b s T h)
      (fun _ => True) := by
  refine Ensures.seq (f.Apart s T h) ((ensures_blockTo (s := s) (T := T ∪ { c | c ∈ f.trees })
    hscope f.block count).weaken (fun _ _ ht => ht) (fun _ _ _ ht => ht) fun _ _ _ => trivial)
    (fun _ _ ht => ht) fun m => ?_
  exact (Ensures.pure (f, m)).before fun t _ ht => ⟨⟨ht.1, ht.2.1⟩, ht.2.2⟩

/-- In front of a keyword the value of its node can be read. -/
theorem ends_value_of_present (h : Handle) (m t : Store) (_ : Unwrapped t)
    (ht : t = m ∧ t = s ∧ Held F b s T t ∧ F.Present t h) :
    Ends (m.value h) (fun _ => True) (Fault.Excused t.Dangles) := by
  obtain ⟨rfl, -, -, hh⟩ := ht
  exact (ends_value hh.1).mono (fun _ _ => trivial) fun _ he => he

/-- Going deeper on a node that is there, in the store in which a keyword begins. -/
theorem ensures_deeper_present (settings : Settings) (h : Handle) :
    Ensures (fun t => t = s ∧ Held F b s T t ∧ F.Present t h) (deeper settings h)
      (fun _ t => t = s ∧ Held F b s T t ∧ F.Present t h) (fun _ => True) :=
  ensures_deeper settings h fun _ _ ht => ⟨ht.2.1.live, trivial⟩

/-- A keyword comes to a node among its own children. -/
theorem ensures_enterOwn (hscope : scope.Keeps F b) (h : Handle) (count : Nat) :
    Ensures (fun t => t = s ∧ Held F b s T t ∧ F.Present t h) (enter scope h (.own count))
      (Entered F b s T h) (fun _ => True) := by
  refine (ensures_deeper_present scope.settings h).bind fun _ => Ensures.bind_nodes fun m => ?_
  refine Ensures.bind_liftFault (R := fun _ _ => True) (ends_value_of_present h m) fun v _ => ?_
  cases v with
  | some v => exact Ensures.throw_endless
  | none =>
    refine (ensures_enterBlock (s := s) (T := T) (h := h) hscope (.own h) count).before ?_
    rintro t - ⟨⟨-, -, hheld, hh⟩, -⟩
    exact ⟨⟨rfl, List.nodup_nil, by simp [Frame.trees], by simp [Frame.trees]⟩,
      hheld.congr fun x => by simp [Frame.trees], hh⟩

/-- Around a source, the templates are set aside, and the block if it has been made for this
execution. -/
theorem Frame.mem_trees_source {templates : List Handle} {found : Source} {rest : List Item}
    {x : Handle} : x ∈ (Frame.source h templates found rest).trees ↔
      x ∈ templates ∨ found.owned = true ∧ x = found.block := by
  cases hf : found.owned <;> simp [Frame.trees, hf, or_comm]

/-- The copies of the children are apart, and so is a block that has been made of a text. -/
theorem Frame.source_apart {templates : List Handle} {found : Source} {rest : List Item}
    (hnodup : templates.Nodup) (htemplates : ∀ c ∈ templates, c ∉ T ∧ s.isAlive c = false)
    (howned : found.owned = true →
      found.block ∉ T ∪ { c | c ∈ templates } ∧ s.isAlive found.block = false) :
    (Frame.source h templates found rest).Apart s T h where
  node := rfl
  nodup := by
    show (if found.owned then found.block :: templates else templates).Nodup
    split
    next hf => exact List.nodup_cons.2 ⟨fun hc => (howned hf).1 (Or.inr hc), hnodup⟩
    next => exact hnodup
  tops := by
    rintro c hc
    rcases mem_trees_source.1 hc with hc | ⟨hf, rfl⟩
    · exact (htemplates c hc).1
    · exact fun hT => (howned hf).1 (Or.inl hT)
  fresh := by
    rintro c hc
    rcases mem_trees_source.1 hc with hc | ⟨hf, rfl⟩
    · exact (htemplates c hc).2
    · exact (howned hf).2

/-- A keyword comes to a node of a source. -/
theorem ensures_enterSource (hseal : F.Sealed) (hscope : scope.Keeps F b) (h : Handle)
    (item count : Nat) :
    Ensures (fun t => t = s ∧ Held F b s T t ∧ F.Present t h) (enter scope h (.source item count))
      (Entered F b s T h) (fun _ => True) := by
  refine (ensures_deeper_present scope.settings h).bind fun _ => Ensures.bind_nodes fun m => ?_
  -- the expression, the items and the arguments are read from the store as it was
  refine Ensures.bind_liftFault (R := fun _ _ => True) (ends_value_of_present h m) fun v _ => ?_
  cases v with
  | none => exact Ensures.throw_endless
  | some v =>
    refine Ensures.bind_nodes fun m₁ => ?_
    refine Ensures.bind_lift (R := fun _ _ => True) ?_ (fun _ _ _ => trivial) fun items hitems => ?_
    · rintro t - ⟨rfl, ⟨-, -, ht, hh⟩, -⟩
      exact (ends_resolve ht.disciplined hh.1).mono (fun _ _ => trivial) fun _ he => he
    refine Ensures.bind_nodes fun m₂ => ?_
    refine Ensures.bind_liftFault (R := fun t args => ∀ a ∈ args, t.isAlive a = true) ?_
      fun args hargs => ?_
    · rintro t - ⟨rfl, ⟨-, ⟨-, -, ht, hh⟩, -⟩, -⟩
      exact ends_children ht.live hh.1
    -- the templates are taken out of the tree, so that they are on top
    refine Ensures.seq (F.Inside h ∧ ∀ i ∈ items, i.Admitted F)
      (ensures_templates (F := F) (b := b) (s := s) (T := T) args) ?_ fun templates => ?_
    · rintro t - ⟨⟨rfl, ⟨rfl, ⟨-, -, ht, hh⟩, -⟩, -⟩, halive⟩
      exact ⟨⟨hh.2, ht.fenced.resolve hseal hh.2 hitems⟩, ht, fun a ha =>
        ⟨halive a ha, Or.inl (ht.fenced.children hh.2.1 hargs a ha).1⟩⟩
    -- the sources in front of the one asked for run to their end
    refine Ensures.seq ((templates.Nodup ∧ ∀ c ∈ templates, c ∉ T ∧ F.Inside c) ∧
        ∀ c ∈ templates, s.isAlive c = false)
      ((ensures_sourceTo (s := s) (T := T ∪ { c | c ∈ templates }) hseal hscope h templates true
        item items).weaken (fun _ _ ht => ht) (fun _ _ _ ht => ht) fun _ _ _ => trivial) ?_ ?_
    · rintro t - ⟨⟨hinside, hitems⟩, htemplates, hheld, hnew⟩
      exact ⟨⟨htemplates, fun c hc => (hnew c hc).2⟩, ⟨hinside, fun a ha =>
        ⟨Or.inr ha, Or.inl (htemplates.2 a ha).2.1⟩, hitems⟩, hheld⟩
    rintro ⟨found, rest⟩
    -- its block is entered with clones of the templates behind it
    refine Ensures.seq ((Frame.source h templates found rest).Apart s T h ∧ F.Inside found.block)
      (ensures_cloneBehind (F := F) (b := b) (s := s)
        (T := T ∪ { c | c ∈ (Frame.source h templates found rest).trees }) found.block templates)
      ?_ fun _ => (ensures_enterBlock (s := s) (T := T) (h := h) hscope
        (.source h templates found rest) count).before fun t _ ht =>
          ⟨ht.1.1, ht.2.1, ht.2.2, ht.1.2⟩
    rintro t - ⟨⟨⟨hnodup, htemplates⟩, hnew⟩, howned, hheld, hblock⟩
    -- the trees set aside are the templates and a block of its own, if there is one
    have hset : ∀ x, x ∈ T ∪ { c | c ∈ templates } ∪
        { c | found.owned = true ∧ c = found.block } ↔
        x ∈ T ∪ { c | c ∈ (Frame.source h templates found rest).trees } := by
      intro x
      simp only [Set.mem_union, Set.mem_ofPred_eq, Frame.mem_trees_source, or_assoc]
    have hapart : (Frame.source h templates found rest).Apart s T h :=
      Frame.source_apart hnodup (fun c hc => ⟨(htemplates c hc).1, hnew c hc⟩) howned
    exact ⟨⟨hapart, hblock.2⟩, ⟨hblock.2.1, fun a ha =>
      ⟨Or.inr (Frame.mem_trees_source.2 (Or.inl ha)), Or.inl (htemplates a ha).2.1⟩⟩,
      hheld.congr hset, hblock.1⟩

theorem ensures_enterRound (hseal : F.Sealed) (hscope : scope.Keeps F b) (h : Handle)
    (item count : Nat) :
    Ensures (fun t => t = s ∧ Held F b s T t ∧ F.Present t h) (enter scope h (.round item count))
      (Entered F b s T h) (fun _ => True) := by
  refine Ensures.bind_nodes fun m => ?_
  -- the items and the body are read before anything is taken out
  refine Ensures.bind_lift (R := fun t items => ∀ i ∈ items, i.Known t t.Dangles) ?_
    (fun _ _ _ => trivial) fun items hitems => ?_
  · rintro t - ⟨rfl, -, ht, hh⟩
    exact ends_resolve ht.disciplined hh.1
  refine Ensures.bind_nodes fun m' => ?_
  refine Ensures.bind_liftFault (R := fun _ _ => True) ?_ fun body hbody => ?_
  · rintro t - ⟨rfl, ⟨-, -, ht, hh⟩, -⟩
    exact (ends_children ht.live hh.1).mono (fun _ _ => trivial) fun _ he => he
  -- the body is on top from now on
  refine Ensures.seq (∀ i ∈ items, Looped F s i)
    (ensures_takeBody (F := F) (b := b) (m := s) (T := T) h body) ?_ fun _ => ?_
  · rintro t - ⟨⟨rfl, ⟨rfl, rfl, ht, hh⟩, hknown⟩, -⟩
    obtain ⟨n, hn, rfl⟩ := children_eq_ok.1 hbody
    have hadm := ht.fenced.resolve hseal hh.2 hitems
    refine ⟨fun i hi => ⟨hadm i hi, (hknown i hi).mono fun _ => trivial⟩,
      ⟨hh.2, ht.disciplined, ht.disciplined.linked.nodup hn, fun c hc =>
        ht.disciplined.childOf_of_mem (by rwa [childList_eq hn]), fun c hc => ?_⟩, rfl, ht⟩
    exact ⟨ht.since.not_mem_of_holds ⟨n, hn, Or.inl hc⟩,
      ht.fenced.children hh.2.1 hbody c hc⟩
  refine (ensures_deeper (E := fun _ => True) scope.settings h
    fun t _ ht => ⟨ht.2.2.live, trivial⟩).bind fun _ => ?_
  -- the rounds in front of the one asked for run to their end
  refine Ensures.seq (Body F s T h body)
    ((ensures_roundTo (s := s) (T := T ∪ { c | c ∈ body }) hseal hscope h body item
      items).weaken (fun _ _ ht => ht) (fun _ _ _ ht => ht) fun _ _ _ => trivial) ?_
    fun rest => ?_
  · rintro t - ⟨hlooped, hbody, hheld⟩
    exact ⟨hbody, ⟨hbody.inside, fun c hc => ⟨Or.inr hc, Or.inl (hbody.apart c hc).2.1⟩,
      hlooped⟩, hheld⟩
  · refine (ensures_enterBlock (s := s) (T := T) (h := h) hscope (.round h body rest)
      count).before ?_
    rintro t - ⟨hbody, hheld, halive⟩
    exact ⟨⟨rfl, hbody.nodup, fun c hc => (hbody.apart c hc).1, hbody.childOf⟩, hheld, halive,
      hbody.inside⟩

/-- However a keyword comes to a node, the store is in order there, and what it has set aside is
known. -/
theorem ensures_enter (hseal : F.Sealed) (hscope : scope.Keeps F b) (h : Handle) (way : Way) :
    Ensures (fun t => t = s ∧ Held F b s T t ∧ F.Present t h) (enter scope h way)
      (Entered F b s T h) (fun _ => True) := by
  cases way with
  | own count => exact ensures_enterOwn hscope h count
  | source item count => exact ensures_enterSource hseal hscope h item count
  | round item count => exact ensures_enterRound hseal hscope h item count

end Keyword

end TreeScript
