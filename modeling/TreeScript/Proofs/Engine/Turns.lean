import TreeScript.Proofs.Engine.Boundary
import TreeScript.Proofs.Engine.Coverage
import TreeScript.Proofs.Engine.Deliver
import TreeScript.Proofs.Engine.Graft
import TreeScript.Proofs.Engine.Isolation
import TreeScript.Proofs.Store.Past

/-!
# TreeScript — blocks taken in turn

The blocks that a node's value leads to are executed one after the other, each on a copy with the
same arguments in front. Between two of them the node takes what the first has made, and gives up
what it held: a block that it held is freed before its turn.

* `Turn`, `Turn.Of` — the record of one execution;
* `Turns`, `turns_of_execute` — the records of a run;
* `Turn.Begins`, `Turn.Frees` — what a turn begins with, and what is freed at its end;
* `Turn.Undisturbed` — what handlers must not touch;
* `InTurn` — blocks in turn, unless they have been freed or a signal is pending;
* `execute_takes_turns` — the result.
-/

namespace TreeScript

open Store Engine

variable {scope : Scope} {d : Handle} {row blocks : List Handle} {contents : List Shape}
  {σ τ : Session} {first : Bool}

-- ---------------------------------------------------------------------------
-- The records of a run
-- ---------------------------------------------------------------------------

/-- A block that is executed on a copy, with the sessions of the execution: before it, when the
arguments are in place, when the loop has ended, when its signal has been dealt with, and when the
results have been delivered and the copy has been freed. -/
structure Turn where
  block : Handle
  first : Bool
  copy : Handle
  known : List Handle
  signal : Control
  before : Session
  begun : Session
  ended : Session
  settled : Session
  after : Session

/-- The record is one of an execution with these arguments for this destination. -/
structure Turn.Of (scope : Scope) (d : Handle) (args : List Handle) (t : Turn) : Prop where
  destination : t.before.nodes.isAlive d = true
  alive : t.before.nodes.isAlive t.block = true
  prepared : ∃ s, t.before.nodes.deepClone t.block = .ok (t.copy, s) ∧
    cloneInFront t.copy args { t.before with nodes := s } = .ok () t.begun
  known : t.begun.nodes.children t.copy = .ok t.known
  executed : executeAll scope t.copy t.begun = .ok t.signal t.ended
  settles : settle t.copy t.signal t.ended = .ok () t.settled
  delivered : ∃ σ, deliver t.copy d t.known t.first t.settled = .ok () σ ∧
    t.after = { σ with nodes := σ.nodes.remove t.copy }

/-- A signal is pending at the destination when the turn is over. -/
def Turn.Stops (d : Handle) (t : Turn) : Prop :=
  ∃ c, t.after.nodes.pending d = .ok c ∧ c.isActive = true

/-- The records of a run through some blocks. A freed block has no turn, and nothing follows a turn
that leaves a signal. -/
inductive Turns (scope : Scope) (d : Handle) (args : List Handle) :
    Bool → List Handle → Session → List Turn → Session → Prop
  | done {first : Bool} {σ : Session} : Turns scope d args first [] σ [] σ
  | gone {first : Bool} {blocks : List Handle} {σ : Session} : σ.nodes.isAlive d = false →
      Turns scope d args first blocks σ [] σ
  | lost {first : Bool} {block : Handle} {rest : List Handle} {σ τ : Session} {turns : List Turn} :
      σ.nodes.isAlive block = false → Turns scope d args first rest σ turns τ →
      Turns scope d args first (block :: rest) σ turns τ
  | last {t : Turn} {rest : List Handle} : t.Of scope d args → t.Stops d →
      Turns scope d args t.first (t.block :: rest) t.before [t] t.after
  | next {t : Turn} {rest : List Handle} {turns : List Turn} {τ : Session} : t.Of scope d args →
      ¬ t.Stops d → Turns scope d args false rest t.after turns τ →
      Turns scope d args t.first (t.block :: rest) t.before (t :: turns) τ

/-- A value that points at a node names the same block as the node. -/
theorem toSource_of_block? {item : Item} {block : Handle} (hitem : item.block? = some block) :
    toSource d item = toSource.live block := by
  match item with
  | .node b | .value (.node b) | .value (.ref b) =>
    obtain rfl := Option.some.inj hitem
    rfl
  | .value (.scalar _) | .name _ | .count _ => simp [Item.block?, Value.target?] at hitem

/-- An item that names a block has it executed if it is alive, and nothing happens otherwise. -/
theorem runItem_block_eq_ok {item : Item} {block : Handle} {ran : Bool}
    (hitem : item.block? = some block) (h : runItem .copy scope d row first item σ = .ok ran τ) :
    (ran = false ∧ τ = σ ∧ σ.nodes.isAlive block = false) ∨
      (ran = true ∧ σ.nodes.isAlive block = true ∧
        executeCopy scope block d row first σ = .ok () τ) := by
  rw [runItem, toSource_of_block? hitem, toSource.live, bind_assoc, isAlive_bind_apply] at h
  cases hlive : σ.nodes.isAlive block with
  | false =>
    rw [hlive] at h
    injection h with hran hτ
    exact Or.inl ⟨hran.symm, hτ.symm, rfl⟩
  | true =>
    rw [hlive] at h
    obtain ⟨⟨⟩, σ₁, hrun, h⟩ := bind_eq_ok
      (x := Engine.always (executeCopy scope block d row first) (pure ())) h
    obtain ⟨σ₂, hblock, hend⟩ := always_eq_ok hrun
    injection h with hran hτ
    injection hend with _ hend
    subst hτ hend
    exact Or.inr ⟨hran.symm, rfl, hblock⟩

/-- A run through blocks has a record. -/
theorem turns_of_runSources {items : List Item} (hitems : items.map Item.block? = blocks.map some)
    (hrun : runSources .copy scope d row first items σ = .ok () τ) :
    ∃ turns, Turns scope d row first blocks σ turns τ := by
  induction blocks generalizing first items σ with
  -- no block is left
  | nil =>
    obtain rfl : items = [] := by simpa using hitems
    injection hrun with _ hτ
    exact ⟨[], hτ ▸ .done⟩
  | cons block rest ih =>
    obtain ⟨item, items, rfl, hblock, hrest⟩ := List.map_eq_cons_iff.1 hitems
    rw [runSources_cons, isAlive_bind_apply] at hrun
    cases hdest : σ.nodes.isAlive d with
    -- the destination is gone, so no other block is executed
    | false =>
      rw [hdest] at hrun
      injection hrun with _ hτ
      exact ⟨[], hτ ▸ .gone hdest⟩
    | true =>
      rw [hdest, if_pos rfl] at hrun
      obtain ⟨ran, σ₁, hitem, hnext⟩ := bind_eq_ok hrun
      -- a block that is gone is passed over, any other has a turn
      rcases runItem_block_eq_ok hblock hitem with ⟨rfl, rfl, hdead⟩ | ⟨rfl, hlive, hcopy⟩
      · obtain ⟨turns, hturns⟩ := ih hrest hnext
        exact ⟨turns, .lost hdead hturns⟩
      · obtain ⟨copy, s, σ₀, known, c, σ₂, σ₃, σ₄, hclone, hfront, hknown, hloop, hsettle, hdeliver,
          rfl⟩ := executeCopy_eq_ok hcopy
        let t : Turn := ⟨block, first, copy, known, c, σ, σ₀, σ₂, σ₃,
          { σ₄ with nodes := σ₄.nodes.remove copy }⟩
        have hof : t.Of scope d row :=
          ⟨hdest, hlive, ⟨s, hclone, hfront⟩, hknown, hloop, hsettle, σ₄, hdeliver, rfl⟩
        rw [if_pos rfl, nodes_bind_apply] at hnext
        obtain ⟨signal, σ₅, hlift, hlast⟩ := bind_eq_ok hnext
        obtain ⟨hpending, rfl⟩ := lift_eq_ok hlift
        -- a signal pending at the destination ends the row of turns
        cases hactive : signal.isActive with
        | true =>
          rw [hactive, if_pos rfl] at hlast
          injection hlast with _ hτ
          subst hτ
          exact ⟨[t], .last hof ⟨signal, hpending, hactive⟩⟩
        | false =>
          rw [hactive, if_neg (by simp)] at hlast
          obtain ⟨turns, hturns⟩ := ih hrest hlast
          refine ⟨t :: turns, .next hof (fun ⟨c', hc', hon⟩ => ?_) hturns⟩
          obtain rfl : signal = c' := Except.ok.inj (hpending.symm.trans hc')
          simp [hactive] at hon

/-- Executing a node whose value leads to blocks has a record, between setting copies of the
node's children aside and freeing them. -/
theorem turns_of_execute {v : Value} {items : List Item}
    (hvalue : σ.nodes.value d = .ok (some v)) (hresolve : σ.nodes.resolve d = .ok items)
    (hitems : items.map Item.block? = blocks.map some)
    (hrun : execute .copy scope d false σ = .ok () τ) :
    ∃ row σ₀ turns σ₁ σ₂,
      (σ.nodes.childList d).mapM Engine.deepClone { σ with depth := σ.depth + 1 } = .ok row σ₀ ∧
      Turns scope d row true blocks σ₀ turns σ₁ ∧
      row.forM Engine.remove σ₁ = .ok () σ₂ ∧ τ = { σ₂ with depth := σ₂.depth - 1 } := by
  obtain ⟨n, hn, -⟩ := value_eq_ok_iff.1 hvalue
  obtain ⟨σ₂, hbody, hτ⟩ := nested_eq_ok hrun
  rw [if_neg (by simp), nodes_bind_apply] at hbody
  obtain ⟨w, σ₃, hlift, hbody⟩ := bind_eq_ok hbody
  obtain ⟨hw, rfl⟩ := lift_eq_ok hlift
  obtain rfl := Except.ok.inj (hvalue.symm.trans hw)
  replace hbody : executeSources .copy scope d { σ with depth := σ.depth + 1 } = .ok () σ₂ := hbody
  -- the value was read, now the items, the children and their copies
  rw [executeSources, nodes_bind_apply] at hbody
  obtain ⟨items', σ₄, hlift, hbody⟩ := bind_eq_ok hbody
  obtain ⟨hresolved, rfl⟩ := lift_halt_eq_ok hlift
  obtain rfl := Except.ok.inj (hresolve.symm.trans hresolved)
  rw [nodes_bind_apply] at hbody
  obtain ⟨args, σ₅, hlift, hbody⟩ := bind_eq_ok hbody
  obtain ⟨hargs, rfl⟩ := lift_eq_ok hlift
  obtain ⟨m, hm, rfl⟩ := children_eq_ok.1 hargs
  obtain rfl := Option.some.inj (hn.symm.trans hm)
  rw [← childList_eq hn] at hbody
  obtain ⟨row, σ₀, hrow, hbody⟩ := bind_eq_ok hbody
  obtain ⟨σ₁, hsources, hremove⟩ := always_eq_ok hbody
  obtain ⟨turns, hturns⟩ := turns_of_runSources hitems hsources
  exact ⟨row, σ₀, turns, σ₁, σ₂, hrow, hturns, hremove, hτ⟩

/-- A working copy that nobody holds can deliver to every node that it does not lead to. -/
theorem exists_delivers {s : Store} {copy : Handle} (hd : Disciplined s) (hcopy : s.Top copy)
    (halive : s.isAlive d = true) (hfar : ¬ s.Reaches copy d) :
    ∃ s₀, Delivers Fence.wide s₀ { x | s.Top x } copy d ∧ Held Fence.wide s s₀ { x | s.Top x } s := by
  -- in the store before, there was nothing but the destination and what leads to it
  obtain ⟨s₀, hsince, hfirst⟩ := hd.exists_since (fun x => s.Reaches x d)
    fun a b hab hb => .head hab hb
  refine ⟨s₀, ⟨hcopy, Fence.inside_wide copy, Bool.eq_false_iff.2 fun hold => ?_,
    (hfirst d).2 ⟨halive, .refl _ _⟩, id⟩, hsince, hd.balanced.fenced_wide s⟩
  exact hfar ((hfirst copy).1 hold).2

namespace Turn

variable {t : Turn}

-- ---------------------------------------------------------------------------
-- What a turn begins with
-- ---------------------------------------------------------------------------

/-- What a turn begins with: the copy bears what the block bears, with these contents in front of
the children. All that it leads to is new, and nothing else has changed. -/
structure Begins (contents : List Shape) (t : Turn) : Prop where
  content : ∃ x, Bears t.before.nodes t.block x ∧ Bears t.begun.nodes t.copy (x.withFront contents)
  new (y : Handle) : t.begun.nodes.Reaches t.copy y → Fresh t.before.nodes t.begun.nodes y
  keeps {y : Handle} {n : Node} :
    t.before.nodes.node? y = some n → t.begun.nodes.node? y = some n

theorem Of.evolves_begun (hof : t.Of scope d row) : Evolves t.before.nodes t.begun.nodes := by
  obtain ⟨s, hclone, hfront⟩ := hof.prepared
  exact (Evolves.deepClone hclone).trans (Steady.evolves_of_ok hfront)

/-- A turn begins with copies of the trees that have been set aside, and leaves them so. -/
theorem Of.begins (hof : t.Of scope d row) (hr : SetAside d row contents t.before.nodes)
    (hu : Unwrapped t.begun.nodes) : t.Begins contents ∧ SetAside d row contents t.begun.nodes ∧
      t.begun.nodes.Top t.copy ∧ t.copy ∉ row := by
  obtain ⟨s, hclone, hfront⟩ := hof.prepared
  have hus : Unwrapped s := (Steady.evolves_of_ok hfront).unwrapped hu
  have hd := hr.disciplined
  have hsprouted := hd.balanced.sprouted_deepClone hclone
  have hsince := (Since.refl hd).deepClone hclone hus
  obtain ⟨x, hblock, hcopy⟩ := hd.bears_deepClone hclone hus
  -- the copy of the block is new, so no template is reached from it and none reaches it
  have hnot : t.copy ∉ row := fun hmem => by
    have hlive := (hr.aside _ hmem).1.1
    simp [hsprouted.fresh_root.1] at hlive
  have htop : s.Top t.copy := hsince.top (Or.inr rfl)
  have haside : SetAside d row contents s := hr.of_keeps hsince.disciplined
    (fun c hc => hsince.top (Or.inl (hr.aside c hc).1)) fun _ _ _ _ _ hn => hsprouted.keeps hn
  have hfar : ∀ c ∈ row, ¬ s.Reaches c t.copy := fun c hc hreach =>
    hnot (htop.eq_of_reaches hreach ▸ hc)
  -- the templates are cloned in front of the copy's children
  obtain ⟨clones, u, hrun, hgraft⟩ := cloneInFront_apply (σ := { t.before with nodes := s })
    hsince.disciplined htop.1 haside.bears hfar (by rw [Engine.after, hfront]; exact hu)
  obtain rfl : u = t.begun.nodes := by
    rw [hfront] at hrun
    injection hrun with _ hbegun
    exact (congrArg Session.nodes hbegun).symm
  refine ⟨⟨⟨x, hblock, hgraft.bears_front hsince.disciplined hcopy⟩, fun y hy => ?_,
    fun {y n} hn => hgraft.keeps (hsprouted.keeps hn) fun heq => ?_⟩,
    haside.keep hgraft.disciplined (fun c hc => (hgraft.tops c).2 (haside.aside c hc).1)
      fun c hc => hgraft.seen_eq (haside.whole c hc) (hfar c hc), (hgraft.tops _).2 htop, hnot⟩
  -- below the copy is what it bore and what was cloned, all of it new
  · have hlive := (hgraft.bears_front hsince.disciplined hcopy).whole y hy
    rcases hgraft.reaches_target hcopy.whole hy with hold | ⟨c, hc, hcy⟩
    · exact ⟨(hsprouted.new hold).1, hlive⟩
    · exact ⟨isAlive_eq_false_of_keeps (fun x hx => by
        obtain ⟨n, hn⟩ := isAlive_iff.1 hx
        exact isAlive_iff.2 ⟨n, hsprouted.keeps hn⟩) (hgraft.new c hc y hcy).1, hlive⟩
  -- the copy was not there before the turn
  · have hdead := hsprouted.fresh_root.1
    rw [← heq, isAlive_iff.2 ⟨n, hn⟩] at hdead
    simp at hdead

-- ---------------------------------------------------------------------------
-- What a turn leaves
-- ---------------------------------------------------------------------------

/-- Dealing with the signal of a turn frees at most one child of the copy. -/
theorem Of.settled_cases (hof : t.Of scope d row) (hd : Disciplined t.ended.nodes)
    (htop : t.ended.nodes.Top t.copy) : t.settled = t.ended ∨
      ∃ f ∈ t.ended.nodes.childList t.copy,
        t.settled = { t.ended with nodes := t.ended.nodes.remove f } := by
  have hdrop : ∀ p : Control → Bool,
      t.settled = { t.ended with nodes := t.ended.nodes.dropFront t.copy p } →
        t.settled = t.ended ∨ ∃ f ∈ t.ended.nodes.childList t.copy,
          t.settled = { t.ended with nodes := t.ended.nodes.remove f } := by
    intro p hp
    rcases dropFront_cases t.ended.nodes t.copy p with heq | ⟨f, hf, heq⟩
    · exact Or.inl (by rw [hp, heq])
    · exact Or.inr ⟨f, hf, by rw [hp, heq]⟩
  -- at most the first child is dropped: a return that came down, or the pending signal itself
  rcases executeAll_pending hof.executed with ⟨hnone, -⟩ | hpending
  · have hsettle := hof.settles
    rw [hnone] at hsettle
    obtain ⟨⟨⟩, σ, hedit, hlast⟩ := bind_eq_ok hsettle
    obtain ⟨s, hstrip, rfl⟩ := edit_eq_ok hedit
    obtain rfl := Except.ok.inj ((hd.live.stripReturn_eq t.copy).symm.trans hstrip)
    rw [if_neg (by simp)] at hlast
    injection hlast with _ hlast
    exact hdrop _ hlast.symm
  · exact hdrop _ (settle_eq_ok hd htop hpending hof.settles)

theorem Of.evolves_settled (hof : t.Of scope d row) : Evolves t.ended.nodes t.settled.nodes :=
  Steady.evolves_of_ok hof.settles

/-- What is no part of the copy stays when the signal of the turn is dealt with. -/
theorem Of.rests (hof : t.Of scope d row) (hr : SetAside d row contents t.ended.nodes)
    (htop : t.ended.nodes.Top t.copy) (hnot : t.copy ∉ row) (hu : Unwrapped t.settled.nodes) :
    SetAside d row contents t.settled.nodes ∧ t.settled.nodes.Top t.copy ∧
      ∀ x, t.ended.nodes.isAlive x = true → ¬ t.ended.nodes.Reaches t.copy x →
        t.settled.nodes.isAlive x = true ∧ ¬ t.settled.nodes.Reaches t.copy x := by
  have hd := hr.disciplined
  rcases hof.settled_cases hd htop with heq | ⟨f, hf, heq⟩
  · rw [heq]
    exact ⟨hr, htop, fun _ hx hfar => ⟨hx, hfar⟩⟩
  · rw [heq] at hu ⊢
    have hholds : t.ended.nodes.Holds t.copy f := holds_iff_childList.2 (Or.inl hf)
    have hthin := hd.thinned_remove f
    have hlive : (t.ended.nodes.remove f).isAlive t.copy = true :=
      (hd.isAlive_remove f _).2 ⟨htop.1, hd.not_reaches_holder hholds⟩
    refine ⟨hr.remove htop hnot (.single hholds) (hd.live.of_mem_childList hf) hu,
      ⟨hlive, fun a ha => htop.2 a (hthin.holds ha hlive)⟩, fun x hx hfar => ?_⟩
    have hx' : (t.ended.nodes.remove f).isAlive x = true :=
      (hd.isAlive_remove f x).2 ⟨hx, fun hreach => hfar (.head hholds hreach)⟩
    exact ⟨hx', fun hreach => hfar (hthin.reaches hreach hx')⟩

/-- A block that the destination held when the results were delivered, and had to give up: its old
children go before the first results, and its old value always. -/
def Frees (d : Handle) (t : Turn) (x : Handle) : Prop :=
  ∃ k, ((t.first = true ∧ k ∈ t.settled.nodes.childList d) ∨ t.settled.nodes.Owns d k) ∧
    t.settled.nodes.Reaches k x

theorem Of.evolves_after (hof : t.Of scope d row) : Evolves t.settled.nodes t.after.nodes := by
  obtain ⟨σ, hdeliver, hafter⟩ := hof.delivered
  rw [hafter]
  exact (Steady.evolves_of_ok hdeliver).trans (.remove _ _)

/-- The record is that of a run. -/
theorem Of.run (hof : t.Of scope d row) :
    executeCopy scope t.block d row t.first t.before = .ok () t.after := by
  obtain ⟨s, hclone, hfront⟩ := hof.prepared
  obtain ⟨σ, hdeliver, hafter⟩ := hof.delivered
  have hmade : Engine.deepClone t.block t.before = .ok t.copy { t.before with nodes := s } := by
    rw [Engine.deepClone, Engine.change, hclone]
  have hknown : (liftM (t.begun.nodes.children t.copy) : Engine (List Handle)) t.begun =
      .ok t.known t.begun := by
    rw [hof.known]
    rfl
  have hwork : runCopy scope t.copy d row t.first { t.before with nodes := s } = .ok () σ := by
    rw [runCopy_eq, bind_of_ok hfront, nodes_bind_apply, bind_of_ok hknown, bind_of_ok hof.executed,
      bind_of_ok hof.settles, hdeliver]
  rw [executeCopy, bind_of_ok hmade, always_of_ok hwork, hafter]
  rfl

/-- The results of a turn are handed over, and the copy is freed. -/
theorem Of.handsOver (hof : t.Of scope d row) (hd : Disciplined t.settled.nodes)
    (htop : t.settled.nodes.Top t.copy) (halive : t.settled.nodes.isAlive d = true)
    (hfar : ¬ t.settled.nodes.Reaches t.copy d) {c : Node}
    (hc : t.settled.nodes.node? t.copy = some c) (hu : Unwrapped t.after.nodes) :
    ∃ s₀ u, Delivers Fence.wide s₀ { x | t.settled.nodes.Top x } t.copy d ∧
      Held Fence.wide t.settled.nodes s₀ { x | t.settled.nodes.Top x } t.settled.nodes ∧
      Held Fence.wide t.settled.nodes s₀ { x | t.settled.nodes.Top x } u ∧
      HandedOver t.settled.nodes t.copy d (c.children.filter fun x => !t.known.contains x) t.first u ∧
      t.after.nodes = u.remove t.copy := by
  obtain ⟨s₀, hdel, hheld⟩ := exists_delivers hd htop halive hfar
  obtain ⟨σ, hdeliver, hafter⟩ := hof.delivered
  rw [hafter] at hu
  have hu' : Unwrapped σ.nodes := (Evolves.remove _ _).unwrapped hu
  have hend := ((ensures_deliver (K := fun _ => True) t.copy d t.known t.first
    (E := fun _ => True)).gives hdeliver hu' ⟨hdel, hheld, fun _ _ => trivial⟩).1
  obtain ⟨u, rfl, hover⟩ := deliver_eq_ok hdel hheld halive hc hdeliver hu'
  exact ⟨s₀, u, hdel, hheld, hend, hover, by rw [hafter]⟩

/-- When the results have been delivered, the destination is there, and every other node that was
there and is no part of the copy, unless the destination had to give it up. -/
theorem Of.ends (hof : t.Of scope d row) (hr : SetAside d row contents t.settled.nodes)
    (htop : t.settled.nodes.Top t.copy) (hnot : t.copy ∉ row)
    (halive : t.settled.nodes.isAlive d = true) (hfar : ¬ t.settled.nodes.Reaches t.copy d)
    (hu : Unwrapped t.after.nodes) :
    SetAside d row contents t.after.nodes ∧ t.after.nodes.isAlive d = true ∧
      ∀ x, t.settled.nodes.isAlive x = true → ¬ t.settled.nodes.Reaches t.copy x →
        (t.after.nodes.isAlive x = true ↔ ¬ t.Frees d x) := by
  obtain ⟨n, hn⟩ := isAlive_iff.1 halive
  obtain ⟨c, hc⟩ := isAlive_iff.1 htop.1
  obtain ⟨s₀, u, hdel, hheld, hend, hover, hafter⟩ :=
    hof.handsOver hr.disciplined htop halive hfar hc hu
  rw [hafter] at hu ⊢
  -- what is handed over are children of the copy
  have hcs : ∀ x ∈ c.children.filter fun x => !t.known.contains x,
      x ∈ t.settled.nodes.childList t.copy := fun x hx => by
    rw [childList_eq hc]
    exact List.mem_of_mem_filter hx
  have hne : t.copy ≠ d := fun heq => hfar (heq ▸ .refl _ _)
  -- handing over only takes from the copy, so it leads nowhere new
  have hleft : ∀ {x}, ¬ t.settled.nodes.Reaches t.copy x → ¬ u.Reaches t.copy x := by
    intro x hx hreach
    obtain ⟨k, hk, -, hkx⟩ := hover.reaches_copy hdel hheld halive hreach
      fun heq => hx (heq ▸ .refl _ _)
    exact hx (.head (holds_iff_childList.2 (Or.inl hk)) hkx)
  -- freeing the copy leaves what it does not lead to
  have hstay : ∀ {x}, ¬ u.Reaches t.copy x → (u.remove t.copy).node? x = u.node? x :=
    hend.disciplined.node?_remove_unheld (hend.since.top htop).2
  have hdest : (u.remove t.copy).isAlive d = true := isAlive_iff.2
    ⟨_, (hover.delivered hdel hheld hend halive hcs).target hn hc⟩
  refine ⟨hr.keep (hend.since.remove t.copy hu).disciplined (fun a ha => ?_) fun a ha y hy => ?_,
    hdest, fun x hx hxfar => ⟨?_, fun hfrees => ?_⟩⟩
  · exact (hend.since.remove t.copy hu).top ⟨(hr.aside a ha).1, fun heq => hnot (heq ▸ ha)⟩
  -- below a template nothing is moved or freed
  · have hycopy : ¬ t.settled.nodes.Reaches t.copy y := hr.not_reaches_of_top htop hnot ha hy
    rw [seen_eq_of_node?_eq (hstay (hleft hycopy)),
      hover.kept (fun heq => hycopy (heq ▸ .refl _ _)) (fun heq => (hr.aside a ha).2 (heq ▸ hy))
        (fun _ k hk => hr.not_reaches_of_holds (holds_iff_childList.2 (Or.inl hk)) ha hy)
        fun old hown => hr.not_reaches_of_holds hown.holds ha hy]
  -- a node that the turn frees was below the old contents of the destination
  · rintro halive' ⟨k, hk, hkx⟩
    have hgone := hover.freed hdel hheld hend halive hcs hk hx hkx
    rw [Store.isAlive, hstay (hleft hxfar), ← Store.isAlive, hgone] at halive'
    simp at halive'
  -- the destination is alive, and any other node that is not freed was kept
  · by_cases hxd : x = d
    · rw [hxd]
      exact hdest
    · have hseen := hover.kept (fun heq => hxfar (heq ▸ .refl _ _)) hxd
        (fun hfirst k hk hkx => hfrees ⟨k, Or.inl ⟨hfirst, hk⟩, hkx⟩)
        fun old hown hkx => hfrees ⟨old, Or.inr hown, hkx⟩
      rw [Store.isAlive, hstay (hleft hxfar), ← Store.isAlive, isAlive_of_seen_eq hseen]
      exact hx

/-- What handlers have left when the loop of a turn has ended, if they have not touched the trees
that were set aside: nobody holds the copy, and no block and not the destination has been freed or
has come below it. -/
structure Undisturbed (d : Handle) (row : List Handle) (contents : List Shape)
    (blocks : List Handle) (t : Turn) : Prop where
  evolves : Evolves t.begun.nodes t.ended.nodes
  setAside : SetAside d row contents t.ended.nodes
  top : t.ended.nodes.Top t.copy
  kept : ∀ x ∈ d :: blocks, t.before.nodes.isAlive x = true →
    t.ended.nodes.isAlive x = true ∧ ¬ t.ended.nodes.Reaches t.copy x

theorem Of.evolves (hof : t.Of scope d row) (ht : Evolves t.begun.nodes t.ended.nodes) :
    Evolves t.before.nodes t.after.nodes :=
  ((hof.evolves_begun.trans ht).trans hof.evolves_settled).trans hof.evolves_after

/-- A turn that handlers have not disturbed: what it begins with, and what is there when it is
over. -/
theorem Of.taken (hof : t.Of scope d row) (ht : t.Undisturbed d row contents blocks)
    (hr : SetAside d row contents t.before.nodes) (hu : Unwrapped t.after.nodes) :
    t.Begins contents ∧ SetAside d row contents t.after.nodes ∧ t.after.nodes.isAlive d = true ∧
      ∀ x ∈ blocks, t.before.nodes.isAlive x = true →
        (t.after.nodes.isAlive x = true ↔ ¬ t.Frees d x) := by
  have husettled := hof.evolves_after.unwrapped hu
  have hubegun := (ht.evolves.trans hof.evolves_settled).unwrapped husettled
  obtain ⟨hbegins, -, -, hnot⟩ := hof.begins hr hubegun
  obtain ⟨hrest, htop, hstay⟩ := hof.rests ht.setAside ht.top hnot husettled
  have hkept : ∀ x ∈ d :: blocks, t.before.nodes.isAlive x = true →
      t.settled.nodes.isAlive x = true ∧ ¬ t.settled.nodes.Reaches t.copy x := fun x hx hlive =>
    hstay x (ht.kept x hx hlive).1 (ht.kept x hx hlive).2
  obtain ⟨hdest, hfar⟩ := hkept d (by simp) hof.destination
  obtain ⟨hafter, halive, hfrees⟩ := hof.ends hrest htop hnot hdest hfar hu
  refine ⟨hbegins, hafter, halive, fun x hx hlive => ?_⟩
  obtain ⟨hthere, hxfar⟩ := hkept x (List.mem_cons_of_mem _ hx) hlive
  exact hfrees x hthere hxfar

end Turn

-- ---------------------------------------------------------------------------
-- Blocks in turn
-- ---------------------------------------------------------------------------

/-- Blocks are taken in turn. After the turns in `past`, a block has one unless one of them has
freed it, and unless a signal is pending. -/
inductive InTurn (d : Handle) : List Turn → List Handle → List Turn → Prop
  | done {past : List Turn} : InTurn d past [] []
  | stopped {past : List Turn} {blocks : List Handle} {t : Turn} : t ∈ past → t.Stops d →
      InTurn d past blocks []
  | freed {past turns : List Turn} {block : Handle} {rest : List Handle} {t : Turn} :
      t ∈ past → t.Frees d block → InTurn d past rest turns → InTurn d past (block :: rest) turns
  | turn {past turns : List Turn} {t : Turn} {rest : List Handle} :
      (t.first = true ↔ past = []) → (∀ p ∈ past, ¬ p.Frees d t.block ∧ ¬ p.Stops d) →
      InTurn d (t :: past) rest turns → InTurn d past (t.block :: rest) (t :: turns)

/-- Where no turn frees a block or leaves a signal, every block has its turn. -/
theorem InTurn.blocks_eq {past turns : List Turn} (h : InTurn d past blocks turns)
    (hquiet : ∀ t ∈ past ++ turns, ¬ t.Stops d ∧ ∀ x ∈ blocks, ¬ t.Frees d x) :
    turns.map Turn.block = blocks := by
  induction h with
  | done => rfl
  | stopped hmem hstops => exact absurd hstops (hquiet _ (List.mem_append_left _ hmem)).1
  | freed hmem hfrees _ _ =>
    exact absurd hfrees ((hquiet _ (List.mem_append_left _ hmem)).2 _ (by simp))
  | turn _ _ _ ih =>
    rw [List.map_cons, ih fun p hp => ?_]
    obtain ⟨hstops, hfrees⟩ := hquiet p (by
      simp only [List.mem_append, List.mem_cons] at hp ⊢
      tauto)
    exact ⟨hstops, fun x hx => hfrees x (List.mem_cons_of_mem _ hx)⟩

theorem Turns.evolves {turns : List Turn} (h : Turns scope d row first blocks σ turns τ)
    (hturns : ∀ t ∈ turns, Evolves t.begun.nodes t.ended.nodes) : Evolves σ.nodes τ.nodes := by
  induction h with
  | done => exact .refl _
  | gone _ => exact .refl _
  | lost _ _ ih => exact ih hturns
  | last hof _ => exact hof.evolves (hturns _ (by simp))
  | next hof _ _ ih =>
    obtain ⟨ht, hrest⟩ := List.forall_mem_cons.1 hturns
    exact (hof.evolves ht).trans (ih hrest)

/-- Turns that handlers do not disturb are those of the blocks in turn, and all of them begin with
the same arguments. -/
theorem Turns.inTurn {past turns : List Turn} {all : List Handle}
    (h : Turns scope d row first blocks σ turns τ)
    (hund : ∀ t ∈ turns, t.Undisturbed d row contents all) (hsub : blocks ⊆ all)
    (hr : SetAside d row contents σ.nodes) (hdest : σ.nodes.isAlive d = true)
    (hissued : ∀ x ∈ all, σ.nodes.Issued x)
    (halive : ∀ x ∈ all, σ.nodes.isAlive x = true ↔ ∀ p ∈ past, ¬ p.Frees d x)
    (hquiet : ∀ p ∈ past, ¬ p.Stops d) (hfirst : first = true ↔ past = [])
    (hu : Unwrapped τ.nodes) : InTurn d past blocks turns ∧ ∀ t ∈ turns, t.Begins contents := by
  induction h generalizing past with
  | done => exact ⟨.done, by simp⟩
  | gone hgone => simp [hgone] at hdest
  -- a block that is gone was freed by one of the turns before
  | lost hdead _ ih =>
    obtain ⟨hmem, hrest⟩ := List.cons_subset.1 hsub
    obtain ⟨hturn, hbegins⟩ := ih hund hrest hr hdest hissued halive hquiet hfirst hu
    have hfreed := mt (halive _ hmem).2 (by simp [hdead])
    push Not at hfreed
    obtain ⟨p, hp, hfrees⟩ := hfreed
    exact ⟨.freed hp hfrees hturn, hbegins⟩
  | @last t rest hof hstops =>
    obtain ⟨hbegins, -⟩ := hof.taken (hund t (by simp)) hr hu
    have hkept := (halive _ (hsub (by simp))).1 hof.alive
    exact ⟨.turn hfirst (fun p hp => ⟨hkept p hp, hquiet p hp⟩) (.stopped (by simp) hstops),
      by simpa using hbegins⟩
  | @next t rest turns τ hof hstops hturns ih =>
    obtain ⟨ht, hundrest⟩ := List.forall_mem_cons.1 hund
    obtain ⟨hmem, hrest⟩ := List.cons_subset.1 hsub
    have hua : Unwrapped t.after.nodes := (hturns.evolves fun t ht => (hundrest t ht).evolves).unwrapped hu
    obtain ⟨hbegins, hafter, hdest', hfrees⟩ := hof.taken ht hr hua
    have hevolves := hof.evolves ht.evolves
    have hkept := (halive _ hmem).1 hof.alive
    -- after this turn a block is alive unless this or an earlier turn freed it
    have hnow : ∀ x ∈ all,
        t.after.nodes.isAlive x = true ↔ ∀ p ∈ t :: past, ¬ p.Frees d x := by
      intro x hx
      rw [List.forall_mem_cons, ← halive x hx]
      cases hlive : t.before.nodes.isAlive x with
      | true => simpa using hfrees x hx hlive
      | false => simp [hevolves.not_isAlive hua (hissued x hx) hlive]
    obtain ⟨hturn, hall⟩ := @ih (t :: past) hundrest hrest hafter hdest'
      (fun x hx => hevolves.issued hua (hissued x hx)) hnow
      (List.forall_mem_cons.2 ⟨hstops, hquiet⟩) (by simp) hu
    exact ⟨.turn hfirst (fun p hp => ⟨hkept p hp, hquiet p hp⟩) hturn,
      List.forall_mem_cons.2 ⟨hbegins, hall⟩⟩

/-- A node whose expression leads to blocks executes them in turn, and each turn begins with the
same contents in front, those of the node's children as they were. Only two things keep a block
from its turn: a signal that an earlier turn has left, and that the node, when it took the results
of an earlier turn, had to give up what held the block. -/
theorem execute_takes_turns (scope : Scope) (hs : WellFormed σ.nodes) {text : String}
    (hvalue : σ.nodes.value d = .ok (some (.scalar (.expr text))))
    (hitems : σ.nodes.resolve d = .ok (blocks.map .node))
    (hrun : execute .copy scope d false σ = .ok () τ) (hu : ∀ i, τ.nodes.freedAt i < 2 ^ 32) :
    ∃ contents row σ₀ turns σ₁ σ₂,
      List.Forall₂ (Bears σ.nodes) (σ.nodes.childList d) contents ∧
      (σ.nodes.childList d).mapM Engine.deepClone { σ with depth := σ.depth + 1 } = .ok row σ₀ ∧
      Turns scope d row true blocks σ₀ turns σ₁ ∧
      row.forM Engine.remove σ₁ = .ok () σ₂ ∧ τ = { σ₂ with depth := σ₂.depth - 1 } ∧
      ((∀ t ∈ turns, t.Undisturbed d row contents blocks) →
        InTurn d [] blocks turns ∧ (∀ t ∈ turns, t.Begins contents) ∧
        ((∀ t ∈ turns, ¬ t.Stops d ∧ ∀ x ∈ blocks, ¬ t.Frees d x) →
          turns.map Turn.block = blocks)) := by
  obtain ⟨n, hn, hnv⟩ := value_eq_ok_iff.1 hvalue
  have hh : σ.nodes.isAlive d = true := isAlive_iff.2 ⟨n, hn⟩
  -- a path leads only to nodes that are alive
  have hlive : ∀ x ∈ blocks, σ.nodes.isAlive x = true := by
    have hends := @Coherent.ends_resolve _ hs.toDisciplined.coherent _ hh False
      fun m g hm hg _ => by
        obtain rfl := Option.some.inj (hn.symm.trans hm)
        simp [hnv, Value.target?] at hg
    rw [hitems] at hends
    intro x hx
    by_contra hdead
    exact hends (.node x) (List.mem_map_of_mem hx) (Bool.eq_false_iff.2 hdead)
  obtain ⟨x, hx⟩ := hs.exists_bears (hs.whole hh)
  obtain ⟨contents, hcontents⟩ := hx.children
  obtain ⟨row, σ₀, turns, σ₁, σ₂, hrow, hturns, hremove, hτ⟩ :=
    turns_of_execute hvalue hitems (by rw [List.map_map]; rfl) hrun
  refine ⟨contents, row, σ₀, turns, σ₁, σ₂, hcontents, hrow, hturns, hremove, hτ, fun hund => ?_⟩
  have hu₁ : Unwrapped σ₁.nodes := (Steady.evolves_of_ok hremove).unwrapped (by rwa [hτ] at hu)
  obtain ⟨haside, hevolves, hkeeps, -⟩ := setAside_of_mapM (σ := { σ with depth := σ.depth + 1 })
    hs.toDisciplined hh hcontents hrow ((hturns.evolves fun t ht => (hund t ht).evolves).unwrapped hu₁)
  -- copying the children keeps every node alive
  have hthere : ∀ {x}, σ.nodes.isAlive x = true → σ₀.nodes.isAlive x = true := fun hx => by
    obtain ⟨k, hk⟩ := isAlive_iff.1 hx
    exact isAlive_iff.2 ⟨k, hkeeps hk⟩
  -- so the turns begin in a state of which the run lemma speaks
  have hinTurn : InTurn d [] blocks turns ∧ ∀ t ∈ turns, t.Begins contents :=
    hturns.inTurn hund (List.Subset.refl _) haside (hthere hh)
      (fun x hx => Or.inr (hthere (hlive x hx))) (fun x hx => by simp [hthere (hlive x hx)])
      (by simp) (by simp) hu₁
  obtain ⟨hturn, hbegins⟩ := hinTurn
  exact ⟨hturn, hbegins, fun hquiet => hturn.blocks_eq (by simpa using hquiet)⟩

-- ---------------------------------------------------------------------------
-- Handlers that leave the nodes alone
-- ---------------------------------------------------------------------------

/-- Each record is one of an execution with the same arguments for the same destination. -/
theorem Turns.of {turns : List Turn} (h : Turns scope d row first blocks σ turns τ) :
    ∀ t ∈ turns, t.Of scope d row := by
  induction h with
  | done => simp
  | gone _ => simp
  | lost _ _ ih => exact ih
  | last hof _ => simpa using hof
  | next hof _ _ ih => exact List.forall_mem_cons.2 ⟨hof, ih⟩

section Still

variable (hstill : ∀ {name x σ τ}, scope.dispatch name x σ = .ok () τ → τ.nodes = σ.nodes)

include hstill

theorem Turn.Of.ended_eq {t : Turn} (hof : t.Of scope d row) : t.ended.nodes = t.begun.nodes := by
  refine executeAll_preserves (I := fun σ => σ.nodes = t.begun.nodes) (fun hσ hrun => ?_) rfl
    hof.executed
  exact (hstill hrun).trans hσ

/-- Handlers that leave the nodes alone disturb no turn. -/
theorem Turns.undisturbed {turns : List Turn} (h : Turns scope d row first blocks σ turns τ)
    (hr : SetAside d row contents σ.nodes) (hu : Unwrapped τ.nodes) (all : List Handle) :
    ∀ t ∈ turns, t.Undisturbed d row contents all := by
  -- a turn in which the statements change nothing keeps every block apart from its copy
  have hone : ∀ {t : Turn}, t.Of scope d row → SetAside d row contents t.before.nodes →
      Unwrapped t.after.nodes → t.Undisturbed d row contents all := by
    intro t hof hr hu
    have hsame := hof.ended_eq hstill
    have hevolves : Evolves t.begun.nodes t.ended.nodes := by
      rw [hsame]
    obtain ⟨hbegins, haside, htop, -⟩ := hof.begins hr
      (((hevolves.trans hof.evolves_settled).trans hof.evolves_after).unwrapped hu)
    refine ⟨hevolves, by rwa [hsame], by rwa [hsame], fun x _ hx => ?_⟩
    obtain ⟨n, hn⟩ := isAlive_iff.1 hx
    rw [hsame]
    refine ⟨isAlive_iff.2 ⟨n, hbegins.keeps hn⟩, fun hreach => ?_⟩
    simp [(hbegins.new x hreach).1] at hx
  induction h with
  | done => simp
  | gone _ => simp
  | lost _ _ ih => exact ih hr hu
  | last hof _ => simpa using hone hof hr hu
  | next hof _ hturns ih =>
    have hua := (hturns.evolves fun t ht => by
      rw [(hturns.of t ht).ended_eq hstill]).unwrapped hu
    have ht := hone hof hr hua
    exact List.forall_mem_cons.2 ⟨ht, ih (hof.taken ht hr hua).2.1 hu⟩

end Still

/-- A node whose expression leads to its own two children. -/
def devouring : Session :=
  { nodes := Store.ofDocs [.plain "eval" (some (.expr "/*"))
      [.plain "_a" none [.plain "say" none []], .plain "_b" none [.plain "grow" none []]]] }

set_option maxRecDepth 100000 in
/-- The second of two children that are executed is lost when the results of the first come. -/
theorem execute_takes_turns_devouring : ∃ contents turns τ,
    List.Forall₂ (Bears devouring.nodes) [⟨2, 0⟩, ⟨4, 0⟩] contents ∧
      execute .copy noting ⟨1, 0⟩ false devouring = .ok () τ ∧ τ.journal = ["say"] ∧
      InTurn ⟨1, 0⟩ [] [⟨2, 0⟩, ⟨4, 0⟩] turns ∧ ∀ t ∈ turns, t.Begins contents := by
  have hs : WellFormed devouring.nodes := wellFormed_ofDocs (by cbv) (by cbv)
  have hrun : Outcome.isOkWith (fun _ τ => decide (τ.journal = ["say"]) && τ.nodes.isUnwrapped)
      (execute .copy noting ⟨1, 0⟩ false devouring) = true := by cbv
  obtain ⟨⟨⟩, τ, hrun, hend⟩ := Outcome.of_isOkWith hrun
  obtain ⟨hjournal, hu⟩ := Bool.and_eq_true_iff.1 hend
  replace hu := unwrapped_of_isUnwrapped hu
  have hvalue : devouring.nodes.value ⟨1, 0⟩ = .ok (some (.scalar (.expr "/*"))) := by cbv
  have hitems : devouring.nodes.resolve ⟨1, 0⟩ = .ok ([⟨2, 0⟩, ⟨4, 0⟩].map .node) := by cbv
  obtain ⟨contents, row, σ₀, turns, σ₁, σ₂, hcontents, hrow, hturns, hremove, hτ, htaken⟩ :=
    execute_takes_turns noting hs hvalue hitems hrun hu
  have hchildren : devouring.nodes.childList ⟨1, 0⟩ = [⟨2, 0⟩, ⟨4, 0⟩] := by cbv
  rw [hchildren] at hcontents hrow
  have hclones : Outcome.isOkWith (fun _ σ => σ.nodes.isUnwrapped)
      ([⟨2, 0⟩, ⟨4, 0⟩].mapM Engine.deepClone { devouring with depth := 1 }) = true := by cbv
  obtain ⟨row', σ₀', hrow', hu₀⟩ := Outcome.of_isOkWith hclones
  -- the copies of the run are the ones evaluated here
  obtain ⟨rfl, rfl⟩ : row' = row ∧ σ₀' = σ₀ := by
    have hsame : EStateM.Result.ok row' σ₀' = .ok row σ₀ := hrow'.symm.trans hrow
    injection hsame with hrow hσ
    exact ⟨hrow, hσ⟩
  have hh : devouring.nodes.isAlive ⟨1, 0⟩ = true := by cbv
  obtain ⟨haside, -⟩ := setAside_of_mapM (σ := { devouring with depth := 1 }) hs.toDisciplined
    hh hcontents hrow (unwrapped_of_isUnwrapped hu₀)
  have hu₁ : Unwrapped σ₁.nodes := (Steady.evolves_of_ok hremove).unwrapped (by rwa [hτ] at hu)
  -- the handler only writes to the journal
  have hstill : ∀ {name x σ τ}, noting.dispatch name x σ = .ok () τ → τ.nodes = σ.nodes := by
    rintro name x σ τ ⟨-, rfl⟩
    rfl
  obtain ⟨hturn, hbegins, -⟩ := htaken (hturns.undisturbed hstill haside hu₁ _)
  exact ⟨contents, turns, τ, hcontents, hrun, of_decide_eq_true hjournal, hturn, hbegins⟩

end TreeScript
