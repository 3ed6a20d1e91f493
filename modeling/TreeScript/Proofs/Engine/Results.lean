import TreeScript.Proofs.Engine.Turns
import TreeScript.Proofs.Twin.Copy

/-!
# TreeScript — the results of several blocks

A node whose value leads to several blocks gets the results of all of them, one after the other:
first its old children go, then the new children of each working copy are put behind those of the
one before, and the value is that of the last. With the standard keywords nothing but the working
copy changes while a block is executed, as long as neither the block nor the arguments have
references. The node may get references with its results, so this is asked again of a later block
that leads to the node.

* `Turn.created`, `Turn.result`, `Turn.fill` — what a turn gives;
* `Turn.Of.held` — what a turn leaves alone;
* `Turn.Of.fills`, `Turns.filled` — what one turn makes of the node, and what all of them do;
* `Gathered`, `execute_gathers` — the result, and `execute_gathers_not_all` where more is asked
  of it.
-/

namespace TreeScript

open Store Engine

variable {scope : Scope} {s m : Store} {d : Handle} {row blocks : List Handle}
  {contents : List Shape} {σ τ : Session} {first : Bool} {turns : List Turn} {t : Turn}

namespace Turn

-- ---------------------------------------------------------------------------
-- What a turn gives
-- ---------------------------------------------------------------------------

/-- The children that the working copy has got while the block was executed, without the signal
in front. -/
def created (t : Turn) : List Handle :=
  (t.ended.nodes.behindSignal t.copy).filter fun x => !t.known.contains x

/-- The value of the working copy when the block has been executed. -/
def result (t : Turn) : Option Value := (t.ended.nodes.node? t.copy).bind Node.value

/-- The destination with the results of a turn. -/
def fill (n : Node) (t : Turn) : Node :=
  { n with value := t.result, children := (if t.first then [] else n.children) ++ t.created }

/-- Later turns put their children behind those that are there, and the last one gives the value. -/
theorem foldl_fill_later (hlater : ∀ t ∈ turns, t.first = false) (n : Node) :
    turns.foldl fill n = { n with value := turns.getLast?.elim n.value result,
                                  children := n.children ++ turns.flatMap created } := by
  induction turns generalizing n with
  | nil => simp
  | cons t rest ih =>
    obtain ⟨ht, hrest⟩ := List.forall_mem_cons.1 hlater
    rw [List.foldl_cons, ih hrest, List.getLast?_cons, List.flatMap_cons]
    cases rest.getLast? <;> simp [fill, ht]

/-- The first turn takes the children away that were there. -/
theorem foldl_fill {last : Turn} (hlast : turns.getLast? = some last)
    (hfirst : ∀ t ∈ turns.head?, t.first = true) (hlater : ∀ t ∈ turns.tail, t.first = false)
    (n : Node) : turns.foldl fill n =
      { n with value := last.result, children := turns.flatMap created } := by
  cases turns with
  | nil => simp at hlast
  | cons t rest =>
    rw [List.getLast?_cons] at hlast
    replace hlater : ∀ t ∈ rest, t.first = false := hlater
    rw [List.foldl_cons, foldl_fill_later hlater, List.flatMap_cons, ← Option.some.inj hlast]
    cases rest.getLast? <;> simp [fill, hfirst t rfl]

-- ---------------------------------------------------------------------------
-- What a turn leaves alone
-- ---------------------------------------------------------------------------

theorem Of.evolves_ended (hscope : scope.Confined) (hof : t.Of scope d row) :
    Evolves t.begun.nodes t.ended.nodes := by
  have hkeeps := hscope _ t.begun.nodes (Fence.sealed_around t.begun.nodes)
  exact (ensures_executeAll (s := t.begun.nodes) (T := ∅) hkeeps t.copy).evolves_of_ok hof.executed

/-- While a block without references is executed on arguments without references, all that was there
is kept, and the copy is new. -/
theorem Of.held (hscope : scope.Confined) (hof : t.Of scope d row)
    (hd : Disciplined t.before.nodes) (hblock : t.before.nodes.Bare t.block)
    (hargs : ∀ a ∈ row, t.before.nodes.Bare a) (hu : Unwrapped t.ended.nodes) :
    t.before.nodes.isAlive t.copy = false ∧
      Held (Fence.around t.before.nodes none) t.before.nodes t.before.nodes
        ({ x | t.before.nodes.Top x } ∪ {t.copy}) t.ended.nodes := by
  obtain ⟨u, hclone, hfront⟩ := hof.prepared
  have hub : Unwrapped t.begun.nodes := (hof.evolves_ended hscope).unwrapped hu
  have hready := (WorkingCopy.deepClone hd hblock hargs hclone
    ((Steady.evolves_of_ok hfront).unwrapped hub)).cloneInFront
      (σ := { t.before with nodes := u }) (List.Subset.refl row) hfront hub
  have hloop := ensures_executeAll (s := t.before.nodes) (T := { x | t.before.nodes.Top x } ∪ {t.copy})
    (hscope _ t.before.nodes (Fence.sealed_around t.before.nodes)) t.copy
  exact ⟨(hd.balanced.sprouted_deepClone hclone).fresh_root.1,
    hloop.gives hof.executed hu ⟨hready.held, hready.alive, hready.inside⟩⟩

/-- So handlers have not touched what was set aside. -/
theorem Of.undisturbed (hscope : scope.Confined) (hof : t.Of scope d row)
    (hr : SetAside d row contents t.before.nodes) (hblock : t.before.nodes.Bare t.block)
    (hargs : ∀ a ∈ row, t.before.nodes.Bare a) (hu : Unwrapped t.ended.nodes) :
    t.Undisturbed d row contents [] := by
  obtain ⟨hnew, hheld⟩ := hof.held hscope hr.disciplined hblock hargs hu
  have hkeep : ∀ {x}, t.before.nodes.isAlive x = true →
      t.ended.nodes.node? x = t.before.nodes.node? x := fun hx =>
    hheld.fenced.node?_around (beside_none.2 hx)
  refine ⟨hof.evolves_ended hscope, hr.of_keeps hheld.disciplined
    (fun c hc => hheld.since.top (Or.inl (hr.aside c hc).1)) fun _ _ _ n _ hn =>
      (hkeep (isAlive_iff.2 ⟨n, hn⟩)).trans hn, hheld.since.top (Or.inr rfl), fun x _ hx => ?_⟩
  have hlive : t.ended.nodes.isAlive x = true := by rwa [Store.isAlive, hkeep hx]
  refine ⟨hlive, fun hreach => ?_⟩
  have hback := hheld.since.reaches_back hx hlive hreach
  simp [hback.isAlive hx] at hnew

-- ---------------------------------------------------------------------------
-- What a turn makes of the node
-- ---------------------------------------------------------------------------

/-- When its signal has been dealt with, the working copy has its value, and of the children that
it has got, those that count. -/
theorem Of.results (hof : t.Of scope d row) (hd : Disciplined t.ended.nodes)
    (htop : t.ended.nodes.Top t.copy) : ∃ k, t.settled.nodes.node? t.copy = some k ∧
      k.value = t.result ∧ (k.children.filter fun x => !t.known.contains x) = t.created := by
  obtain ⟨c, hc⟩ := isAlive_iff.1 htop.1
  have hresult : c.value = t.result := by rw [result, hc, Option.bind_some]
  -- whatever is freed, the copy keeps its value and gets no children
  obtain ⟨k, hk, hvalue, hsub⟩ : ∃ k, t.settled.nodes.node? t.copy = some k ∧ k.value = c.value ∧
      k.children ⊆ c.children := by
    rcases hof.settled_cases hd htop with heq | ⟨f, hf, heq⟩
    · exact ⟨c, by rw [heq, hc], rfl, List.Subset.refl _⟩
    · have hfreed := hd.freedOnly_remove (hd.live.of_mem_childList hf)
      refine ⟨{ c with children := c.children.filter (· != f) }, ?_, rfl,
        fun x hx => List.mem_of_mem_filter hx⟩
      rw [heq, hfreed.left _ (hd.not_reaches_holder (holds_iff_childList.2 (Or.inl hf))), hc]
      rfl
  refine ⟨k, hk, hvalue.trans hresult, ?_⟩
  rcases executeAll_pending hof.executed with ⟨-, hsame⟩ | hpending
  · -- nothing has been executed, and all children were there before
    have hknown : c.children = t.known := by
      obtain ⟨n, hn, heq⟩ := children_eq_ok.1 hof.known
      rw [← hsame, hc] at hn
      rw [← heq, Option.some.inj hn]
    have hnone : ∀ {xs : List Handle}, xs ⊆ c.children →
        (xs.filter fun x => !t.known.contains x) = [] := fun hxs =>
      List.filter_eq_nil_iff.2 fun x hx => by simpa [← hknown] using hxs hx
    rw [hnone hsub, created, hnone]
    rw [← childList_eq hc]
    exact behindSignal_subset _ _
  · have hsettled := settle_eq_ok hd htop hpending hof.settles
    rw [created, ← hd.childList_dropFront_isActive, ← childList_eq hk, hsettled]

/-- A turn gives its results to the node, and changes nothing else of it. -/
theorem Of.fills (hscope : scope.Confined) (hof : t.Of scope d row)
    (hr : SetAside d row contents t.before.nodes) (hblock : t.before.nodes.Bare t.block)
    (hargs : ∀ a ∈ row, t.before.nodes.Bare a) (hu : Unwrapped t.after.nodes) {n : Node}
    (hn : t.before.nodes.node? d = some n) : t.after.nodes.node? d = some (fill n t) := by
  have husettled := hof.evolves_after.unwrapped hu
  have huended := hof.evolves_settled.unwrapped husettled
  obtain ⟨-, hheld⟩ := hof.held hscope hr.disciplined hblock hargs huended
  have hund := hof.undisturbed hscope hr hblock hargs huended
  have hd := hheld.disciplined
  obtain ⟨hdest, hfar⟩ := hund.kept d (by simp) hof.destination
  have hne : d ≠ t.copy := fun heq => hfar (heq ▸ .refl _ _)
  -- the node is as it was when the results come
  have hsame : t.settled.nodes.node? d = some n := by
    have hended := (hheld.fenced.node?_around (beside_none.2 hof.destination)).trans hn
    rcases hof.settled_cases hd hund.top with heq | ⟨f, hf, heq⟩
    · rw [heq, hended]
    · rw [heq, hd.node?_remove_child hf hne fun hreach =>
        hfar (.head (holds_iff_childList.2 (Or.inl hf)) hreach), hended]
  obtain ⟨-, -, -, hnot⟩ := hof.begins hr (hund.evolves.unwrapped huended)
  obtain ⟨hrest, htop, hstay⟩ := hof.rests hund.setAside hund.top hnot husettled
  obtain ⟨hlive, hfar'⟩ := hstay d hdest hfar
  obtain ⟨k, hk, hvalue, hcreated⟩ := hof.results hd hund.top
  obtain ⟨s₀, u, hdel, hheld', hend, hover, hafter⟩ :=
    hof.handsOver hrest.disciplined htop hlive hfar' hk hu
  rw [hafter, (hover.delivered hdel hheld' hend hlive fun x hx => by
    rw [childList_eq hk]
    exact List.mem_of_mem_filter hx).target hsame hk, fill, hvalue, hcreated]

end Turn

-- ---------------------------------------------------------------------------
-- What the turns make of the node
-- ---------------------------------------------------------------------------

/-- A block that the node did not lead to has no references if it had none, and if it leads to the
node, the node has none. -/
theorem Phase.bare_later {t : Store} {b : Handle} (h : Phase m d false { x | m.Top x } t)
    (hm : Disciplined m) (hb : m.Bare b) (hback : ¬ m.Reaches d b) (hwhole : t.Whole b)
    (hfree : m.Reaches b d → t.RefFree d) : t.Bare b := by
  have hsame : ∀ {x}, m.Reaches b x → ¬ m.Reaches d x → t.node? x = m.node? x := fun hx hnot =>
    h.held.fenced.node?_around ⟨hb.whole _ hx, fun y hy => (Option.some.inj hy) ▸ hnot⟩
  -- a way from the block goes through old nodes until it comes to the node
  have hway : ∀ {x}, t.Reaches b x →
      (m.Reaches b x ∧ ¬ m.Reaches d x) ∨ (m.Reaches b d ∧ t.Reaches d x) := by
    intro x hx
    induction hx with
    | refl => exact Or.inl ⟨.refl _ _, hback⟩
    | @tail y z _ hstep ih =>
      rcases ih with ⟨hold, hnot⟩ | ⟨hto, hnew⟩
      · obtain ⟨n, hn, hz⟩ := hstep
        have hstep : m.Holds y z := ⟨n, by rwa [← hsame hold hnot], hz⟩
        by_cases hzd : z = d
        · exact Or.inr ⟨hzd ▸ hold.tail hstep, hzd ▸ .refl _ _⟩
        · refine Or.inl ⟨hold.tail hstep, fun hreach => ?_⟩
          rcases hm.reaches_holder (hb.whole _ (hold.tail hstep)) hstep hreach with heq | hup
          · exact hzd heq.symm
          · exact hnot hup
      · exact Or.inr ⟨hto, hnew.tail hstep⟩
  intro x hx
  obtain ⟨n, hn⟩ := isAlive_iff.1 (hwhole x hx)
  refine ⟨n, hn, ?_⟩
  rcases hway hx with ⟨hold, hnot⟩ | ⟨hto, hnew⟩
  · obtain ⟨k, hk, hvalue⟩ := hb x hold
    rw [hsame hold hnot, hk] at hn
    rwa [← Option.some.inj hn]
  · exact hfree hto x n hnew hn

/-- What is there before a turn. -/
structure Prepared (m : Store) (d : Handle) (row : List Handle) (contents : List Shape)
    (first : Bool) (s : Store) : Prop where
  phase : Phase m d first { x | m.Top x } s
  aside : SetAside d row contents s

/-- What the turns have made of the node, and of which blocks they were. -/
structure Filled (m : Store) (d : Handle) (row : List Handle) (contents : List Shape) (first : Bool)
    (blocks : List Handle) (s : Store) (turns : List Turn) (u : Store) : Prop
    extends Prepared m d row contents (first && turns.isEmpty) u where
  turn : ∀ t ∈ turns, t.Begins contents ∧ t.ended.nodes.isAlive t.copy = true
  order : turns.map Turn.block <+: blocks
  quiet : ∀ t ∈ turns.dropLast, ¬ t.Stops d
  ended : turns.map Turn.block = blocks ∨ ∃ t ∈ turns.getLast?, t.Stops d
  node {n : Node} : s.node? d = some n → u.node? d = some (turns.foldl Turn.fill n)

/-- What has to be known of the store in which copies of the arguments have been set aside. -/
structure Secluded (m : Store) (d : Handle) (row blocks : List Handle) : Prop where
  disciplined : Disciplined m
  whole : m.Whole d
  args : ∀ a ∈ row, m.Top a ∧ m.Bare a ∧ ¬ m.Reaches a d
  blocks : ∀ b ∈ blocks, m.Bare b ∧ ¬ m.Reaches d b

namespace Secluded

/-- The arguments have no references before any turn. -/
theorem bare_args (h : Secluded m d row blocks) (hp : Prepared m d row contents first s) :
    ∀ a ∈ row, s.Bare a := fun a ha => hp.phase.bare_of_top h.disciplined (h.args a ha)

/-- All blocks are there before any turn. -/
theorem isAlive_block (h : Secluded m d row blocks) (hp : Prepared m d row contents first s)
    {b : Handle} (hb : b ∈ blocks) : s.isAlive b = true := by
  obtain ⟨hbare, hback⟩ := h.blocks b hb
  exact (hp.phase.loosen h.disciplined h.whole).fenced.isAlive_around
    ⟨hbare.isAlive, fun y hy => (Option.some.inj hy) ▸ hback⟩

/-- A block that has its turn has no references. -/
theorem bare_block (h : Secluded m d row blocks)
    (hp : Prepared m d row contents t.first t.before.nodes) (hof : t.Of scope d row)
    (hb : t.block ∈ blocks)
    (hfree : t.first = false → m.Reaches t.block d → t.before.nodes.RefFree d)
    (hu : Unwrapped t.begun.nodes) : t.before.nodes.Bare t.block := by
  obtain ⟨hbare, hback⟩ := h.blocks _ hb
  cases hfirst : t.first with
  | true => exact (hfirst ▸ hp.phase).bare h.disciplined hbare (by simp)
  | false =>
    obtain ⟨u, hclone, hfront⟩ := hof.prepared
    have hus : Unwrapped u := (Steady.evolves_of_ok hfront).unwrapped hu
    obtain ⟨x, hx, -⟩ := hp.aside.disciplined.bears_deepClone hclone hus
    exact (hfirst ▸ hp.phase).bare_later h.disciplined hbare hback hx.whole (hfree hfirst)

/-- A turn, with what is there when it is over. -/
theorem turn (h : Secluded m d row blocks) (hscope : scope.Confined) (hof : t.Of scope d row)
    (hp : Prepared m d row contents t.first t.before.nodes) (hb : t.block ∈ blocks)
    (hfree : t.first = false → m.Reaches t.block d → t.before.nodes.RefFree d)
    (hu : Unwrapped t.after.nodes) :
    (t.Begins contents ∧ t.ended.nodes.isAlive t.copy = true) ∧
      Prepared m d row contents false t.after.nodes ∧
      ∀ {n}, t.before.nodes.node? d = some n → t.after.nodes.node? d = some (t.fill n) := by
  have huended : Unwrapped t.ended.nodes :=
    (hof.evolves_settled.trans hof.evolves_after).unwrapped hu
  have hblock := h.bare_block hp hof hb hfree ((hof.evolves_ended hscope).unwrapped huended)
  have hargs := h.bare_args hp
  have hund := hof.undisturbed hscope hp.aside hblock hargs huended
  obtain ⟨hbegins, haside, -⟩ := hof.taken hund hp.aside hu
  have hphase := (ensures_copyApart hscope t.block row t.first).gives hof.run hu
    ⟨⟨h.disciplined, h.whole⟩, hp.phase, hblock, fun a ha => ⟨(h.args a ha).1, hargs a ha⟩⟩
  exact ⟨⟨hbegins, hund.top.1⟩, ⟨hphase, haside⟩, hof.fills hscope hp.aside hblock hargs hu⟩

end Secluded

/-- The blocks have their turns in order until a signal is left, and each of them fills the node. -/
theorem Turns.filled (h : Turns scope d row first blocks σ turns τ) (hscope : scope.Confined)
    (hm : Secluded m d row blocks) (hp : Prepared m d row contents first σ.nodes)
    (hfree : ∀ t ∈ turns, t.first = false → m.Reaches t.block d → t.before.nodes.RefFree d)
    (hu : Unwrapped τ.nodes) :
    Filled m d row contents first blocks σ.nodes turns τ.nodes := by
  induction h with
  | done => exact ⟨by simpa using hp, by simp, by simp, by simp, Or.inl rfl, id⟩
  -- neither the destination nor a block of the tree is ever gone
  | gone hgone => simp [hp.phase.isAlive hm.whole] at hgone
  | lost hdead => simp [hm.isAlive_block hp List.mem_cons_self] at hdead
  -- the first turn is prepared already, whether or not another one follows
  | @last t rest hof hstops =>
    obtain ⟨hturn, hend, hfills⟩ := hm.turn hscope hof hp (by simp) (hfree t (by simp)) hu
    exact ⟨by simpa using hend, by simpa using hturn, by simp, by simp, Or.inr ⟨t, by simp, hstops⟩,
      hfills⟩
  | @next t rest turns τ hof hgoes hturns ih =>
    -- what comes later frees no slot too often, so it did not up to here
    have hua : Unwrapped t.after.nodes :=
      (hturns.evolves fun t ht => (hturns.of t ht).evolves_ended hscope).unwrapped hu
    obtain ⟨hturn, hend, hfills⟩ := hm.turn hscope hof hp (by simp) (hfree t (by simp)) hua
    obtain ⟨hlater, hall, horder, hquiet, hended, hnode⟩ := ih
      ⟨hm.disciplined, hm.whole, hm.args, fun b hb => hm.blocks b (List.mem_cons_of_mem _ hb)⟩ hend
      (fun t ht => hfree t (List.mem_cons_of_mem _ ht)) hu
    refine ⟨by simpa using hlater, List.forall_mem_cons.2 ⟨hturn, hall⟩, ?_, ?_, ?_,
      fun hn => hnode (hfills hn)⟩
    · simpa using horder
    -- a turn that another one follows has raised no signal
    · cases turns with
      | nil => simp
      | cons t' rest' => exact List.forall_mem_cons.2 ⟨hgoes, hquiet⟩
    · refine hended.imp (fun heq => by rw [List.map_cons, heq]) ?_
      rintro ⟨t', ht', hstops⟩
      refine ⟨t', ?_, hstops⟩
      rw [List.getLast?_cons, Option.mem_def.1 ht']
      rfl

/-- Only the first turn is taken to be the first. -/
theorem Turns.firsts (h : Turns scope d row first blocks σ turns τ) :
    (∀ t ∈ turns.head?, t.first = first) ∧ ∀ t ∈ turns.tail, t.first = false := by
  induction h with
  | done => simp
  | gone _ => simp
  | lost _ _ ih => exact ih
  | last _ _ => simp
  | @next t rest turns τ _ _ _ ih =>
    refine ⟨by simp, fun t' ht' => ?_⟩
    cases turns with
    | nil => simp at ht'
    | cons t₀ rest₀ =>
      obtain ⟨hhead, htail⟩ := ih
      rcases List.mem_cons.1 ht' with rfl | hmem
      · exact hhead _ rfl
      · exact htail _ hmem

/-- Every turn but the first comes behind it. -/
theorem Turns.mem_tail (h : Turns scope d row true blocks σ turns τ) (ht : t ∈ turns)
    (hnot : t.first = false) : t ∈ turns.tail := by
  cases turns with
  | nil => simp at ht
  | cons t₀ rest =>
    rcases List.mem_cons.1 ht with rfl | hmem
    · simp [h.firsts.1 t rfl] at hnot
    · exact hmem

/-- Only the blocks have turns. -/
theorem Turns.blocks_sublist (h : Turns scope d row first blocks σ turns τ) :
    (turns.map Turn.block).Sublist blocks := by
  induction h with
  | done => simp
  | gone _ => simp
  | lost _ _ ih => exact ih.trans (List.sublist_cons_self _ _)
  | last _ _ => simp
  | next _ _ _ ih => exact ih.cons_cons _

-- ---------------------------------------------------------------------------
-- The whole execution
-- ---------------------------------------------------------------------------

/-- Freeing trees of their own changes no node that they do not lead to. -/
theorem node?_removeAll {cs : List Handle} (hd : Disciplined σ.nodes)
    (hdest : σ.nodes.isAlive d = true)
    (hcs : ∀ c ∈ cs, σ.nodes.isAlive c = true → σ.nodes.Top c ∧ ¬ σ.nodes.Reaches c d)
    (hrun : cs.forM Engine.remove σ = .ok () τ) (hu : Unwrapped τ.nodes) :
    τ.nodes.node? d = σ.nodes.node? d := by
  induction cs generalizing σ with
  | nil =>
    injection (show (EStateM.Result.ok () σ : EStateM.Result Halt Session Unit) = .ok () τ from hrun)
      with _ hτ
    rw [hτ]
  | cons c rest ih =>
    obtain ⟨hc, hrest⟩ := List.forall_mem_cons.1 hcs
    replace hrun : rest.forM Engine.remove { σ with nodes := σ.nodes.remove c } = .ok () τ := hrun
    have hu₁ : Unwrapped (σ.nodes.remove c) := (Steady.evolves_of_ok hrun).unwrapped hu
    have hthin := hd.thinned_remove c
    -- one removal: the child is on top and does not lead to the destination
    have hsame : (σ.nodes.remove c).node? d = σ.nodes.node? d := by
      cases hlive : σ.nodes.isAlive c with
      | true => exact hd.node?_remove_unheld (hc hlive).1.2 (hc hlive).2
      | false => simp [Store.remove, hlive]
    have hdest' : (σ.nodes.remove c).isAlive d = true := by rwa [Store.isAlive, hsame]
    -- what is left of the others is on top and still leads elsewhere
    refine (ih (σ := { σ with nodes := σ.nodes.remove c })
      ((Since.refl hd).remove c hu₁).disciplined hdest' (fun x hx hlive => ?_) hrun).trans hsame
    obtain ⟨htop, hfar⟩ := hrest x hx (hthin.alive hlive)
    exact ⟨⟨hlive, fun a ha => htop.2 a (hthin.holds ha hlive)⟩, fun hreach =>
      hfar (hthin.reaches hreach hdest')⟩

/-- What a node has after several blocks. The blocks have had their turns in order, up to the first
that left a signal; the node has the children that the turns have created, one after the other,
and the value of the last one, and none of its old children is left. -/
structure Gathered (d : Handle) (contents : List Shape) (blocks : List Handle) (s : Store)
    (turns : List Turn) (u : Store) : Prop where
  begins : ∀ t ∈ turns, t.Begins contents
  order : turns.map Turn.block <+: blocks
  quiet : ∀ t ∈ turns.dropLast, ¬ t.Stops d
  last : ∃ t, turns.getLast? = some t ∧ (turns.map Turn.block = blocks ∨ t.Stops d) ∧
    ∃ n c, s.node? d = some n ∧ t.ended.nodes.node? t.copy = some c ∧
      u.node? d = some { n with value := c.value, children := turns.flatMap Turn.created }
  freed : ∀ c ∈ s.childList d, u.isAlive c = false

/-- Copies of the children have been set aside, and nothing else has happened. -/
theorem secluded_of_mapM (hs : WellFormed σ.nodes) (hdest : σ.nodes.isAlive d = true)
    (hfree : ∀ c ∈ σ.nodes.childList d, σ.nodes.RefFree c)
    (hblocks : ∀ b ∈ blocks, σ.nodes.Bare b ∧ ¬ σ.nodes.Reaches d b)
    (hr : SetAside d row contents τ.nodes)
    (hrow : (σ.nodes.childList d).mapM Engine.deepClone σ = .ok row τ) (hu : Unwrapped τ.nodes) :
    Secluded τ.nodes d row blocks ∧ Since σ.nodes ({ x | σ.nodes.Top x } ∪ { c | c ∈ row }) τ.nodes := by
  -- no reference is below a child of the destination, so it may be copied without looking outside
  have hcopies : ∀ a ∈ σ.nodes.childList d,
      σ.nodes.isAlive a = true ∧ (Fence.blank σ.nodes).Copies σ.nodes a := fun a ha => by
    have hlive := hs.live.of_mem_childList ha
    have hbare := (hfree a ha).bare (hs.whole hlive)
    exact ⟨hlive, Or.inr ⟨hbare, fun x hx => off_around (beside_none.2 (hbare.whole x hx))⟩⟩
  obtain ⟨⟨-, hin⟩, hheld, hnew⟩ := (ensures_templates (F := Fence.blank σ.nodes) (b := σ.nodes)
    (s := σ.nodes) (T := { x | σ.nodes.Top x }) (σ.nodes.childList d) (E := fun _ => True)).gives hrow
    hu ⟨⟨.refl hs.toDisciplined, hs.fenced_blank⟩, hcopies⟩
  -- what was there stays as it was
  have hfenced : Fenced (Fence.around σ.nodes none) σ.nodes τ.nodes :=
    hs.fenced_sealed.widen hheld.fenced (within_blank (by simp))
  have hkeep : ∀ {a}, ∀ x n, σ.nodes.Reaches a x → σ.nodes.node? x = some n →
      τ.nodes.node? x = some n := fun _ _ _ hn => hfenced.keeps hn
  have hwhole := hs.whole hdest
  exact ⟨⟨hheld.disciplined, hwhole.of_keeps hkeep, fun a ha => ⟨(hr.aside a ha).1,
    hheld.fenced.bare_of_blank (hin a ha).2.1 (hnew a ha).1, (hr.aside a ha).2⟩, fun b hb =>
    ⟨(hblocks b hb).1.of_keeps hkeep, fun hreach => (hblocks b hb).2
      (hwhole.reaches_back hkeep hreach)⟩⟩, hheld.since⟩

/-- A node whose value leads to blocks that are there and that it does not hold. Neither they nor the
children of the node have references. -/
structure LeadsTo (s : Store) (d : Handle) (blocks : List Handle) : Prop where
  wellFormed : WellFormed s
  unreferenced : Unreferenced s d false
  value : ∃ v, s.value d = .ok (some v)
  items : ∃ items, s.resolve d = .ok items ∧ items.map Item.block? = blocks.map some
  outside : ∀ b ∈ blocks, s.isAlive b = true ∧ ¬ s.Reaches d b

/-- The blocks are there with all that they lead to, and nowhere is a reference. -/
theorem LeadsTo.bare (h : LeadsTo s d blocks) : ∀ b ∈ blocks, s.Bare b ∧ ¬ s.Reaches d b := by
  intro b hb
  obtain ⟨items, hresolve, hitems⟩ := h.items
  obtain ⟨item, hmem, hblock⟩ : ∃ item ∈ items, item.block? = some b := by
    have hmem : some b ∈ items.map Item.block? := hitems ▸ List.mem_map_of_mem hb
    simpa using hmem
  exact ⟨(h.unreferenced.blocks rfl hresolve item hmem b hblock).bare (h.wellFormed.whole (h.outside b hb).1),
    (h.outside b hb).2⟩

/-- A node that is executed on copies with the standard keywords takes the results of the blocks that
its value leads to in order. A later block may lead to the node itself only as long as the node has
got no references. -/
theorem execute_gathers (unknown : UnknownEvents) (settings : Settings) (fuel : Nat)
    (h : LeadsTo σ.nodes d blocks) (hne : blocks ≠ [])
    (hrun : execute .copy (standardScope unknown settings fuel) d false σ = .ok () τ)
    (hu : ∀ i, τ.nodes.freedAt i < 2 ^ 32) :
    ∃ contents row σ₀ turns σ₁ σ₂,
      List.Forall₂ (Bears σ.nodes) (σ.nodes.childList d) contents ∧
      (σ.nodes.childList d).mapM Engine.deepClone { σ with depth := σ.depth + 1 } = .ok row σ₀ ∧
      Turns (standardScope unknown settings fuel) d row true blocks σ₀ turns σ₁ ∧
      row.forM Engine.remove σ₁ = .ok () σ₂ ∧ τ = { σ₂ with depth := σ₂.depth - 1 } ∧
      ((∀ t ∈ turns.tail, σ.nodes.Reaches t.block d → t.before.nodes.RefFree d) →
        Gathered d contents blocks σ.nodes turns τ.nodes) := by
  have hscope := confined_standard unknown settings fuel
  have hs := h.wellFormed
  obtain ⟨v, hvalue⟩ := h.value
  obtain ⟨items, hresolve, hitems⟩ := h.items
  obtain ⟨n, hn, -⟩ := value_eq_ok_iff.1 hvalue
  have hdest : σ.nodes.isAlive d = true := isAlive_iff.2 ⟨n, hn⟩
  obtain ⟨x, hx⟩ := hs.exists_bears (hs.whole hdest)
  obtain ⟨contents, hcontents⟩ := hx.children
  obtain ⟨row, σ₀, turns, σ₁, σ₂, hrow, hturns, hremove, hτ⟩ :=
    turns_of_execute hvalue hresolve hitems hrun
  refine ⟨contents, row, σ₀, turns, σ₁, σ₂, hcontents, hrow, hturns, hremove, hτ, fun hlater => ?_⟩
  have hnodes : τ.nodes = σ₂.nodes := by rw [hτ]
  rw [hnodes] at hu ⊢
  have hremoves := Steady.evolves_of_ok hremove
  have hu₁ : Unwrapped σ₁.nodes := hremoves.unwrapped hu
  have hu₀ : Unwrapped σ₀.nodes :=
    (hturns.evolves fun t ht => (hturns.of t ht).evolves_ended hscope).unwrapped hu₁
  obtain ⟨haside, -, hkeeps, -⟩ := setAside_of_mapM (σ := { σ with depth := σ.depth + 1 })
    hs.toDisciplined hdest hcontents hrow hu₀
  obtain ⟨hsecluded, hsince⟩ := secluded_of_mapM (σ := { σ with depth := σ.depth + 1 }) hs hdest
    h.unreferenced.children h.bare haside hrow hu₀
  have hd₀ : σ₀.nodes.node? d = some n := hkeeps hn
  have hfilled := hturns.filled hscope hsecluded ⟨⟨⟨.refl haside.disciplined,
    haside.disciplined.fenced_sealed⟩, by simp⟩, haside⟩ (fun t ht hnot hreach =>
      hlater t (hturns.mem_tail ht hnot)
        (hsince.reaches_back hdest (isAlive_iff.2 ⟨n, hd₀⟩) hreach)) hu₁
  have hd₂ : σ₂.nodes.node? d = σ₁.nodes.node? d := node?_removeAll hfilled.aside.disciplined
    (isAlive_iff.2 ⟨_, hfilled.node hd₀⟩) (fun c hc _ => hfilled.aside.aside c hc) hremove hu
  -- there is a last turn
  obtain ⟨t, hlast, hended⟩ : ∃ t, turns.getLast? = some t ∧
      (turns.map Turn.block = blocks ∨ t.Stops d) := by
    cases hlast : turns.getLast? with
    | none =>
      rcases hfilled.ended with heq | ⟨t, ht, -⟩
      · exact absurd heq.symm (by rwa [List.getLast?_eq_none_iff.1 hlast])
      · simp [hlast] at ht
    | some t => exact ⟨t, rfl, hfilled.ended.imp_right fun ⟨t', ht', hstops⟩ =>
        Option.some.inj (hlast.symm.trans ht') ▸ hstops⟩
  have hmem := List.mem_of_getLast? hlast
  obtain ⟨c, hc⟩ := isAlive_iff.1 (hfilled.turn t hmem).2
  obtain ⟨hfirst, hothers⟩ := hturns.firsts
  refine ⟨fun t ht => (hfilled.turn t ht).1, hfilled.order, hfilled.quiet, ⟨t, hlast, hended, n, c, hn,
    hc, ?_⟩, fun x hx => ?_⟩
  · rw [hd₂, hfilled.node hd₀, Turn.foldl_fill hlast hfirst hothers, Turn.result, hc]
    rfl
  · -- nothing that the node holds after the turns is old
    have hphase : Phase σ₀.nodes d false { x | σ₀.nodes.Top x } σ₁.nodes := by
      have hempty : turns.isEmpty = false := by simp [List.ne_nil_of_mem hmem]
      simpa [hempty] using hfilled.phase
    have hlive : σ₀.nodes.isAlive x = true := by
      obtain ⟨k, hk⟩ := isAlive_iff.1 (hs.live.of_mem_childList hx)
      exact isAlive_iff.2 ⟨k, hkeeps hk⟩
    have hheld : σ₀.nodes.Holds d x :=
      holds_iff_childList.2 (Or.inl (by rwa [childList_eq hd₀, ← childList_eq hn]))
    have hgone := hphase.held.since.not_isAlive_of_renewed haside.disciplined
      (fun k hk halive => (hphase.renewed rfl k hk halive).resolve_left id) (.single hheld) hlive
    exact hremoves.not_isAlive hu (hphase.held.since.evolves.issued hu₁ (Or.inr hlive)) hgone

-- ---------------------------------------------------------------------------
-- Programs at hand
-- ---------------------------------------------------------------------------

/-- What is asked of a value that leads to blocks can be checked on lists of nodes. -/
theorem leadsTo_of_isClosed (below xs : List Handle) {items : List Item} {v : Value}
    (hs : WellFormed s) (hvalue : s.value d = .ok (some v)) (hresolve : s.resolve d = .ok items)
    (hitems : items.map Item.block? = blocks.map some)
    (hlive : (blocks.all fun b => s.isAlive b && xs.contains b && !below.contains b) = true)
    (hbelow : s.isClosed below = true) (hd : d ∈ below) (hclosed : s.isClosed xs = true)
    (hfree : s.isRefFree xs = true) (hchildren : (s.childList d).all xs.contains = true) :
    LeadsTo s d blocks := by
  have hall : ∀ b ∈ blocks, (s.isAlive b = true ∧ b ∈ xs) ∧ b ∉ below := fun b hb => by
    simpa using List.all_eq_true.1 hlive b hb
  refine ⟨hs, unreferenced_of_isClosed xs hclosed hfree hresolve (List.all_eq_true.2 fun i hi => ?_)
    hchildren, ⟨v, hvalue⟩, ⟨items, hresolve, hitems⟩, fun b hb =>
      ⟨(hall b hb).1.1, fun hreach => (hall b hb).2 (mem_of_isClosed hbelow hd hreach)⟩⟩
  obtain ⟨b, hb, heq⟩ := List.mem_map.1 (hitems ▸ List.mem_map_of_mem hi :
    i.block? ∈ blocks.map some)
  simpa [← heq] using (hall b hb).1.2

/-- A node with a child, and two blocks that its value leads to. -/
def twofold : Session :=
  { nodes := Store.ofDocs [.plain "_d" (some (.expr "/../*/_m")) [.plain "_x" none []],
      .plain "_m" none [.plain "return" (some (.int 1)) [.plain "_r1" none []]],
      .plain "_m" none [.plain "return" (some (.int 2)) [.plain "_r2" none []]]] }

/-- The first program leads to two blocks. -/
theorem leadsTo_twofold : LeadsTo twofold.nodes ⟨1, 0⟩ [⟨3, 0⟩, ⟨6, 0⟩] := by
  have hs : WellFormed twofold.nodes := wellFormed_ofDocs (by cbv) (by cbv)
  have hvalue : twofold.nodes.value ⟨1, 0⟩ = .ok (some (.scalar (.expr "/../*/_m"))) := by cbv
  have hresolve : twofold.nodes.resolve ⟨1, 0⟩ = .ok [.node ⟨3, 0⟩, .node ⟨6, 0⟩] := by cbv
  exact leadsTo_of_isClosed [⟨1, 0⟩, ⟨2, 0⟩] (firstHandles 9) hs hvalue hresolve rfl (by cbv) (by cbv)
    (by simp) (by cbv) (by cbv) (by cbv)

set_option maxRecDepth 100000 in
/-- Both blocks have their turns. -/
theorem execute_gathers_twofold : ∃ contents turns τ,
    execute .copy (standardScope .error {} 5) ⟨1, 0⟩ false twofold = .ok () τ ∧
      Gathered ⟨1, 0⟩ contents [⟨3, 0⟩, ⟨6, 0⟩] twofold.nodes turns τ.nodes := by
  have hrun : Outcome.isOkWith (fun _ τ => τ.nodes.isUnwrapped)
      (execute .copy (standardScope .error {} 5) ⟨1, 0⟩ false twofold) = true := by cbv
  obtain ⟨⟨⟩, τ, hrun, hu⟩ := Outcome.of_isOkWith hrun
  obtain ⟨contents, row, σ₀, turns, σ₁, σ₂, -, -, hturns, -, -, hgathered⟩ :=
    execute_gathers .error {} 5 leadsTo_twofold (by simp) hrun (unwrapped_of_isUnwrapped hu)
  -- no block leads to the node
  have hclosed : twofold.nodes.isClosed [⟨3, 0⟩, ⟨4, 0⟩, ⟨5, 0⟩, ⟨6, 0⟩, ⟨7, 0⟩, ⟨8, 0⟩] = true := by
    cbv
  have hfar : ∀ b ∈ [⟨3, 0⟩, ⟨6, 0⟩], ¬ twofold.nodes.Reaches b ⟨1, 0⟩ := fun b hb hreach => by
    have hsub : [⟨3, 0⟩, ⟨6, 0⟩] ⊆ [⟨3, 0⟩, ⟨4, 0⟩, ⟨5, 0⟩, ⟨6, 0⟩, ⟨7, 0⟩, (⟨8, 0⟩ : Handle)] := by decide
    exact absurd (mem_of_isClosed hclosed (hsub hb) hreach) (by decide)
  exact ⟨contents, turns, τ, hrun, hgathered fun t ht hreach => absurd hreach (hfar t.block
    (hturns.blocks_sublist.subset (List.mem_map_of_mem (List.mem_of_mem_tail ht))))⟩

/-- A node with two blocks, in a tree where a signal is pending. -/
def interrupted : Session :=
  { nodes := Store.ofDocs [.plain "_break" none [], .plain "d" (some (.expr "/../**/_m")) [],
      .plain "_x" none [
        .plain "_m" none [.plain "return" (some (.int 1)) [.plain "_r1" none []]],
        .plain "_m" none [.plain "return" (some (.int 2)) [.plain "_r2" none []]]]] }

/-- A node in the second of its blocks. The first gives it a child and a reference to that child;
the second executes what the node points at, and with it the node once more. -/
def revisited : Session :=
  { nodes := Store.ofDocs [.plain "_b" none [
      .plain "for-each" (some (.expr "/../*/_c"))
        [.plain "return" (some (.expr "/./*/_dp?value")) []],
      .plain "eval-mutable" (some (.expr "/.."))
        [.plain "_c" none [.plain "eval-mutable" (some (.expr "/../*/_p")) []]]],
    .plain "_p" none [
      .plain "eval-mutable" (some (.expr "/../*/eval/#")) [],
      .plain "eval" (some (.expr "/../*")) []]] }

/-- The program with a signal leads to two blocks. -/
theorem leadsTo_interrupted : LeadsTo interrupted.nodes ⟨2, 0⟩ [⟨4, 0⟩, ⟨7, 0⟩] := by
  have hs : WellFormed interrupted.nodes := wellFormed_ofDocs (by cbv) (by cbv)
  have hvalue : interrupted.nodes.value ⟨2, 0⟩ = .ok (some (.scalar (.expr "/../**/_m"))) := by cbv
  have hresolve : interrupted.nodes.resolve ⟨2, 0⟩ = .ok [.node ⟨4, 0⟩, .node ⟨7, 0⟩] := by cbv
  exact leadsTo_of_isClosed [⟨2, 0⟩] (firstHandles 10) hs hvalue hresolve rfl (by cbv) (by cbv)
    (by simp) (by cbv) (by cbv) (by cbv)

/-- The program that comes back leads to two blocks. -/
theorem leadsTo_revisited : LeadsTo revisited.nodes ⟨9, 0⟩ [⟨1, 0⟩, ⟨7, 0⟩] := by
  have hs : WellFormed revisited.nodes := wellFormed_ofDocs (by cbv) (by cbv)
  have hvalue : revisited.nodes.value ⟨9, 0⟩ = .ok (some (.scalar (.expr "/../*"))) := by cbv
  have hresolve : revisited.nodes.resolve ⟨9, 0⟩ = .ok [.node ⟨1, 0⟩, .node ⟨7, 0⟩] := by cbv
  exact leadsTo_of_isClosed [⟨9, 0⟩] (firstHandles 10) hs hvalue hresolve rfl (by cbv) (by cbv)
    (by simp) (by cbv) (by cbv) (by cbv)

set_option maxRecDepth 100000 in
/-- Not all blocks have their turns, and not all results stay. In a tree where a signal is pending,
the second block is not executed: the value is 1, where that block gives 2. And a node in its second
block may lose what the first block has given it. -/
theorem execute_gathers_not_all :
    (LeadsTo interrupted.nodes ⟨2, 0⟩ [⟨4, 0⟩, ⟨7, 0⟩] ∧ ∃ τ τ',
      execute .copy (standardScope .error {} 5) ⟨2, 0⟩ false interrupted = .ok () τ ∧
      τ.nodes.value ⟨2, 0⟩ = .ok (some (.scalar (.int 1))) ∧
      executeCopy (standardScope .error {} 5) ⟨7, 0⟩ ⟨2, 0⟩ [] true interrupted = .ok () τ' ∧
      τ'.nodes.value ⟨2, 0⟩ = .ok (some (.scalar (.int 2)))) ∧
    (LeadsTo revisited.nodes ⟨9, 0⟩ [⟨1, 0⟩, ⟨7, 0⟩] ∧ ∃ τ τ',
      execute .copy (standardScope .error {} 8) ⟨9, 0⟩ false revisited = .ok () τ ∧
      τ.nodes.childList ⟨9, 0⟩ = [] ∧
      executeFirst (standardScope .error {} 8) ⟨9, 0⟩ false revisited = .ok () τ' ∧
      τ'.nodes.childList ⟨9, 0⟩ ≠ []) := by
  refine ⟨⟨leadsTo_interrupted, ?_⟩, leadsTo_revisited, ?_⟩
  -- a signal left by the first block keeps the second one from being executed
  · have hall : Outcome.isOkWith (fun _ τ =>
        decide (τ.nodes.value ⟨2, 0⟩ = .ok (some (.scalar (.int 1)))))
        (execute .copy (standardScope .error {} 5) ⟨2, 0⟩ false interrupted) = true := by cbv
    have hsecond : Outcome.isOkWith (fun _ τ =>
        decide (τ.nodes.value ⟨2, 0⟩ = .ok (some (.scalar (.int 2)))))
        (executeCopy (standardScope .error {} 5) ⟨7, 0⟩ ⟨2, 0⟩ [] true interrupted) = true := by cbv
    obtain ⟨⟨⟩, τ, hall, hone⟩ := Outcome.of_isOkWith hall
    obtain ⟨⟨⟩, τ', hsecond, htwo⟩ := Outcome.of_isOkWith hsecond
    exact ⟨τ, τ', hall, of_decide_eq_true hone, hsecond, of_decide_eq_true htwo⟩
  -- a block that executes its destination again empties it
  · have hall : Outcome.isOkWith (fun _ τ => (τ.nodes.childList ⟨9, 0⟩).isEmpty)
        (execute .copy (standardScope .error {} 8) ⟨9, 0⟩ false revisited) = true := by cbv
    have hfirst : Outcome.isOkWith (fun _ τ => !(τ.nodes.childList ⟨9, 0⟩).isEmpty)
        (executeFirst (standardScope .error {} 8) ⟨9, 0⟩ false revisited) = true := by cbv
    obtain ⟨⟨⟩, τ, hall, hnone⟩ := Outcome.of_isOkWith hall
    obtain ⟨⟨⟩, τ', hfirst, hsome⟩ := Outcome.of_isOkWith hfirst
    exact ⟨τ, τ', hall, by simpa using hnone, hfirst, by simpa using hsome⟩

end TreeScript
