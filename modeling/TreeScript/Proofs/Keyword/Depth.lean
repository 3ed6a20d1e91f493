import TreeScript.Proofs.Engine.Depth
import TreeScript.Proofs.Engine.Moment
import TreeScript.Proofs.Engine.Program
import TreeScript.Proofs.Keyword.Interface
import TreeScript.Proofs.Store.Parted

/-!
# TreeScript — the limit of the depth

An execution that would be too deep is refused before anything is executed, and leaves the
nodes as they were. A loop has taken its body out by then; it puts all of it back.

* `takeBody_apply`, `restoreBody_apply` — the body of a loop goes out and comes back;
* `forEach_at_limit`, `Start.execute_at_limit` — what is refused;
* `Entry`, `depth_accounting` — the depth comes back, stays within the limit, and nothing
  begins at the limit.
-/

namespace TreeScript

open Store Engine

variable {h : Handle} {s : Store} {σ : Session} {kept : List Handle}

namespace Keyword

-- ---------------------------------------------------------------------------
-- The body of a loop
-- ---------------------------------------------------------------------------

/-- All children are taken out. -/
theorem takeBody_apply (hl : Linked s) (ht : Parted s h kept σ.nodes) (hnodup : kept.Nodup)
    (hkept : ∀ c ∈ kept, s.parent? c = some h) :
    ∃ t, kept.forM Engine.detach σ = .ok () { σ with nodes := t } ∧ Parted s h [] t := by
  induction kept generalizing σ with
  | nil => exact ⟨σ.nodes, rfl, ht⟩
  | cons c rest ih =>
    obtain ⟨hc, hrest⟩ := List.forall_mem_cons.1 hkept
    have hstep := ht.detach hc (hl.parent_ne hc).symm hnodup
    obtain ⟨t, hrun, ht⟩ := ih (σ := { σ with nodes := σ.nodes.detach c }) hstep
      (List.nodup_cons.1 hnodup).2 hrest
    exact ⟨t, hrun, ht⟩

/-- All children that are out are put back in order. -/
theorem appendAll_apply (rest : List Handle) (hl : Linked s) (hh : s.isAlive h = true)
    (ht : Parted s h kept σ.nodes) (hnodup : (kept ++ rest).Nodup)
    (hrest : ∀ c ∈ rest, s.parent? c = some h) :
    ∃ t, rest.forM (Engine.append h) σ = .ok () { σ with nodes := t } ∧
      Parted s h (kept ++ rest) t := by
  induction rest generalizing σ kept with
  | nil => exact ⟨σ.nodes, rfl, by rwa [List.append_nil]⟩
  | cons c rest ih =>
    obtain ⟨hc, hrest⟩ := List.forall_mem_cons.1 hrest
    have hout : c ∉ kept := fun hmem => (List.nodup_append.1 hnodup).2.2 c hmem c (by simp) rfl
    have hself := (hl.parent_ne hc).symm
    obtain ⟨n, hn⟩ := isAlive_iff.1 ((ht.isAlive h).trans hh)
    have hcount : n.children = kept := (childList_eq hn).symm.trans (ht.childList_self hh)
    have hstep : Engine.append h c σ = .ok () { σ with nodes := σ.nodes.linkLast h c } :=
      append_apply hn (ht.not_wouldCycle hl hc) (hcount ▸ ht.moveBelow hc hout hh)
    have hnext : Parted s h (kept ++ [c]) (σ.nodes.linkLast h c) := ht.linkLast hc hself hh
    obtain ⟨t, hrun, ht⟩ := ih (σ := { σ with nodes := σ.nodes.linkLast h c }) hnext
      (by simpa using hnodup) hrest
    exact ⟨t, (bind_of_ok hstep).trans hrun, by simpa using ht⟩

/-- A body that is out is put back, and all nodes are as they were. -/
theorem restoreBody_apply (hl : Linked s) (hlive : LiveChildren s) (hh : s.isAlive h = true)
    (ht : Parted s h [] σ.nodes) :
    ∃ t, restoreBody h (s.childList h) σ = .ok () { σ with nodes := t } ∧
      ∀ x, t.node? x = s.node? x := by
  have hs := hl.coherent hlive
  have hσ : σ.nodes.isAlive h = true := (ht.isAlive h).trans hh
  obtain ⟨t, hclear, ht⟩ := ht.clear hh
  obtain ⟨u, hrun, hu⟩ := appendAll_apply (σ := { σ with nodes := t }) (s.childList h) hl hh ht
    (hl.nodup_childList h) fun c hc => hs.listed hc
  have hstep : Engine.clear h σ = .ok () { σ with nodes := t } := by
    simp [Engine.clear, Engine.edit, Engine.change, hclear, Except.map]
  refine ⟨u, ?_, hu.node?_eq hs⟩
  rw [restoreBody, isAlive_bind_apply, hσ, if_pos rfl]
  exact (bind_of_ok hstep).trans hrun

-- ---------------------------------------------------------------------------
-- Refusals
-- ---------------------------------------------------------------------------

end Keyword

/-- An execution at the limit is refused. -/
theorem nested_at_limit {α : Type} (settings : Settings) {context : NodeContext}
    (hlimit : settings.maxDepth ≤ σ.depth) (hcontext : σ.nodes.describe h = .ok context)
    (x : Engine α) :
    Engine.nested settings h x σ =
      .error (.failure (.depthExceeded settings.maxDepth context)) σ := by
  rw [nested_apply, if_pos hlimit, Engine.fail, nodes_bind_apply, Store.fail, hcontext]
  rfl

/-- At the limit an execution fails, and nothing has changed. -/
theorem Start.execute_at_limit (start : Start) (scope : Scope) {context : NodeContext}
    (hlimit : scope.settings.maxDepth ≤ σ.depth) (hcontext : σ.nodes.describe h = .ok context) :
    start.execute scope h σ =
      .error (.failure (.depthExceeded scope.settings.maxDepth context)) σ := by
  cases start with
  | run own => exact nested_at_limit _ hlimit hcontext _
  | runInPlace own => exact nested_at_limit _ hlimit hcontext _
  | evaluate =>
    show (Engine.nested scope.settings h _ >>= _) σ = _
    rw [bind_apply, nested_at_limit _ hlimit hcontext]

/-- A loop at the limit is refused, and its body is where it was. -/
theorem Keyword.forEach_at_limit {settings : Settings} {items : List Item}
    (hlimit : settings.maxDepth ≤ σ.depth) (hl : Linked σ.nodes) (hlive : LiveChildren σ.nodes)
    (hitems : σ.nodes.resolve h = .ok items) (hcontext : ∃ c, σ.nodes.describe h = .ok c) :
    ∃ context t, (∀ scope : Scope, scope.settings = settings → forEach scope h σ =
        .error (.failure (.depthExceeded settings.maxDepth context)) { σ with nodes := t }) ∧
      ∀ x, t.node? x = σ.nodes.node? x := by
  have hs := hl.coherent hlive
  have hh : σ.nodes.isAlive h = true := by
    -- only a live node has a value to resolve
    rw [isAlive_iff]
    cases hn : σ.nodes.node? h with
    | some n => exact ⟨n, rfl⟩
    | none =>
      have hvalue : σ.nodes.value h = .error .stale := by
        simp [Store.value, Store.node, hn, Except.map]
      rw [Store.resolve, hvalue] at hitems
      injection hitems
  obtain ⟨n, hn⟩ := isAlive_iff.1 hh
  obtain ⟨t, htake, ht⟩ := Keyword.takeBody_apply hl (.start hs) (hl.nodup_childList h)
    fun c hc => hs.listed hc
  obtain ⟨context, hcontext⟩ := ht.describe (by simp) hcontext
  obtain ⟨u, hrestore, hu⟩ := Keyword.restoreBody_apply (σ := { σ with nodes := t }) hl hlive hh ht
  refine ⟨context, u, fun scope hscope => ?_, hu⟩
  subst hscope
  have hrefused := nested_at_limit (σ := { σ with nodes := t }) scope.settings
    hlimit hcontext (rounds scope h (σ.nodes.childList h) items)
  have hbody : σ.nodes.children h = .ok (σ.nodes.childList h) :=
    children_eq_ok.2 ⟨n, hn, (childList_eq hn).symm⟩
  have hresolve : (liftM (σ.nodes.resolve h) : Engine _) σ = .ok items σ := by
    rw [hitems]
    rfl
  have hchildren : (liftM (σ.nodes.children h) : Engine _) σ = .ok (σ.nodes.childList h) σ := by
    rw [hbody]
    rfl
  rw [forEach, nodes_bind_apply, bind_of_ok hresolve, nodes_bind_apply, bind_of_ok hchildren,
    bind_of_ok htake]
  exact always_of_failure hrefused hrestore

-- ---------------------------------------------------------------------------
-- Depth accounting
-- ---------------------------------------------------------------------------

/-- What begins an execution: one of the ways to execute a node, or a loop. -/
inductive Entry where
  | start (start : Start)
  | loop

namespace Entry

/-- What is executed. -/
def run (scope : Scope) (h : Handle) : Entry → Engine Unit
  | .start s => s.execute scope h
  | .loop => Keyword.forEach scope h

/-- What can be refused as too deep. The failure shows the node, so there is an end to that; and
a loop, which takes its body out first, has something to loop over in a store in order. -/
def Refusable (s : Store) (h : Handle) (entry : Entry) : Prop :=
  (∃ context, s.describe h = .ok context) ∧
    (entry = .loop → Linked s ∧ LiveChildren s ∧ ∃ items, s.resolve h = .ok items)

theorem ofInterface (h : Handle) (entry : Entry) : OfInterface fun scope => entry.run scope h := by
  cases entry with
  | start start =>
    cases start with
    | run own => exact .execute h .copy own
    | runInPlace own => exact .execute h .inPlace own
    | evaluate => exact .evaluate h
  | loop => exact Keyword.ofInterface_forEach h

/-- At the limit nothing is dispatched and the nodes stay as they are. -/
theorem run_at_limit (entry : Entry) (scope : Scope) (hlimit : scope.settings.maxDepth ≤ σ.depth)
    (hready : entry.Refusable σ.nodes h) :
    ∃ context t, (∀ dispatch, entry.run (scope.redirect dispatch) h σ =
        .error (.failure (.depthExceeded scope.settings.maxDepth context))
          { σ with nodes := t }) ∧
      ∀ x, t.node? x = σ.nodes.node? x := by
  obtain ⟨⟨context, hcontext⟩, hloop⟩ := hready
  cases entry with
  | start start =>
    refine ⟨context, σ.nodes, fun dispatch => ?_, fun _ => rfl⟩
    exact start.execute_at_limit (scope.redirect dispatch) hlimit hcontext
  | loop =>
    obtain ⟨hl, hlive, items, hitems⟩ := hloop rfl
    obtain ⟨context, t, hrun, ht⟩ := Keyword.forEach_at_limit hlimit hl hlive hitems
      ⟨context, hcontext⟩
    exact ⟨context, t, fun dispatch => hrun (scope.redirect dispatch) rfl, ht⟩

end Entry

/-- Executions, and all that handlers made of the parts of the engine do, come back to the depth
that they began at, whether they give a result or fail. Within the limit the depth stays within
the limit: no alarm that goes off beyond it is ever raised around a handler. At the limit every
execution is refused: nothing is dispatched, and the nodes are as they were. -/
theorem depth_accounting {r : Registry} (hr : r.All Handler.OfInterface) (settings : Settings)
    (fuel : Nat) :
    (∀ (entry : Entry) (h : Handle), OfInterface fun scope => entry.run scope h) ∧
      (∀ {α : Type} (x : Scope → Engine α), OfInterface x → ∀ σ,
        (∀ τ, (x (r.scope settings fuel)).Returns σ τ → τ.depth = σ.depth) ∧
          (σ.depth ≤ settings.maxDepth → ∀ alarm,
            x ((r.watched settings.maxDepth alarm).scope settings fuel) σ =
              x (r.scope settings fuel) σ)) ∧
      ∀ (entry : Entry) (h : Handle) (σ : Session), σ.depth = settings.maxDepth →
        entry.Refusable σ.nodes h →
        ∃ context t, (∀ dispatch, entry.run ((r.scope settings fuel).redirect dispatch) h σ =
            .error (.failure (.depthExceeded settings.maxDepth context)) { σ with nodes := t }) ∧
          ∀ x, t.node? x = σ.nodes.node? x := by
  refine ⟨fun entry h => entry.ofInterface h, fun x hx σ => ?_, fun entry h σ hdepth hready =>
    entry.run_at_limit (r.scope settings fuel) hdepth.ge hready⟩
  -- with and without the alarm the run is the same, because it never gets above the limit
  have hlevel : ∀ alarm, Level settings.maxDepth (x (r.scope settings fuel))
      (x ((r.watched settings.maxDepth alarm).scope settings fuel)) := fun alarm =>
    hx.level (Registry.level_scope hr settings le_rfl fuel) le_rfl
  refine ⟨fun τ hret => ?_, fun hdepth alarm => ((hlevel alarm).same σ hdepth).symm⟩
  -- a run that is level ends at the depth it began with, whatever the alarm
  have hback := (hlevel (.fault .stale)).back σ
  rcases hret with ⟨a, ha⟩ | ⟨f, hf⟩
  · rw [ha] at hback
    exact hback
  · rw [hf] at hback
    exact hback

/-- A loop over a node, with a body of two. -/
def nestedLoop : List Doc :=
  [.plain "for-each" (some (.expr "/../*/_n")) [.plain "eval" none [], .plain "_a" none []],
    .plain "_n" none []]

set_option maxRecDepth 100000 in
/-- A program with the loop fails where it may not go deeper than its root, with the depth
that it began at; and at that depth the loop is refused with its body in place. -/
theorem depth_accounting_nestedLoop :
    (∃ f τ, evaluate (standardScope .error { maxDepth := 1 } 4) ⟨0, 0⟩
        { nodes := Store.ofDocs nestedLoop } = .error (.failure f) τ ∧ τ.depth = 0) ∧
      ∃ context t, Keyword.forEach (standardScope .error { maxDepth := 1 } 4) ⟨1, 0⟩
          { nodes := Store.ofDocs nestedLoop, depth := 1 } =
            .error (.failure (.depthExceeded 1 context)) { nodes := t, depth := 1 } ∧
        ∀ x, t.node? x = (Store.ofDocs nestedLoop).node? x := by
  have hall : (Registry.standard .error).All Handler.OfInterface :=
    Registry.all_ofList .error Keyword.ofInterface_of_mem_standard
  obtain ⟨hentry, hrun, hlimit⟩ := depth_accounting hall { maxDepth := 1 } 4
  constructor
  · have hfails : Outcome.isFailure (evaluate (standardScope .error { maxDepth := 1 } 4) ⟨0, 0⟩
        { nodes := Store.ofDocs nestedLoop }) = true := by cbv
    obtain ⟨f, τ, hfails, -⟩ := Outcome.of_isFailure hfails
    exact ⟨f, τ, hfails, (hrun _ (hentry (.start .evaluate) ⟨0, 0⟩) _).1 τ (Or.inr ⟨f, hfails⟩)⟩
  -- the refused loop stands one level deep, where the limit of one is reached
  · have hd : Disciplined (Store.ofDocs nestedLoop) :=
      disciplined_ofDocs (unwrapped_of_isUnwrapped (by cbv))
    have hitems : (Store.ofDocs nestedLoop).resolve ⟨1, 0⟩ = .ok [.node ⟨4, 0⟩] := by cbv
    have hcontext : (Store.ofDocs nestedLoop).describe ⟨1, 0⟩ =
        .ok ⟨"for-each", "for-each:x:/../*/_n\n  eval\n  _a"⟩ := by cbv
    obtain ⟨context, t, hrefused, ht⟩ := hlimit .loop ⟨1, 0⟩
      { nodes := Store.ofDocs nestedLoop, depth := 1 } rfl
      ⟨⟨_, hcontext⟩, fun _ => ⟨hd.linked, hd.live, _, hitems⟩⟩
    exact ⟨context, t, hrefused _, ht⟩

end TreeScript
