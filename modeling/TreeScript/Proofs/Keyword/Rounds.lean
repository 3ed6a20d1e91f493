import TreeScript.Proofs.Engine.Coverage
import TreeScript.Proofs.Engine.Deliver
import TreeScript.Proofs.Engine.Graft
import TreeScript.Proofs.Engine.Isolation
import TreeScript.Proofs.Keyword.Depth

/-!
# TreeScript — the rounds of a loop

Each round of a loop begins with the same children: one that holds the item, and copies of the body
as it was when the loop began. The rounds follow the items, one after the other, and a round that
breaks, returns or fails is the last one. This takes a body that nobody touches in between, and a
loop's node that is there whenever a round has ended.

* `Binds`, `itemValue_apply` — what a round sees of its item;
* `Opened`, `prepareRound_apply` — the children of a round;
* `Begins`, `beginRound_apply` — how a round begins;
* `Rounds` — a loop, round by round;
* `Ready`, `Spares`, `rounds_run` — what must not be touched, and a loop where it is not;
* `forEach_follows_items` — the result, and `forEach_loses_items` where more is asked of it.
-/

namespace TreeScript

open Store Engine

namespace Keyword

variable {scope : Scope} {s t u : Store} {h dp c : Handle} {v : Value} {body : List Handle}
  {contents : List Shape} {item : Item} {items rest : List Item} {σ τ begun : Session}

-- ---------------------------------------------------------------------------
-- Items
-- ---------------------------------------------------------------------------

/-- The value under which a round sees its item: a node by reference, a node that a value owns by a
copy with the same content, anything else as it is. -/
inductive Binds (s t : Store) : Item → Value → Prop
  | node {target : Handle} : s.isAlive target = true → Binds s t (.node target) (.ref target)
  | copy {g c : Handle} {x : Shape} : Bears s g x → Bears t c x → s.isAlive c = false →
      Binds s t (.value (.node g)) (.node c)
  | value {v : Value} : v.owned? = none → Binds s t (.value v) v
  | name (text : String) : Binds s t (.name text) (.scalar (.string text))
  | count (n : Nat) : Binds s t (.count n) (.scalar (.int (Int64.ofNat n)))

/-- A later store in which the copy bears its content. -/
theorem Binds.later (hb : Binds s t item v)
    (hkeep : ∀ c x, v.owned? = some c → Bears t c x → Bears u c x) : Binds s u item v := by
  cases hb with
  | node halive => exact .node halive
  | copy hg hc hnew => exact .copy hg (hkeep _ _ rfl hc) hnew
  | value hv => exact .value hv
  | name text => exact .name text
  | count n => exact .count n

/-- A value has been made ready: it owns nothing, or a copy that has come in. -/
def Came (s : Store) (v : Value) (t : Store) : Prop :=
  (t = s ∧ v.owned? = none) ∨ ∃ g c, v = .node c ∧ s.deepClone g = .ok (c, t)

namespace Came

/-- What was there says the same when a value has been made ready. -/
theorem keeps (hv : Came s v t) (hs : Balanced s) {x : Handle} {n : Node}
    (hn : s.node? x = some n) : t.node? x = some n := by
  obtain ⟨rfl, -⟩ | ⟨g, c, -, hclone⟩ := hv
  · exact hn
  · exact (hs.deepClone hclone).keeps hn

/-- A value is made ready by copying at most, so the trees that stood for themselves still do. -/
theorem since (hv : Came s v t) (hs : Disciplined s) (hu : Unwrapped t) :
    Since s { x | t.Top x } t ∧ ∀ x, s.Top x → t.Top x := by
  obtain ⟨rfl, -⟩ | ⟨g, c, -, hclone⟩ := hv
  · exact ⟨.refl hs, fun _ hx => hx⟩
  · have hsince := (Since.refl hs).deepClone hclone hu
    exact ⟨hsince.congr fun x => (hsince.tops x).symm, fun x hx => hsince.top (Or.inl hx)⟩

/-- What the value owns is a new tree. -/
theorem owned (hv : Came s v t) (hs : Disciplined s) (hu : Unwrapped t)
    (hc : v.owned? = some c) : t.Top c ∧ Sprouted s c t := by
  obtain ⟨-, hnone⟩ | ⟨g, c', rfl, hclone⟩ := hv
  · simp [hnone] at hc
  · obtain rfl : c' = c := by simpa [Value.owned?] using hc
    exact ⟨((Since.refl hs).deepClone hclone hu).top (Or.inr rfl),
      hs.balanced.sprouted_deepClone hclone⟩

/-- The body stays aside when a value has been made ready. -/
theorem setAside (hv : Came s v t) (hr : SetAside h body contents s) (hu : Unwrapped t) :
    SetAside h body contents t := by
  obtain ⟨hsince, htops⟩ := hv.since hr.disciplined hu
  refine hr.of_keeps hsince.disciplined (fun c hc => htops c (hr.aside c hc).1) ?_
  intro _ _ _ _ _ hn
  exact hv.keeps hr.disciplined.balanced hn

end Came

/-- What is asked of a store between two rounds: it is in order, the node of the loop is there, and
so are the body, a row of trees of their own with the old contents, and all that values among the
items own. -/
structure Ready (h : Handle) (body : List Handle) (contents : List Shape) (items : List Item)
    (t : Store) : Prop extends SetAside h body contents t where
  alive : t.isAlive h = true
  values : ∀ g, .value (.node g) ∈ items → t.Whole g

/-- A store that is ready for the items is so for those that are left. -/
theorem Ready.tail (hr : Ready h body contents (item :: rest) t) : Ready h body contents rest t :=
  { hr with values := fun g hg => hr.values g (List.mem_cons_of_mem _ hg) }

/-- The item of a round is a node that is gone, or it can be seen. -/
theorem itemValue_apply (hr : Ready h body contents items σ.nodes) (hitem : item ∈ items) :
    (∃ target, item = .node target ∧ σ.nodes.isAlive target = false ∧
        itemValue item σ = .ok none σ) ∨
      ∃ v t, itemValue item σ = .ok (some v) { σ with nodes := t } ∧ Came σ.nodes v t ∧
        Binds σ.nodes t item v := by
  cases item with
  -- a node is handed over as a reference, unless a round before removed it
  | node target =>
    have hrun : itemValue (.node target) σ =
        .ok (if σ.nodes.isAlive target = true then some (.ref target) else none) σ := by
      rw [itemValue, isAlive_bind_apply]
      split
      next => rfl
      next => rfl
    cases htarget : σ.nodes.isAlive target with
    | true =>
      exact Or.inr ⟨_, σ.nodes, by rw [hrun, htarget]; rfl, Or.inl ⟨rfl, rfl⟩, .node htarget⟩
    | false => exact Or.inl ⟨target, rfl, htarget, by rw [hrun, htarget]; rfl⟩
  | value v =>
    cases v with
    | node g =>
      -- a detached value is cloned, so that every round has its own
      have hg := hr.values g hitem
      obtain ⟨x, hx⟩ := hr.disciplined.exists_bears hg
      have hclone := hx.deepClone hr.disciplined.balanced
      have hcopy := hr.disciplined.balanced.bears_plant x
      have hnew := (hr.disciplined.balanced.sprouted_plant x).fresh_root
      refine Or.inr ⟨_, _, ?_, Or.inr ⟨g, _, rfl, hclone⟩, .copy hx hcopy hnew.1⟩
      have hrun : Engine.deepClone g σ =
          .ok (σ.nodes.plant x).1 { σ with nodes := (σ.nodes.plant x).2 } := by
        rw [Engine.deepClone, Engine.change, hclone]
      show (ownValue (.node g) >>= fun v => pure (some v)) σ = _
      rw [ownValue, bind_assoc, isAlive_bind_apply, if_pos (hg g (.refl _ _)), bind_assoc,
        bind_of_ok hrun]
      rfl
    -- everything else is a plain value, and the store stays
    | scalar x => exact Or.inr ⟨_, σ.nodes, rfl, Or.inl ⟨rfl, rfl⟩, .value rfl⟩
    | ref x => exact Or.inr ⟨_, σ.nodes, rfl, Or.inl ⟨rfl, rfl⟩, .value rfl⟩
  | name text => exact Or.inr ⟨_, σ.nodes, rfl, Or.inl ⟨rfl, rfl⟩, .name text⟩
  | count n => exact Or.inr ⟨_, σ.nodes, rfl, Or.inl ⟨rfl, rfl⟩, .count n⟩

-- ---------------------------------------------------------------------------
-- The children of a round
-- ---------------------------------------------------------------------------

/-- The old children of a node are gone, and it has one that holds a value. -/
structure Opened (t : Store) (h : Handle) (v : Value) (dp : Handle) (u : Store) : Prop where
  evolves : Evolves t u
  disciplined : Disciplined u
  target {n : Node} : t.node? h = some n → u.node? h = some { n with children := [dp] }
  child : u.node? dp = some { name := "_dp", value := some v, parent := some h }
  ne : dp ≠ h
  keeps {x : Handle} {n : Node} : t.node? x = some n → x ≠ h →
    (∀ k ∈ t.childList h, ¬ t.Reaches k x) → u.node? x = some n
  tops {x : Handle} : t.Top x → v.owned? ≠ some x → u.Top x

/-- A tree of its own keeps its content. -/
theorem Opened.bears {x : Shape} (ho : Opened t h v dp u) (ht : Disciplined t) (hc : t.Top c)
    (hfar : ¬ t.Reaches c h) (hx : Bears t c x) : Bears u c x ∧ ¬ u.Reaches c h := by
  have hkeep : ∀ y n, t.Reaches c y → t.node? y = some n → u.node? y = some n := fun y n hy hn =>
    ho.keeps hn (fun heq => hfar (heq ▸ hy)) fun k hk =>
      ht.not_reaches_of_top hc hfar (holds_iff_childList.2 (Or.inl hk)) (hx.whole y hy) hy
  exact ⟨hx.of_keeps hkeep, fun hreach => hfar (hx.whole.reaches_back hkeep hreach)⟩

/-- So do all trees of a row that the value does not own. -/
theorem Opened.setAside (ho : Opened t h v dp u) (hr : SetAside h body contents t)
    (hv : ∀ c ∈ body, v.owned? ≠ some c) : SetAside h body contents u := by
  refine hr.of_keeps ho.disciplined (fun c hc => ?_) fun c hc y n hy hn => ?_
  · exact ho.tops (hr.aside c hc).1 (hv c hc)
  · refine ho.keeps hn (fun heq => (hr.aside c hc).2 (heq ▸ hy)) fun k hk => ?_
    exact hr.not_reaches_of_holds (holds_iff_childList.2 (Or.inl hk)) hc hy

/-- A node can always be cleared and be given a value to show. -/
theorem open_apply (hs : Since s { x | t.Top x } t) (hh : t.isAlive h = true)
    (hown : ∀ c, v.owned? = some c → t.Top c ∧ ¬ t.Reaches c h ∧ s.isAlive c = false) :
    ∃ dp u, (Engine.clear h >>= fun _ => Engine.add h "_dp" (some v)) { σ with nodes := t } =
        .ok dp { σ with nodes := u } ∧ (Unwrapped u → Opened t h v dp u) := by
  have hd := hs.disciplined
  obtain ⟨t', hclear⟩ := hd.clear_isOk hh
  have hcleared : TreeScript.Cleared t h h true t' := hd.cleared hclear
  have hh' := hd.isAlive_clear_self hclear
  have hbalanced := (Evolves.clear hclear).balanced hd.balanced
  -- what the item owns is in nobody's list, so the argument may take it
  have hroot : ∀ c, (some v).bind Value.owned? = some c → t'.parent? c = none := fun c hc =>
    (hd.thinned_clear hclear).parent ((hown c hc).1.parent? hd.linked)
  have hview := hbalanced.node?_create "_dp" hroot
  -- the argument is a fresh node, hence not the `for-each` itself
  have hnew : h ≠ (t'.create "_dp" (some v)).1 := by
    rintro heq
    have hfresh := isAlive_create_fst hbalanced "_dp" (some v)
    rw [← heq, hh'] at hfresh
    simp at hfresh
  obtain ⟨n', hn'⟩ := isAlive_iff.1 hh'
  have hcreated : (t'.create "_dp" (some v)).2.node? h = some n' := by rw [hview, if_neg hnew, hn']
  have hadd : t'.add h "_dp" (some v) = .ok ((t'.create "_dp" (some v)).1,
      (t'.create "_dp" (some v)).2.linkLast h (t'.create "_dp" (some v)).1) := by
    simp [Store.add, hh', isAlive_iff.2 ⟨n', hcreated⟩]
  have hlast := node?_linkLast hcreated hnew
  refine ⟨(t'.create "_dp" (some v)).1,
    (t'.create "_dp" (some v)).2.linkLast h (t'.create "_dp" (some v)).1, ?_, fun hu => ?_⟩
  · have hrun : Engine.clear h { σ with nodes := t } = .ok () { σ with nodes := t' } := by
      simp [Engine.clear, Engine.edit, Engine.change, hclear, Except.map]
    rw [bind_of_ok hrun, Engine.add, Engine.change, hadd]
  -- since the body was taken out, only the target was emptied and the argument was added
  · have hevolves := Evolves.add hadd
    have hsince := (hs.clear hclear (hevolves.unwrapped hu)).add hadd
      (fun c hc => Or.inl ⟨(hown c hc).1, (hown c hc).2.2⟩)
      (fun c hc hreach => (hown c hc).2.1 ((hd.thinned_clear hclear).reaches hreach hh')) hu
    refine ⟨(Evolves.clear hclear).trans hevolves, hsince.disciplined, fun hn => ?_, ?_, hnew.symm,
      fun {x n} hn hx hfar => ?_, fun hx hne => hsince.top ⟨hx, hne⟩⟩
    · obtain rfl := Option.some.inj ((hcleared.target hn).symm.trans hn')
      rw [hlast, hcreated]
      simp [hnew]
    · rw [hlast, hview, if_pos rfl]
      simp [hnew.symm]
    -- a node far from the target is neither the fresh one nor one that was cleared
    · have hx' : x ≠ (t'.create "_dp" (some v)).1 := by
        rintro rfl
        have hfresh := isAlive_create_fst hbalanced "_dp" (some v)
        rw [isAlive_iff.2 ⟨n, (hcleared.kept hx fun _ => hfar).trans hn⟩] at hfresh
        simp at hfresh
      rw [hlast, hview, if_neg hx', hcleared.kept hx fun _ => hfar, hn]
      simp [hx, hx']

/-- Preparing a round never fails. -/
theorem prepareRound_apply (hs : Since s { x | t.Top x } t) (hh : t.isAlive h = true)
    (hown : ∀ c, v.owned? = some c → t.Top c ∧ ¬ t.Reaches c h ∧ s.isAlive c = false)
    (hr : SetAside h body contents t) (hv : ∀ c ∈ body, v.owned? ≠ some c)
    (hu : Unwrapped ((prepareRound h body v).after { σ with nodes := t })) :
    ∃ dp m clones u, prepareRound h body v { σ with nodes := t } = .ok () { σ with nodes := u } ∧
      Opened t h v dp m ∧ Grafted m h (· ++ clones) clones contents u ∧
      SetAside h body contents u := by
  obtain ⟨dp, m, hrun, hopened⟩ := open_apply (σ := σ) hs hh hown
  have hstep : prepareRound h body v { σ with nodes := t } =
      cloneBehind h body { σ with nodes := m } := by
    rw [prepareRound, ← bind_assoc, bind_of_ok hrun]
  rw [Engine.after, hstep] at hu
  have hevolves := (ensures_cloneBehind (F := Fence.wide) (b := m) (s := m) (T := ∅) h body
    (E := fun _ => True)).evolves { σ with nodes := m }
  have hopen := hopened (hevolves.unwrapped hu)
  have hr' := hopen.setAside hr hv
  obtain ⟨n, hn⟩ := isAlive_iff.1 hh
  obtain ⟨clones, u, hmore, hgraft⟩ := cloneBehind_apply (σ := { σ with nodes := m })
    hopen.disciplined (isAlive_iff.2 ⟨_, hopen.target hn⟩) hr'.bears (fun c hc => (hr'.aside c hc).2)
    hu
  exact ⟨dp, m, clones, u, by rw [hstep, hmore], hopen, hgraft, hgraft.setAside hr'⟩

-- ---------------------------------------------------------------------------
-- The beginning of a round
-- ---------------------------------------------------------------------------

/-- A round up to the execution, unless its item is gone. -/
def beginRound (h : Handle) (body : List Handle) (item : Item) : Engine Bool := do
  match ← itemValue item with
  | none => return false
  | some current =>
    prepareRound h body current
    return true

/-- How a round begins: nothing has changed but the nodes, and the children of the loop's node are
one that holds the item and new nodes with the contents of the body. -/
structure Begins (h : Handle) (contents : List Shape) (item : Item) (σ begun : Session) : Prop where
  session : begun = { σ with nodes := begun.nodes }
  children : ∃ n dp v clones, σ.nodes.node? h = some n ∧
    begun.nodes.node? h = some { n with children := dp :: clones } ∧
    begun.nodes.node? dp = some { name := "_dp", value := some v, parent := some h } ∧
    Binds σ.nodes begun.nodes item v ∧ List.Forall₂ (Bears begun.nodes) clones contents ∧
    ∀ c ∈ clones, ∀ y, begun.nodes.Reaches c y → Fresh σ.nodes begun.nodes y

/-- Beginning a round never fails. Where no item is an owned node, the store is ready for the next
round at once. -/
theorem beginRound_apply (hr : Ready h body contents items σ.nodes) (hitem : item ∈ items)
    (hu : Unwrapped ((beginRound h body item).after σ)) :
    (∃ target, item = .node target ∧ σ.nodes.isAlive target = false ∧
        beginRound h body item σ = .ok false σ) ∨
      ∃ begun, beginRound h body item σ = .ok true begun ∧ Begins h contents item σ begun ∧
        ((∀ g, .value (.node g) ∉ items) → Ready h body contents items begun.nodes) := by
  rcases itemValue_apply hr hitem with ⟨target, rfl, hdead, hrun⟩ | ⟨v, t, hrun, hcame, hbinds⟩
  · exact Or.inl ⟨target, rfl, hdead, by rw [beginRound, bind_of_ok hrun]; rfl⟩
  · have hd := hr.disciplined
    have hstep : beginRound h body item σ =
        (prepareRound h body v >>= fun _ => pure true) { σ with nodes := t } := by
      rw [beginRound, bind_of_ok hrun]
    -- the capacity that is left after the round is that after preparing it
    have hafter : (beginRound h body item).after σ =
        (prepareRound h body v).after { σ with nodes := t } := by
      rw [Engine.after, hstep, bind_apply, Engine.after]
      cases prepareRound h body v { σ with nodes := t } <;> rfl
    rw [hafter] at hu
    have hevolves := (ensures_prepareRound (F := Fence.wide) (b := t) (s := t) (T := ∅) h body v
      (E := fun _ => True)).evolves { σ with nodes := t }
    have hut : Unwrapped t := hevolves.unwrapped hu
    obtain ⟨hsince, -⟩ := hcame.since hd hut
    obtain ⟨n, hn⟩ := isAlive_iff.1 hr.alive
    have hnt : t.node? h = some n := hcame.keeps hd.balanced hn
    -- what the value owns is new, on top and not above the `for-each`
    have hown : ∀ c, v.owned? = some c → t.Top c ∧ ¬ t.Reaches c h ∧ σ.nodes.isAlive c = false :=
      fun c hc => ⟨(hcame.owned hd hut hc).1, (hcame.owned hd hut hc).2.not_reaches hr.alive,
        (hcame.owned hd hut hc).2.fresh_root.1⟩
    have hv : ∀ c ∈ body, v.owned? ≠ some c := fun c hc hvc => by
      have hdead := (hown c hvc).2.2
      simp [(hr.aside c hc).1.1] at hdead
    obtain ⟨dp, m, clones, u, hprepare, hopen, hgraft, hside⟩ := prepareRound_apply (σ := σ) hsince
      (isAlive_iff.2 ⟨n, hnt⟩) hown (hcame.setAside hr.toSetAside hut) hv hu
    have hu' : Unwrapped u := by rwa [Engine.after, hprepare] at hu
    -- under the `for-each` stand the argument and behind it the clones
    have htarget : u.node? h = some { n with children := dp :: clones } := by
      simpa using hgraft.target (hopen.target hnt)
    refine Or.inr ⟨{ σ with nodes := u }, by rw [hstep, bind_of_ok hprepare]; rfl, ⟨rfl, n, dp, v,
      clones, hn, htarget, hgraft.keeps hopen.child hopen.ne, hbinds.later fun c x hc hx => ?_,
      hgraft.bears, fun c hc y hy => ?_⟩, fun hplain => ⟨hside, isAlive_iff.2 ⟨_, htarget⟩,
        fun g hg => absurd hg (hplain g)⟩⟩
    · obtain ⟨htop, hfar, -⟩ := hown c hc
      obtain ⟨hbears, hfar⟩ := hopen.bears hsince.disciplined htop hfar hx
      exact (List.forall₂_cons.1 (hgraft.bears_of_not_reaches (.cons hbears .nil)
        (by simpa using hfar))).1
    · -- a handle that was in use before is not given out again
      have hfresh := hgraft.new c hc y hy
      exact ⟨(hsince.evolves.trans hopen.evolves).not_isAlive_of_fresh hgraft.evolves hu' hfresh,
        hfresh.2⟩

-- ---------------------------------------------------------------------------
-- A loop, round by round
-- ---------------------------------------------------------------------------

/-- What is done about the signal of a round: a `break` or a `continue` is taken away. -/
def endSignal (h : Handle) (c : Control) : Engine Unit := do
  if c = .break ∨ c = .continue then
    let _ ← Engine.change fun s => s.clearSignal h

/-- The signal of a round is dealt with, and the loop goes on unless it was one that ends it. -/
theorem endRound_eq (scope : Scope) (h : Handle) (body : List Handle) (rest : List Item)
    (c : Control) : endRound scope h body rest c = endSignal h c >>= fun _ =>
      if c = .none ∨ c = .continue then rounds scope h body rest else pure () := by
  cases c <;> simp [endRound, endSignal]

/-- The rounds of a loop over some items, and what comes of them. An item that is a freed node is
passed over; each other one has a round, unless one before it was the last. -/
inductive Rounds (scope : Scope) (h : Handle) (contents : List Shape) :
    List Item → Session → EStateM.Result Halt Session Unit → Prop
  | done {σ : Session} : Rounds scope h contents [] σ (.ok () σ)
  | skips {target : Handle} {rest : List Item} {σ : Session}
      {r : EStateM.Result Halt Session Unit} : σ.nodes.isAlive target = false →
      Rounds scope h contents rest σ r → Rounds scope h contents (.node target :: rest) σ r
  | fails {item : Item} {rest : List Item} {σ begun τ : Session} {e : Halt} :
      Begins h contents item σ begun → executeAll scope h begun = .error e τ →
      Rounds scope h contents (item :: rest) σ (.error e τ)
  | stops {item : Item} {rest : List Item} {σ begun τ τ' : Session} {c : Control} :
      Begins h contents item σ begun → executeAll scope h begun = .ok c τ →
      c = .break ∨ c = .return → endSignal h c τ = .ok () τ' →
      Rounds scope h contents (item :: rest) σ (.ok () τ')
  | goesOn {item : Item} {rest : List Item} {σ begun τ τ' : Session} {c : Control}
      {r : EStateM.Result Halt Session Unit} :
      Begins h contents item σ begun → executeAll scope h begun = .ok c τ →
      c = .none ∨ c = .continue → endSignal h c τ = .ok () τ' → Rounds scope h contents rest τ' r →
      Rounds scope h contents (item :: rest) σ r

/-- Whatever a loop executes leaves a store that is ready for the next round, and so does taking a
`continue` away; and no slot is freed so often that handles come back. -/
def Spares (scope : Scope) (h : Handle) (body : List Handle) (contents : List Shape) :
    List Item → Session → Prop
  | [], _ => True
  | item :: rest, σ =>
    Unwrapped ((beginRound h body item).after σ) ∧
    (beginRound h body item σ = .ok false σ → Spares scope h body contents rest σ) ∧
    ∀ begun c τ, beginRound h body item σ = .ok true begun → executeAll scope h begun = .ok c τ →
      Ready h body contents rest τ.nodes ∧ ∀ τ', (c = .none ∨ c = .continue) →
        endSignal h c τ = .ok () τ' →
          Ready h body contents rest τ'.nodes ∧ Spares scope h body contents rest τ'

theorem endSignal_apply (hlive : LiveChildren τ.nodes) (h : Handle) (c : Control) :
    ∃ τ', endSignal h c τ = .ok () τ' := by
  rw [endSignal]
  split
  next =>
    cases hfront : τ.nodes.frontOf? h with
    | none => exact ⟨τ, by simp [bind_apply, Engine.change, Store.clearSignal, hfront]; rfl⟩
    | some first =>
      obtain ⟨r, -, hfirst⟩ := Option.bind_eq_some_iff.1 hfront
      obtain ⟨n, hn⟩ := isAlive_iff.1 (hlive.of_mem_childList (List.mem_of_head? hfirst))
      have hname : τ.nodes.name first = .ok n.name := by
        simp [Store.name, Store.node, hn, Except.map]
      exact ⟨_, by
        simp only [bind_apply, Engine.change, Store.clearSignal, hfront, hname]
        rfl⟩
  next => exact ⟨τ, rfl⟩

/-- A loop runs round by round as long as what it executes spares its node and its body. -/
theorem rounds_run (hr : Ready h body contents items σ.nodes)
    (hs : Spares scope h body contents items σ) :
    Rounds scope h contents items σ (rounds scope h body items σ) := by
  induction items generalizing σ with
  | nil => exact .done
  | cons item rest ih =>
    obtain ⟨hu, hskip, hround⟩ := hs
    -- one round first, then the others in the store it leaves
    have hrun : rounds scope h body (item :: rest) σ = (beginRound h body item >>= fun begun =>
        if begun = true then executeAll scope h >>= endRound scope h body rest
        else rounds scope h body rest) σ := by
      rw [rounds_cons, isAlive_bind_apply, if_pos hr.alive, beginRound, bind_assoc]
      refine congrFun (bind_congr fun current => ?_) σ
      cases current with
      | none => rfl
      | some current =>
        show _ = (prepareRound h body current >>= fun _ => pure true) >>= _
        rw [bind_assoc]
        rfl
    rcases beginRound_apply hr (by simp) hu with ⟨target, rfl, hdead, hbegin⟩ |
      ⟨begun, hbegin, hb, -⟩
    -- the item is gone
    · rw [hrun, bind_of_ok hbegin, if_neg (by simp)]
      exact .skips hdead (ih hr.tail (hskip hbegin))
    · rw [hrun, bind_of_ok hbegin, if_pos rfl]
      -- the item is there, and the body runs
      cases hexecute : executeAll scope h begun with
      | error e τ =>
        rw [bind_apply, hexecute]
        exact .fails hb hexecute
      | ok c τ =>
        obtain ⟨hready, hnext⟩ := hround begun c τ hbegin hexecute
        obtain ⟨τ', hsignal⟩ := endSignal_apply hready.disciplined.live h c
        rw [bind_of_ok hexecute, endRound_eq, bind_of_ok hsignal]
        split
        next hon =>
          obtain ⟨hready', hspares⟩ := hnext τ' hon hsignal
          exact .goesOn hb hexecute hon hsignal (ih hready' hspares)
        next hoff =>
          refine .stops hb hexecute ?_ hsignal
          cases c <;> simp at hoff ⊢

-- ---------------------------------------------------------------------------
-- The body is taken out
-- ---------------------------------------------------------------------------

/-- The session in which the rounds of a loop begin: its body is out. -/
def opened (h : Handle) (σ : Session) : Session :=
  { σ with nodes := (σ.nodes.childList h).foldl Store.detach σ.nodes, depth := σ.depth + 1 }

theorem detachAll_apply (cs : List Handle) (σ : Session) :
    cs.forM Engine.detach σ = .ok () { σ with nodes := cs.foldl Store.detach σ.nodes } := by
  induction cs generalizing σ with
  | nil => rfl
  | cons c rest ih => exact ih { σ with nodes := σ.nodes.detach c }

/-- Taking nodes from their parents uses up no slot. -/
theorem unwrapped_detachAll (hu : Unwrapped s) (cs : List Handle) :
    Unwrapped (cs.foldl Store.detach s) := by
  induction cs generalizing s with
  | nil => exact hu
  | cons c rest ih =>
    refine ih fun i => ?_
    unfold Store.detach
    split
    next => exact hu i
    next => simpa [freedAt_modify] using hu i

/-- An owned node among the values that an expression gives is owned by somebody. -/
theorem owns_of_evaluate {e : PathExpr} {g : Handle} (heval : e.evaluate s h = .ok items)
    (hg : .value (.node g) ∈ items) : ∃ o, s.Owns o g := by
  unfold PathExpr.evaluate at heval
  obtain ⟨found, -, heval⟩ := bind_eq_ok_iff.1 heval
  split at heval
  next =>
    obtain rfl := Except.ok.inj heval
    simp at hg
  next =>
    obtain ⟨values, hvalues, heval⟩ := bind_eq_ok_iff.1 heval
    obtain rfl := Except.ok.inj heval
    obtain ⟨v, hv, hvg⟩ := List.mem_map.1 hg
    obtain rfl : v = .node g := by simpa using hvg
    obtain ⟨v', hv', hvv⟩ := List.mem_filterMap.1 hv
    obtain ⟨o, -, hvalue⟩ := mem_of_mapM_eq_ok hvalues hv'
    obtain ⟨n, hn, rfl⟩ := value_eq_ok_iff.1 hvalue
    exact ⟨o, owns_iff.2 ⟨n, hn, by rw [Node.owned?, show n.value = some (.node g) from hvv]; rfl⟩⟩
  next =>
    obtain ⟨names, -, heval⟩ := bind_eq_ok_iff.1 heval
    obtain rfl := Except.ok.inj heval
    simp at hg
  next =>
    obtain rfl := Except.ok.inj heval
    simp at hg

/-- An owned node among the items is owned by somebody. -/
theorem owns_of_resolve {g : Handle} (hitems : s.resolve h = .ok items)
    (hg : .value (.node g) ∈ items) : ∃ o, s.Owns o g := by
  unfold Store.resolve at hitems
  obtain ⟨v, -, hitems⟩ := bind_eq_ok_iff.1 hitems
  split at hitems
  next =>
    obtain rfl := Except.ok.inj hitems
    simp at hg
  next text =>
    split at hitems
    next => exact absurd hitems (Store.fail_ne_ok _ _ _ _)
    next => exact owns_of_evaluate (ofFault_eq_ok_iff.1 hitems) hg
  next =>
    obtain rfl := Except.ok.inj hitems
    simp at hg
  next =>
    obtain rfl := Except.ok.inj hitems
    simp at hg
  next v _ hnode _ =>
    obtain rfl := Except.ok.inj hitems
    obtain rfl : Value.node g = v := by simpa using hg
    exact absurd rfl (hnode g)

/-- A store is ready for the first round when the body has been taken out. -/
theorem ready_opened (hs : WellFormed σ.nodes) (hu : Unwrapped σ.nodes)
    (hh : σ.nodes.isAlive h = true) (hitems : σ.nodes.resolve h = .ok items)
    (hbody : List.Forall₂ (Bears σ.nodes) (σ.nodes.childList h) contents) :
    Ready h (σ.nodes.childList h) contents items (opened h σ).nodes := by
  have hcoherent := hs.linked.coherent hs.live
  obtain ⟨t, hrun, hparted⟩ := takeBody_apply hs.linked (.start hcoherent)
    (hs.linked.nodup_childList h) fun c hc => hcoherent.listed hc
  rw [detachAll_apply] at hrun
  injection hrun with _ hsession
  have ht : (σ.nodes.childList h).foldl Store.detach σ.nodes = t := congrArg Session.nodes hsession
  -- taking the body out gives back each child on top and keeps everything else
  have hheld := (ensures_takeBody (F := Fence.wide) (b := σ.nodes) (m := σ.nodes)
    (T := { x | σ.nodes.Top x }) h (σ.nodes.childList h) (E := fun _ => True)).gives
    (detachAll_apply _ σ) (unwrapped_detachAll hu _) ⟨⟨Fence.inside_wide h, hs.toDisciplined,
      hs.linked.nodup_childList h, fun c hc => hs.childOf_of_mem hc, fun c hc =>
        ⟨fun htop => htop.2 h (holds_iff_childList.2 (Or.inl hc)), Fence.inside_wide c⟩⟩, rfl,
      hs.held⟩
  replace hheld : Held _ _ _ _ ((σ.nodes.childList h).foldl Store.detach σ.nodes) := hheld.2
  show Ready h (σ.nodes.childList h) contents items
    ((σ.nodes.childList h).foldl Store.detach σ.nodes)
  rw [ht] at hheld ⊢
  -- a child never leads back to the node it was listed in
  have hback : ∀ c ∈ σ.nodes.childList h, ¬ σ.nodes.Reaches c h := fun c hc =>
    hs.not_reaches_holder (holds_iff_childList.2 (Or.inl hc))
  have hless : ∀ a b, t.Holds a b → σ.nodes.Holds a b := fun _ _ => hparted.holds (by simp)
  refine ⟨⟨hheld.disciplined, fun c hc => ⟨hheld.since.top (Or.inr hc),
    fun hreach => hback c hc (hreach.mono hless)⟩,
    forall₂_bears_keep (fun c hc y hy => hparted.seen_eq fun heq => hback c hc (heq ▸ hy)) hbody⟩,
    (hparted.isAlive h).trans hh, fun g hg y hy => ?_⟩
  -- an item is owned by some node of the source, so what is below it is alive
  obtain ⟨o, ho⟩ := owns_of_resolve hitems hg
  rw [hparted.isAlive]
  exact hs.whole (hs.owned ho) y (hy.mono hless)

-- ---------------------------------------------------------------------------
-- Loops that follow their items
-- ---------------------------------------------------------------------------

/-- A loop has a round for each of its items, in their order. The children of its node are then one
that holds the item and new nodes with the contents of the body, whatever was done to those of the
rounds before. It goes on after a round that ends without signal or with `continue`. The body is put
back whatever has come of the rounds. -/
theorem forEach_follows_items (scope : Scope) (hs : WellFormed σ.nodes)
    (hh : σ.nodes.isAlive h = true) (hitems : σ.nodes.resolve h = .ok items)
    (hdepth : σ.depth < scope.settings.maxDepth) (hu : ∀ i, σ.nodes.freedAt i < 2 ^ 32) :
    ∃ contents, List.Forall₂ (Bears σ.nodes) (σ.nodes.childList h) contents ∧
      (Spares scope h (σ.nodes.childList h) contents items (opened h σ) →
        ∃ r, Rounds scope h contents items (opened h σ) r ∧
          forEach scope h σ =
            Engine.always (fun _ => oneUp r) (restoreBody h (σ.nodes.childList h)) σ) := by
  obtain ⟨n, hn⟩ := isAlive_iff.1 hh
  have hwhole := hs.whole hh
  obtain ⟨x, hx⟩ := hs.exists_bears hwhole
  obtain ⟨contents, hcontents⟩ := hx.children
  refine ⟨contents, hcontents, fun hspares =>
    ⟨_, rounds_run (ready_opened hs hu hh hitems hcontents) hspares, ?_⟩⟩
  -- the items and the body are read before anything is taken out
  have hresolve : (liftM (σ.nodes.resolve h) : Engine _) σ = .ok items σ := by
    rw [hitems]
    rfl
  have hbody : (liftM (σ.nodes.children h) : Engine _) σ = .ok (σ.nodes.childList h) σ := by
    rw [children_eq_ok.2 ⟨n, hn, (childList_eq hn).symm⟩]
    rfl
  rw [forEach, nodes_bind_apply, bind_of_ok hresolve, nodes_bind_apply, bind_of_ok hbody,
    bind_of_ok (detachAll_apply _ σ)]
  refine always_congr ?_ _
  rw [nested_apply, if_neg (Nat.not_le.2 hdepth)]
  rfl

-- ---------------------------------------------------------------------------
-- Handlers that spare a loop
-- ---------------------------------------------------------------------------

/-- No slot is used up in these rounds, and none of them ends with `continue`. -/
def steadily (scope : Scope) (h : Handle) (body : List Handle) : List Item → Session → Bool
  | [], _ => true
  | item :: rest, σ =>
    ((beginRound h body item).after σ).isUnwrapped &&
      match beginRound h body item σ with
      | .ok false _ => steadily scope h body rest σ
      | .ok true begun =>
        match executeAll scope h begun with
        | .ok .none τ => steadily scope h body rest τ
        | .ok .continue _ => false
        | _ => true
      | .error _ _ => true

/-- Handlers that leave the body and the node of a loop alone spare the loop. No signal is taken
away after a round that ends without one, so only a `continue` has to be excluded. -/
theorem spares_of_dispatch
    (hkeep : ∀ {name x σ τ}, Ready h body contents [] σ.nodes →
      scope.dispatch name x σ = .ok () τ → Ready h body contents [] τ.nodes)
    (hplain : ∀ g, .value (.node g) ∉ items) (hr : Ready h body contents [] σ.nodes)
    (hsteady : steadily scope h body items σ = true) : Spares scope h body contents items σ := by
  -- no item is a detached node, so readiness does not depend on the items left
  have hwiden : ∀ {t : Store} {items : List Item}, (∀ g, .value (.node g) ∉ items) →
      Ready h body contents [] t → Ready h body contents items t := fun hplain hr =>
    { hr with values := fun g hg => absurd hg (hplain g) }
  induction items generalizing σ with
  | nil => trivial
  | cons item rest ih =>
    have hrest : ∀ g, .value (.node g) ∉ rest := fun g hg => hplain g (List.mem_cons_of_mem _ hg)
    rw [steadily, Bool.and_eq_true] at hsteady
    obtain ⟨hu, hsteady⟩ := hsteady
    replace hu := unwrapped_of_isUnwrapped hu
    refine ⟨hu, fun hbegin => ?_, fun begun c τ hbegin hexecute => ?_⟩
    · rw [hbegin] at hsteady
      exact ih hrest hr hsteady
    · rcases beginRound_apply (hwiden hplain hr) (by simp) hu with ⟨_, -, -, hbegin'⟩ |
        ⟨begun', hbegin', -, hready⟩
      · simp [hbegin] at hbegin'
      · obtain rfl : begun = begun' := by simpa [hbegin] using hbegin'
        -- the dispatcher keeps readiness, along a whole block by induction
        have hready' : Ready h body contents [] begun.nodes :=
          { hready hplain with values := by simp }
        have hτ := executeAll_preserves (I := fun σ => Ready h body contents [] σ.nodes) hkeep
          hready' hexecute
        simp only [hbegin, hexecute] at hsteady
        refine ⟨hwiden hrest hτ, fun τ' hc hsignal => ?_⟩
        cases c with
        | none =>
          obtain rfl : τ = τ' := by
            injection hsignal
          exact ⟨hwiden hrest hτ, ih hrest hτ hsteady⟩
        | «continue» => simp at hsteady
        | «break» => simp at hc
        | «return» => simp at hc

/-- A loop over two nodes. -/
def repeating : Session :=
  { nodes := Store.ofDocs [.plain "for-each" (some (.expr "/../*/_i")) [.plain "say" none []],
      .plain "_i" none [], .plain "_i" none []] }

set_option maxRecDepth 100000 in
/-- A loop over two nodes has two rounds, with a copy of its one statement in each. -/
theorem forEach_follows_items_repeating : ∃ contents r,
    List.Forall₂ (Bears repeating.nodes) [⟨2, 0⟩] contents ∧
      Rounds noting ⟨1, 0⟩ contents [.node ⟨3, 0⟩, .node ⟨4, 0⟩] (opened ⟨1, 0⟩ repeating) r ∧
      forEach noting ⟨1, 0⟩ repeating =
        Engine.always (fun _ => oneUp r) (restoreBody ⟨1, 0⟩ [⟨2, 0⟩]) repeating := by
  have hs : WellFormed repeating.nodes := wellFormed_ofDocs (by cbv) (by cbv)
  have hu : Unwrapped repeating.nodes := unwrapped_of_isUnwrapped (by cbv)
  have hh : repeating.nodes.isAlive ⟨1, 0⟩ = true := by cbv
  have hitems : repeating.nodes.resolve ⟨1, 0⟩ = .ok [.node ⟨3, 0⟩, .node ⟨4, 0⟩] := by cbv
  have hchildren : repeating.nodes.childList ⟨1, 0⟩ = [⟨2, 0⟩] := by cbv
  obtain ⟨contents, hbody, hfollows⟩ :=
    forEach_follows_items noting hs hh hitems (by cbv) hu
  have hready := ready_opened hs hu hh hitems hbody
  rw [hchildren] at hbody hfollows hready
  obtain ⟨r, hrounds, hrun⟩ := hfollows (spares_of_dispatch
    (fun hr hrun => by
      obtain ⟨-, rfl⟩ := hrun
      exact hr)
    (by simp) { hready with values := by simp } (by cbv))
  exact ⟨contents, r, hbody, hrounds, hrun⟩

/-- A loop that stands in a signal. -/
def signalled : Session :=
  { nodes := Store.ofDocs [.plain "_continue" none
        [.plain "for-each" (some (.expr "/../*/_i")) [.plain "say" none []]],
      .plain "_i" none [], .plain "_i" none []] }

/-- A loop that stands in a signal: the first round ends with the signal before anything is noted
down, and clearing it frees the loop. There is no second round, which would note something down,
although the second item is there until the end. And a loop that may not go deeper has no rounds. -/
theorem forEach_loses_items :
    (WellFormed signalled.nodes ∧
      signalled.nodes.resolve ⟨2, 0⟩ = .ok [.node ⟨4, 0⟩, .node ⟨5, 0⟩] ∧
      ∃ τ, forEach noting ⟨2, 0⟩ signalled = .ok () τ ∧ τ.journal = [] ∧
        τ.nodes.isAlive ⟨5, 0⟩ = true ∧ τ.nodes.isAlive ⟨2, 0⟩ = false) ∧
    (WellFormed repeating.nodes ∧
      repeating.nodes.resolve ⟨1, 0⟩ = .ok [.node ⟨3, 0⟩, .node ⟨4, 0⟩] ∧
      ∃ context τ, forEach { noting with settings := { maxDepth := 0 } } ⟨1, 0⟩ repeating =
        .error (.failure (.depthExceeded 0 context)) τ ∧ τ.journal = []) := by
  have hs : WellFormed repeating.nodes := wellFormed_ofDocs (by cbv) (by cbv)
  have hitems : repeating.nodes.resolve ⟨1, 0⟩ = .ok [.node ⟨3, 0⟩, .node ⟨4, 0⟩] := by cbv
  refine ⟨⟨wellFormed_ofDocs (by cbv) (by cbv), by cbv, ?_⟩, hs, hitems, ?_⟩
  · have hrun : Outcome.isOkWith (fun _ τ => decide (τ.journal = []) &&
        (τ.nodes.isAlive ⟨5, 0⟩ && !τ.nodes.isAlive ⟨2, 0⟩)) (forEach noting ⟨2, 0⟩ signalled) =
          true := by cbv
    obtain ⟨⟨⟩, τ, hrun, hend⟩ := Outcome.of_isOkWith hrun
    obtain ⟨hnoted, hend⟩ := Bool.and_eq_true_iff.1 hend
    obtain ⟨hother, hgone⟩ := Bool.and_eq_true_iff.1 hend
    exact ⟨τ, hrun, of_decide_eq_true hnoted, hother, by simpa using hgone⟩
  · have hcontext : ∃ c, repeating.nodes.describe ⟨1, 0⟩ = .ok c := ⟨⟨"for-each", _⟩, by cbv⟩
    have hlimit : ({ maxDepth := 0 } : Settings).maxDepth ≤ repeating.depth := Nat.zero_le _
    obtain ⟨context, t, hrefused, -⟩ :=
      forEach_at_limit hlimit hs.linked hs.live hitems hcontext
    exact ⟨context, _, hrefused _ rfl, rfl⟩

end Keyword

end TreeScript
