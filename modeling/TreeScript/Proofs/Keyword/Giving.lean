import TreeScript.Proofs.Keyword.Answers

/-!
# TreeScript — answers are given

Where the widgets that a keyword asks for are there and the store is in order, the keywords that
read and list properties cannot fail: all of the answers are added, and nothing but the node store
changes.

* `Receptive`, `Adds` — a node below which answers can be added, and what adds them;
* `Receptive.add`, `Receptive.addAll`, `Receptive.give`, `Receptive.place` — one answer;
* `removeArguments_apply`, `receptive_strip` — what the node had is taken away;
* `readEach_isOk` — widgets that are there are read;
* `getProperty_replaces`, `listProperties_replaces` — the keywords.
-/

namespace TreeScript.Keyword

open Engine Store

variable {h c p : Handle} {s t u : Store} {σ : Session}

-- ---------------------------------------------------------------------------
-- Adding below a node
-- ---------------------------------------------------------------------------

/-- A node is there with all its children, and the books are in order. -/
structure Receptive (s : Store) (h : Handle) : Prop where
  balanced : Balanced s
  alive : s.isAlive h = true
  children : ∀ c ∈ s.childList h, s.isAlive c = true

/-- A computation gives a result and changes the node store only. -/
def Adds {α : Type} (x : Engine α) (σ : Session) (Q : α → Store → Prop) : Prop :=
  ∃ a t, x σ = .ok a { σ with nodes := t } ∧ Q a t

theorem Adds.bind {α β : Type} {x : Engine α} {k : α → Engine β} {Q : α → Store → Prop}
    {R : β → Store → Prop} (hx : Adds x σ Q)
    (hk : ∀ a t, Q a t → Adds (k a) { σ with nodes := t } R) : Adds (x >>= k) σ R := by
  obtain ⟨a, t, hrun, hQ⟩ := hx
  obtain ⟨b, u, hrest, hR⟩ := hk a t hQ
  exact ⟨b, u, by rw [bind_of_ok hrun, hrest], hR⟩

/-- What is known of the result may be less. -/
theorem Adds.weaken {α : Type} {x : Engine α} {Q R : α → Store → Prop} (hx : Adds x σ Q)
    (hQR : ∀ a t, Q a t → R a t) : Adds x σ R := by
  obtain ⟨a, t, hrun, hQ⟩ := hx
  exact ⟨a, t, hrun, hQR a t hQ⟩

theorem Adds.forM {α : Type} {k : α → Engine Unit} {P : Store → Prop} {l : List α}
    (hk : ∀ a σ, P σ.nodes → Adds (k a) σ fun _ => P) (hσ : P σ.nodes) :
    Adds (l.forM k) σ fun _ => P := by
  induction l generalizing σ with
  | nil => exact ⟨(), σ.nodes, rfl, hσ⟩
  | cons a l ih => exact (hk a σ hσ).bind fun _ t ht => ih (σ := { σ with nodes := t }) ht

/-- What was there is there when a node has been added. -/
theorem isAlive_of_added {x : Handle} {name : String} {v : Option Scalar}
    (hadd : Added t p c name v u) (hx : t.isAlive x = true) : u.isAlive x = true := by
  by_cases hxp : x = p
  · rw [Store.isAlive, hxp, hadd.above, Option.isSome_map]
    exact hadd.alive
  · have hxc : x ≠ c := by
      rintro rfl
      simp [hadd.dead] at hx
    rwa [Store.isAlive, hadd.rest hxc hxp]

/-- Answers can still be added when one has been. -/
theorem Receptive.added {name : String} {v : Option Scalar} (hr : Receptive t h)
    (hadd : Added t p c name v u) : Receptive u h := by
  refine ⟨hadd.balanced, isAlive_of_added hadd hr.alive, fun d hd => ?_⟩
  by_cases hp : h = p
  · obtain ⟨n, hn⟩ := isAlive_iff.1 hr.alive
    have habove : u.node? h = some { n with children := n.children ++ [c] } := by
      rw [hp, hadd.above, ← hp, hn, Option.map_some]
    rw [childList_eq habove, List.mem_append, List.mem_singleton] at hd
    rcases hd with hd | rfl
    · exact isAlive_of_added hadd (hr.children d (childList_eq hn ▸ hd))
    · exact isAlive_iff.2 ⟨_, hadd.new⟩
  · have hne : h ≠ c := by
      rintro rfl
      exact absurd hr.alive (by simp [hadd.dead])
    rw [childList, hadd.rest hne hp] at hd
    exact isAlive_of_added hadd (hr.children d hd)

/-- A scalar can be added below any node that is there. -/
theorem Receptive.add (hr : Receptive σ.nodes h) (hp : σ.nodes.isAlive p = true) (name : String)
    (v : Option Scalar) : Adds (Engine.add p name (v.map .scalar)) σ fun c t =>
      Receptive t h ∧ t.isAlive c = true ∧ ∀ x, σ.nodes.isAlive x = true → t.isAlive x = true := by
  have hp' : (σ.nodes.create name (v.map .scalar)).2.isAlive p = true :=
    (hr.balanced.isAlive_create name (fun g hg => absurd hg (owned?_scalar v g)) p).2 (Or.inl hp)
  have hok : σ.nodes.add p name (v.map .scalar) =
      .ok ((σ.nodes.create name (v.map .scalar)).1,
        (σ.nodes.create name (v.map .scalar)).2.linkLast p
          (σ.nodes.create name (v.map .scalar)).1) := by
    rw [Store.add, if_pos hp]
    exact if_pos hp'
  have hadd := hr.balanced.added hok
  refine ⟨_, _, ?_, hr.added hadd, isAlive_iff.2 ⟨_, hadd.new⟩, fun x => isAlive_of_added hadd⟩
  rw [Engine.add, Engine.change, hok]

/-- Properties are added below a child, and answers can still be added. -/
theorem Receptive.addAll (hr : Receptive σ.nodes h) (hc : σ.nodes.isAlive c = true)
    (properties : List (String × Scalar)) :
    Adds (addAll c properties) σ fun _ t => Receptive t h := by
  refine (Adds.forM (P := fun t => Receptive t h ∧ t.isAlive c = true) (fun q τ hτ => ?_)
    ⟨hr, hc⟩).weaken fun _ _ ht => ht.1
  refine (hτ.1.add hτ.2 q.1 (some q.2)).bind fun d t ht => ?_
  exact ⟨(), t, rfl, ht.1, ht.2.2 c hτ.2⟩

/-- An answer is given, and others can be. -/
theorem Receptive.give (hr : Receptive σ.nodes h) (a : Answer) :
    Adds (give h a) σ fun _ t => Receptive t h := by
  refine (hr.add hr.alive a.name a.value).bind fun c t ht => ?_
  exact Receptive.addAll (σ := { σ with nodes := t }) ht.1 ht.2.1 a.properties

/-- A property is put where it belongs, and others can be. -/
theorem Receptive.place (hr : Receptive σ.nodes h) (x : String × String × Scalar) :
    Adds (place h x) σ fun _ t => Receptive t h := by
  have hholder : Adds (findOrAdd h x.1) σ fun c t => Receptive t h ∧ t.isAlive c = true := by
    obtain ⟨found, hfound, hlive⟩ : ∃ found, σ.nodes.findNamed x.1 (σ.nodes.childList h) =
        .ok found ∧ ∀ c, found = some c → σ.nodes.isAlive c = true :=
      findNamed_of_isAlive hr.children
    rw [Adds, findOrAdd]
    simp only [nodes_bind_apply, childNamed?, hfound]
    cases found with
    | some d => exact ⟨d, σ.nodes, rfl, hr, hlive d rfl⟩
    | none => exact (hr.add hr.alive x.1 none).weaken fun c t ht => ⟨ht.1, ht.2.1⟩
  exact hholder.bind fun c t ht =>
    Receptive.addAll (σ := { σ with nodes := t }) ht.1 ht.2 [x.2]

-- ---------------------------------------------------------------------------
-- What the node had is taken away
-- ---------------------------------------------------------------------------

/-- A node is still there when its contents have been freed: nothing in it leads back. -/
theorem isAlive_hollow_self (hd : Disciplined s) (hh : s.isAlive h = true) :
    (s.hollow h).isAlive h = true := by
  refine isAlive_hollow.2 ⟨hh, fun c hc hreach => hd.acyclic h ?_⟩
  exact Relation.TransGen.head' (holds_iff_childList.2 (Or.inl hc)) hreach

/-- The arguments and the value are removed from a node of a disciplined store, without a failure.
-/
theorem removeArguments_apply (hd : Disciplined σ.nodes) (hh : σ.nodes.isAlive h = true) :
    removeArguments h (σ.nodes.childList h) σ =
      .ok () { σ with nodes := σ.nodes.strip h } := by
  have halive : (σ.nodes.removeAll (σ.nodes.childList h)).isAlive h = true :=
    isAlive_removeAll.2 (isAlive_hollow.1 (isAlive_hollow_self hd hh))
  rw [removeArguments, bind_of_ok (forM_remove _ σ), Engine.setValue, Engine.edit, Engine.change,
    Store.setValue, if_pos halive]
  rfl

/-- A node that has lost its contents can be given answers. -/
theorem receptive_strip (hd : Disciplined s) (hh : s.isAlive h = true) :
    Receptive (s.strip h) h := by
  obtain ⟨⟨n, -, hself⟩, -, -⟩ :=
    (emptied_iff hd.linked (isAlive_hollow_self hd hh)).2 (hd.contained h)
  refine ⟨(Evolves.strip s h).balanced hd.balanced, isAlive_iff.2 ⟨_, hself⟩, ?_⟩
  simp [childList_eq hself]

-- ---------------------------------------------------------------------------
-- The keywords
-- ---------------------------------------------------------------------------

/-- Each widget that is there is read. -/
theorem readEach_isOk {α : Type} {k : String → Widget → α} {ids : List String}
    (hall : ∀ id ∈ ids, (σ.widgets.widget? id).isSome = true) :
    ∃ found, (ids.mapM fun id => do
      let w ← findWidget h id
      return k id w) σ = .ok found σ := by
  induction ids with
  | nil => exact ⟨[], rfl⟩
  | cons id ids ih =>
    obtain ⟨hid, hids⟩ := List.forall_mem_cons.1 hall
    obtain ⟨w, hw⟩ := Option.isSome_iff_exists.1 hid
    obtain ⟨found, hfound⟩ := ih hids
    refine ⟨k id w :: found, ?_⟩
    have hone : findWidget h id σ = .ok w σ := by
      rw [findWidget, widgets_bind_apply, hw]
      rfl
    rw [List.mapM_cons, bind_assoc, bind_of_ok hone, pure_bind, bind_of_ok hfound]
    rfl

/-- What is looked up and found. -/
theorem lift_apply {α : Type} {r : Except Fault α} {a : α} (hr : r = .ok a) (σ : Session) :
    (liftM r : Engine α) σ = .ok a σ := by
  rw [hr]
  rfl

theorem lift_halt_apply {α : Type} {r : Except Halt α} {a : α} (hr : r = .ok a) (σ : Session) :
    (liftM r : Engine α) σ = .ok a σ := by
  rw [hr]
  rfl

section

variable {ids : List String} {args : List Handle}

/-- When all has been looked up, the arguments are taken away and answers are added. -/
theorem replaces_of_adds {k : Engine Unit} (hd : Disciplined σ.nodes)
    (hargs : σ.nodes.children h = .ok args)
    (hk : ∀ τ : Session, Receptive τ.nodes h → Adds k τ fun _ t => Receptive t h) :
    ∃ u, (removeArguments h args >>= fun _ => k) σ = .ok () { σ with nodes := u } := by
  obtain ⟨n, hn, hchildren⟩ := children_eq_ok.1 hargs
  have hh : σ.nodes.isAlive h = true := isAlive_iff.2 ⟨n, hn⟩
  obtain ⟨⟨⟩, u, hrun, -⟩ := hk { σ with nodes := σ.nodes.strip h } (receptive_strip hd hh)
  refine ⟨u, ?_⟩
  rw [← hchildren, ← childList_eq hn, bind_of_ok (removeArguments_apply hd hh), hrun]

/-- The properties that are asked for of widgets that are there replace all that the node had. -/
theorem getProperty_replaces (scope : Scope) (hd : Disciplined σ.nodes)
    (hids : σ.nodes.strings h = .ok ids) (hargs : σ.nodes.children h = .ok args) {names : List String}
    (hnames : propertyNames args σ = .ok names σ)
    (hall : ∀ id ∈ ids, (σ.widgets.widget? id).isSome = true) :
    ∃ u, getProperty scope h σ = .ok () { σ with nodes := u } ∧
      Replaced σ.nodes h ((getAnswers σ.widgets names ids).map Answer.shape) u := by
  obtain ⟨found, hfound⟩ := readEach_isOk (h := h) (k := fun id w =>
    names.filterMap fun name => (readProperty w name).map fun v => (id, name, v)) hall
  -- the answers are added one by one to a target that has been emptied
  obtain ⟨u, hrun⟩ := replaces_of_adds (k := found.flatten.forM (place h)) hd hargs
    fun τ hτ => Adds.forM (fun x τ hτ => Receptive.place hτ x) hτ
  have hget : getProperty scope h σ = .ok () { σ with nodes := u } := by
    rw [getProperty, nodes_bind_apply, bind_of_ok (lift_halt_apply hids σ), nodes_bind_apply,
      bind_of_ok (lift_apply hargs σ), bind_of_ok hnames, bind_of_ok hfound]
    exact hrun
  -- that it ran is enough, for what a run gives is known already
  obtain ⟨ids', args', names', hids', hargs', hnames', -, hgives⟩ :=
    gives_of_getProperty hd.balanced hget
  obtain rfl := Except.ok.inj (hids.symm.trans hids')
  obtain rfl := Except.ok.inj (hargs.symm.trans hargs')
  rw [hnames] at hnames'
  injection hnames' with hnames'
  subst hnames'
  exact ⟨u, hget, (hgives.replaced_iff hd.linked).2 (hd.contained h)⟩

/-- The listings of widgets that are there replace all that the node had. -/
theorem listProperties_replaces (scope : Scope) (hd : Disciplined σ.nodes)
    (hids : σ.nodes.strings h = .ok ids) (hargs : σ.nodes.children h = .ok args)
    (hall : ∀ id ∈ ids, (σ.widgets.widget? id).isSome = true) :
    ∃ u, listProperties scope h σ = .ok () { σ with nodes := u } ∧
      Replaced σ.nodes h ((listAnswers σ.widgets ids).map Answer.shape) u := by
  obtain ⟨found, hfound⟩ := readEach_isOk (h := h) (k := fun id w => (id, listing w)) hall
  obtain ⟨u, hrun⟩ := replaces_of_adds (k := (found.map fun x =>
      ({ name := x.1, properties := x.2 } : Answer)).forM (give h)) hd hargs
    fun τ hτ => Adds.forM (fun a τ hτ => Receptive.give hτ a) hτ
  have hlist : listProperties scope h σ = .ok () { σ with nodes := u } := by
    rw [listProperties, nodes_bind_apply, bind_of_ok (lift_halt_apply hids σ), nodes_bind_apply,
      bind_of_ok (lift_apply hargs σ), bind_of_ok hfound]
    rw [forM_map] at hrun
    exact hrun
  obtain ⟨ids', hids', -, hgives⟩ := gives_of_listProperties hd.balanced hlist
  obtain rfl := Except.ok.inj (hids.symm.trans hids')
  exact ⟨u, hlist, (hgives.replaced_iff hd.linked).2 (hd.contained h)⟩

end

end TreeScript.Keyword
