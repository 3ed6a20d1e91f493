import Mathlib
import TreeScript.Proofs.Keyword.Backed
import TreeScript.Proofs.Path.Results
import TreeScript.Proofs.Store.Answers

/-!
# TreeScript — keywords that give answers

Three keywords read properties of widgets, list them, or read files. Each takes away the children
of its node and its value, and then adds one answer after the other below it.

* `removeArguments_eq_ok` — what the node had is taken away;
* `giveAll_grown`, `placeAll_grown` — answers that are whole, and answers that are put together;
* `collected`, `collected_flatMap` — what comes of properties that are met one after the other;
* `getAnswers`, `listAnswers`, `loadAnswers` — what has been asked for;
* `Gives`, `gives_of_getProperty`, `gives_of_listProperties`, `gives_of_loadFile` — the runs;
* `data_keywords_replace` — what a keyword for data leaves behind.
-/

namespace TreeScript.Keyword

open Engine Store

variable {scope : Scope} {h : Handle}

-- ---------------------------------------------------------------------------
-- Taking the arguments away and adding answers
-- ---------------------------------------------------------------------------

section

variable {s : Store} {σ σ' : Session} {new front back : List Handle}
  {answers before after : List Answer} {a : Answer} {c : Handle}

theorem forM_remove (args : List Handle) (σ : Session) :
    args.forM Engine.remove σ = .ok () { σ with nodes := σ.nodes.removeAll args } := by
  induction args generalizing σ with
  | nil => rfl
  | cons c args ih =>
    have hone : Engine.remove c σ = .ok () { σ with nodes := σ.nodes.remove c } := rfl
    show (Engine.remove c >>= fun _ => args.forM Engine.remove) σ = _
    rw [bind_of_ok hone, ih]
    rfl

/-- When the arguments have been removed, the node is still there, and it has lost its value as
well. -/
theorem removeArguments_eq_ok {args : List Handle}
    (hrun : removeArguments h args σ = .ok () σ') : (σ.nodes.removeAll args).isAlive h = true ∧
      σ' = { σ with nodes := (σ.nodes.removeAll args).assign h none } := by
  rw [removeArguments, bind_of_ok (forM_remove args σ)] at hrun
  obtain ⟨s, hs, hσ⟩ := edit_eq_ok hrun
  unfold Store.setValue at hs
  split at hs
  next halive => exact ⟨halive, by rw [hσ, Except.ok.inj hs]⟩
  next => cases hs

/-- An answer without properties has been added behind the others. -/
theorem add_grown (hg : Grown s h new answers σ.nodes) {name : String} {v : Option Scalar}
    (hrun : Engine.add h name (v.map .scalar) σ = .ok c σ') :
    Grown s h (new ++ [c]) (answers ++ [{ name, value := v }]) σ'.nodes := by
  obtain ⟨t, ht, rfl⟩ := change_eq_ok hrun
  exact hg.add (hg.balanced.added ht)

/-- The properties are added from the first to the last. -/
theorem addAll_cons (c : Handle) (p : String × Scalar) (properties : List (String × Scalar)) :
    addAll c (p :: properties) =
      (Engine.add c p.1 (some (.scalar p.2)) >>= fun _ => addAll c properties) := by
  show ((Engine.add c p.1 (some (.scalar p.2)) >>= fun _ => pure ()) >>= fun _ =>
    addAll c properties) = _
  simp only [bind_assoc, pure_bind]

/-- Properties have been added to one of the answers, behind those that it had. -/
theorem addAll_grown {properties : List (String × Scalar)}
    (hg : Grown s h (front ++ c :: back) (before ++ a :: after) σ.nodes)
    (hlen : front.length = before.length) (hrun : addAll c properties σ = .ok () σ') :
    Grown s h (front ++ c :: back)
      (before ++ { a with properties := a.properties ++ properties } :: after) σ'.nodes := by
  induction properties generalizing a σ with
  | nil =>
    cases hrun
    simpa using hg
  | cons p properties ih =>
    rw [addAll_cons] at hrun
    obtain ⟨k, σ₁, hadd, hrest⟩ := bind_eq_ok hrun
    obtain ⟨t, ht, rfl⟩ := change_eq_ok hadd
    have hone := hg.under hlen (hg.balanced.added (v := some p.2) ht)
    simpa using ih hone hrest

/-- Adds an answer. -/
def give (h : Handle) (a : Answer) : Engine Unit := do
  let holder ← Engine.add h a.name (a.value.map .scalar)
  addAll holder a.properties

/-- An answer has been added with all its properties. -/
theorem add_addAll_grown (hg : Grown s h new answers σ.nodes) {name : String} {v : Option Scalar}
    {properties : List (String × Scalar)} {σ₁ : Session}
    (hadd : Engine.add h name (v.map .scalar) σ = .ok c σ₁)
    (hall : addAll c properties σ₁ = .ok () σ') :
    Grown s h (new ++ [c]) (answers ++ [{ name, value := v, properties }]) σ'.nodes := by
  simpa using addAll_grown (add_grown hg hadd) hg.told.length_eq hall

/-- A list of answers has been added behind the others. -/
theorem giveAll_grown {todo : List Answer} (hg : Grown s h new answers σ.nodes)
    (hrun : todo.forM (give h) σ = .ok () σ') :
    ∃ new', Grown s h new' (answers ++ todo) σ'.nodes := by
  induction todo generalizing new answers σ with
  | nil =>
    cases hrun
    exact ⟨new, by simpa using hg⟩
  | cons a todo ih =>
    obtain ⟨⟨⟩, σ₁, hgive, hrest⟩ := bind_eq_ok
      (x := give h a) (f := fun _ => todo.forM (give h)) hrun
    obtain ⟨c, σ₂, hadd, hall⟩ := bind_eq_ok hgive
    simpa using ih (add_addAll_grown hg hadd hall) hrest

-- ---------------------------------------------------------------------------
-- Answers that are put together
-- ---------------------------------------------------------------------------

/-- Named properties as answers: one for each name, where it is first met, with all properties that
go by it. -/
def collected (found : List (String × String × Scalar)) : List Answer :=
  (found.map Prod.fst).eraseDups.map fun id =>
    { name := id, properties := (found.filter (·.1 = id)).map Prod.snd }

/-- A name is new to the answers just if no property has been met under it. -/
theorem name_mem_collected {found : List (String × String × Scalar)} {id : String} :
    (∀ a ∈ collected found, a.name ≠ id) ↔ id ∉ found.map Prod.fst := by
  rw [collected, List.forall_mem_map]
  refine ⟨fun hall hmem => hall id (List.mem_eraseDups.2 hmem) rfl, fun hnot j hj heq => ?_⟩
  exact hnot (heq ▸ List.mem_eraseDups.1 hj)

/-- A property under a new name makes a new answer. -/
theorem collected_append_new {found : List (String × String × Scalar)}
    {x : String × String × Scalar} (hnew : x.1 ∉ found.map Prod.fst) :
    collected (found ++ [x]) = collected found ++ [{ name := x.1, properties := [x.2] }] := by
  have hnames : ((found ++ [x]).map Prod.fst).eraseDups =
      (found.map Prod.fst).eraseDups ++ [x.1] := by
    rw [List.map_append, List.eraseDups_append]
    simp [List.removeAll, hnew, List.eraseDups_cons]
  have hnone : found.filter (·.1 = x.1) = [] := List.filter_eq_nil_iff.2 fun y hy => by
    simpa using fun heq : y.1 = x.1 => hnew (heq ▸ List.mem_map_of_mem hy)
  rw [collected, hnames, List.map_append, collected]
  congr 1
  · refine List.map_congr_left fun id hid => ?_
    have hne : x.1 ≠ id := fun heq => hnew (heq ▸ List.mem_eraseDups.1 hid)
    simp [hne]
  · simp [hnone]

/-- A property under a name that has been met joins the answer of that name. -/
theorem collected_append_old {found : List (String × String × Scalar)}
    {x : String × String × Scalar} (hold : collected found = before ++ a :: after)
    (hname : a.name = x.1) : collected (found ++ [x]) =
      before ++ { a with properties := a.properties ++ [x.2] } :: after := by
  obtain ⟨front, rest, hsplit, hfront, hrest⟩ := List.map_eq_append_iff.1 hold
  obtain ⟨id, back, rfl, ha, hback⟩ := List.map_eq_cons_iff.1 hrest
  obtain rfl : id = x.1 := by rw [← hname, ← ha]
  have hnodup := hsplit ▸ nodup_eraseDups (found.map Prod.fst)
  have hmem : x.1 ∈ found.map Prod.fst := List.mem_eraseDups.1 (hsplit ▸ by simp)
  have hnames : ((found ++ [x]).map Prod.fst).eraseDups = front ++ x.1 :: back := by
    rw [List.map_append, List.eraseDups_append, hsplit]
    simp [List.removeAll, hmem]
  -- the other names go by what they have
  have hother : ∀ ids : List String, x.1 ∉ ids →
      (ids.map fun id => ({ name := id, properties :=
        ((found ++ [x]).filter (·.1 = id)).map Prod.snd } : Answer)) =
      ids.map fun id => { name := id, properties := (found.filter (·.1 = id)).map Prod.snd } := by
    intro ids hout
    refine List.map_congr_left fun id hid => ?_
    have hne : x.1 ≠ id := fun heq => hout (heq ▸ hid)
    simp [hne]
  rw [collected, hnames, List.map_append, List.map_cons, hother, hother, hfront, hback, ← ha]
  · simp
  · exact (List.nodup_cons.1 (List.nodup_append.1 hnodup).2.1).1
  · exact fun hin => (List.nodup_append.1 hnodup).2.2 _ hin _ (by simp) rfl

/-- Adds a property to the answer with a name. -/
def place (h : Handle) (x : String × String × Scalar) : Engine Unit := do
  let holder ← findOrAdd h x.1
  addAll holder [x.2]

/-- A property has been put where it belongs: with the answer of its name, which the search among
the children finds, or with a new one. -/
theorem place_grown {found : List (String × String × Scalar)} {x : String × String × Scalar}
    (hnil : s.childList h = []) (hg : Grown s h new (collected found) σ.nodes)
    (hrun : place h x σ = .ok () σ') :
    ∃ new', Grown s h new' (collected (found ++ [x])) σ'.nodes := by
  -- the target's children are the answers given so far, since it had none before
  have hlist : σ.nodes.childList h = new := by
    unfold childList at hnil ⊢
    rw [hg.self]
    cases hn : s.node? h with
    | some n => simpa [hn] using hnil
    | none =>
      by_contra hne
      have halive := hg.alive fun hnew => hne (by simp [hnew])
      simp [Store.isAlive, hn] at halive
  obtain ⟨c, σ₁, hholder, hall⟩ := bind_eq_ok hrun
  rw [findOrAdd, nodes_bind_apply] at hholder
  obtain ⟨named, σ₂, hlift, hholder⟩ := bind_eq_ok hholder
  obtain ⟨hnamed, rfl⟩ := lift_eq_ok hlift
  rw [childNamed?, hlist] at hnamed
  rcases findNamed_of_bearing hg.told hnamed with ⟨rfl, hnone⟩ |
    ⟨d, front, back, before, a, after, rfl, rfl, hold, hlen, hname⟩
  -- no answer for this widget yet: a new child is added
  · rw [collected_append_new (name_mem_collected.1 hnone)]
    exact ⟨_, add_addAll_grown (v := none) hg hholder hall⟩
  -- there is one: the property is added to it
  · cases hholder
    rw [hold] at hg
    rw [collected_append_old hold hname]
    exact ⟨_, addAll_grown hg hlen hall⟩

/-- A list of properties has been put where each belongs. -/
theorem placeAll_grown {found todo : List (String × String × Scalar)}
    (hnil : s.childList h = []) (hg : Grown s h new (collected found) σ.nodes)
    (hrun : todo.forM (place h) σ = .ok () σ') :
    ∃ new', Grown s h new' (collected (found ++ todo)) σ'.nodes := by
  induction todo generalizing new found σ with
  | nil =>
    cases hrun
    exact ⟨new, by simpa using hg⟩
  | cons x todo ih =>
    obtain ⟨⟨⟩, σ₁, hplace, hrest⟩ := bind_eq_ok
      (x := place h x) (f := fun _ => todo.forM (place h)) hrun
    obtain ⟨new', hone⟩ := place_grown hnil hg hplace
    simpa using ih hone hrest

/-- Behind a stale child no answer is found. -/
theorem place_ne_ok {x : String × String × Scalar} {rest : List Handle}
    (hlist : σ.nodes.childList h = c :: rest) (hdead : σ.nodes.isAlive c = false) :
    place h x σ ≠ .ok () σ' := by
  intro hrun
  obtain ⟨d, σ₁, hholder, -⟩ := bind_eq_ok hrun
  rw [findOrAdd, nodes_bind_apply] at hholder
  obtain ⟨named, σ₂, hnamed, -⟩ := bind_eq_ok hholder
  obtain ⟨hnamed, -⟩ := lift_eq_ok hnamed
  rw [childNamed?, hlist, findNamed, not_isAlive_iff.1 hdead] at hnamed
  cases hnamed

end

-- ---------------------------------------------------------------------------
-- What has been asked for
-- ---------------------------------------------------------------------------

/-- The properties of a widget among some names. -/
def foundIn (w : WidgetStore) (names : List String) (id : String) : List (String × Scalar) :=
  match w.widget? id with
  | some x => names.filterMap fun name => (readProperty x name).map fun v => (name, v)
  | none => []

/-- One answer for each widget that has one of the properties, where it is first met. -/
def getAnswers (w : WidgetStore) (names ids : List String) : List Answer :=
  (ids.filter fun id => foundIn w names id ≠ []).eraseDups.map fun id =>
    { name := id, properties := (ids.filter (· = id)).flatMap (foundIn w names) }

/-- One answer for each widget. -/
def listAnswers (w : WidgetStore) (ids : List String) : List Answer :=
  ids.map fun id => { name := id, properties := ((w.widget? id).map listing).getD [] }

/-- One answer for each file. -/
def loadAnswers (settings : Settings) (disk : Disk) (paths : List String) : List Answer :=
  paths.map fun path =>
    { name := path, value := (disk.readText settings.workFolder
        (diskPath settings path)).toOption.map .string }

section

variable (f : String → List (String × Scalar)) (ids : List String)

/-- The names of all properties, each where it is first met, are the ids for which there are any. -/
theorem eraseDups_names :
    ((ids.flatMap fun id => (f id).map fun p => (id, p)).map Prod.fst).eraseDups =
      (ids.filter fun id => f id ≠ []).eraseDups := by
  have hfilter : (ids.filter fun id => f id ≠ []) =
      ids.flatMap fun id => if f id = [] then [] else [id] := by
    induction ids with
    | nil => rfl
    | cons id ids ih =>
      rw [List.flatMap_cons, ← ih]
      by_cases hid : f id = []
      · simp [hid]
      · simp [hid]
  rw [List.map_flatMap, hfilter]
  refine eraseDups_flatMap_congr fun id _ => ?_
  cases f id with
  | nil => rfl
  | cons p rest => simp [List.eraseDups_cons, Function.comp_def]

/-- The properties under one name are those of its id, once for each time the id is given. -/
theorem properties_of_name (id : String) :
    ((ids.flatMap fun id => (f id).map fun p => (id, p)).filter (·.1 = id)).map Prod.snd =
      (ids.filter (· = id)).flatMap f := by
  induction ids with
  | nil => rfl
  | cons j ids ih =>
    rw [List.flatMap_cons, List.filter_append, List.map_append, ih]
    by_cases hj : j = id
    · simp [hj, List.filter_map, Function.comp_def]
    · simp [hj, List.filter_map, Function.comp_def]

/-- What is collected of things that are met one after the other. -/
theorem collected_flatMap : collected (ids.flatMap fun id => (f id).map fun p => (id, p)) =
    (ids.filter fun id => f id ≠ []).eraseDups.map fun id =>
      { name := id, properties := (ids.filter (· = id)).flatMap f } := by
  rw [collected, eraseDups_names]
  simp only [properties_of_name]

end

/-- A widget that has been found is in the store of widgets. -/
theorem findWidget_eq_ok {σ τ : Session} {id : String} {w : Widget}
    (hrun : findWidget h id σ = .ok w τ) : σ.widgets.widget? id = some w := by
  rw [findWidget, widgets_bind_apply] at hrun
  cases hw : σ.widgets.widget? id with
  | some x =>
    rw [hw] at hrun
    cases hrun
    rfl
  | none =>
    rw [hw] at hrun
    exact absurd hrun fail_ne_ok

/-- Something is read of each widget. -/
theorem readEach_eq_ok {α : Type} {k : String → Widget → α} {ids : List String} {found : List α}
    {σ τ : Session} (hrun : (ids.mapM fun id => do
      let w ← findWidget h id
      return k id w) σ = .ok found τ) :
    List.Forall₂ (fun id a => ∃ w, σ.widgets.widget? id = some w ∧ k id w = a) ids found := by
  have hall := (Preserves.mapM_eq_ok (fun id => (preserves_findWidget h id).bind fun _ =>
    preserves_pure _) hrun).2
  refine hall.imp fun id a hone => ?_
  obtain ⟨w, σ₁, hfind, hend⟩ := bind_eq_ok hone
  cases hend
  exact ⟨w, findWidget_eq_ok hfind, rfl⟩

-- ---------------------------------------------------------------------------
-- Runs
-- ---------------------------------------------------------------------------

section

variable {σ σ' : Session} {args : List Handle}

/-- A run of a keyword that gives answers: the node has lost all that it had, and has got them. -/
def Gives (h : Handle) (answers : List Answer) (σ σ' : Session) : Prop :=
  (σ.nodes.hollow h).isAlive h = true ∧
    ∃ new, Grown (σ.nodes.strip h) h new answers σ'.nodes

/-- The node of a keyword has lost its children and its value, and gets something else. -/
theorem cleared_of_ok {k : Engine Unit} (hargs : σ.nodes.children h = .ok args)
    (hrun : (removeArguments h args >>= fun _ => k) σ = .ok () σ') :
    (σ.nodes.hollow h).isAlive h = true ∧ k { σ with nodes := σ.nodes.strip h } = .ok () σ' := by
  obtain ⟨⟨⟩, σ₁, hclear, hadd⟩ := bind_eq_ok hrun
  obtain ⟨n, hn, rfl⟩ := children_eq_ok.1 hargs
  rw [← childList_eq hn] at hclear
  obtain ⟨halive, rfl⟩ := removeArguments_eq_ok hclear
  exact ⟨isAlive_hollow.2 (isAlive_removeAll.1 halive), hadd⟩

/-- A node that has lost everything has been given no answers. -/
theorem grown_strip (hb : Balanced σ.nodes) :
    Grown (σ.nodes.strip h) h [] [] (σ.nodes.strip h) :=
  ((Evolves.strip σ.nodes h).balanced hb).grown h

/-- A run that strips its node and then gives a list of answers gives just these. -/
theorem gives_of_giveAll (hb : Balanced σ.nodes) {answers : List Answer}
    (hargs : σ.nodes.children h = .ok args)
    (hrun : (removeArguments h args >>= fun _ => answers.forM (give h)) σ = .ok () σ') :
    Gives h answers σ σ' := by
  obtain ⟨halive, hgive⟩ := cleared_of_ok hargs hrun
  exact ⟨halive, giveAll_grown (grown_strip hb) hgive⟩

/-- Working on the images of a list is working on the list. -/
theorem forM_map {α β : Type} (g : α → β) (k : β → Engine Unit) (l : List α) :
    (l.map g).forM k = l.forM fun a => k (g a) := by
  induction l with
  | nil => rfl
  | cons a l ih =>
    show (k (g a) >>= fun _ => (l.map g).forM k) = k (g a) >>= fun _ => l.forM fun a => k (g a)
    rw [ih]

/-- Rows that agree are equal when what counts has been read of them. -/
theorem map_eq_map_of_forall₂ {α β δ : Type} {R : α → β → Prop} {g : α → δ} {k : β → δ}
    {as : List α} {bs : List β} (hall : List.Forall₂ R as bs) (hone : ∀ a b, R a b → g a = k b) :
    as.map g = bs.map k := by
  rw [← List.forall₂_eq_eq_eq, List.forall₂_map_left_iff, List.forall₂_map_right_iff]
  exact hall.imp hone

/-- What follows for one member from its partner holds of all members. -/
theorem forall_mem_of_forall₂ {α β : Type} {R : α → β → Prop} {P : α → Prop} {as : List α}
    {bs : List β} (hall : List.Forall₂ R as bs) (hone : ∀ a b, R a b → P a) : ∀ a ∈ as, P a := by
  have hboth := hall.imp fun a b hab => (⟨hone a b hab, hab⟩ : P a ∧ R a b)
  exact ((List.forall₂_and_left as bs).1 hboth).1

/-- A run of `list-widget-properties` has found all widgets and gives one answer for each. -/
theorem gives_of_listProperties (hb : Balanced σ.nodes)
    (hrun : listProperties scope h σ = .ok () σ') :
    ∃ ids, σ.nodes.strings h = .ok ids ∧ (∀ id ∈ ids, (σ.widgets.widget? id).isSome = true) ∧
      Gives h (listAnswers σ.widgets ids) σ σ' := by
  rw [listProperties, nodes_bind_apply] at hrun
  obtain ⟨ids, hids, hrun⟩ := (preserves_lift_halt _).bind_eq_ok hrun
  rw [nodes_bind_apply] at hrun
  obtain ⟨args, hargs, hrun⟩ := (preserves_lift _).bind_eq_ok hrun
  obtain ⟨found, hfound, hrun⟩ := (preserves_readEach _ ids).bind_eq_ok hrun
  have hall := readEach_eq_ok hfound
  have hanswers : listAnswers σ.widgets ids =
      found.map fun x => { name := x.1, properties := x.2 } :=
    map_eq_map_of_forall₂ hall fun id x ⟨w, hw, hx⟩ => by simp [← hx, hw]
  refine ⟨ids, (lift_halt_eq_ok hids).1, forall_mem_of_forall₂ hall fun id x ⟨w, hw, _⟩ => by
    simp [hw], gives_of_giveAll hb (lift_eq_ok hargs).1 ?_⟩
  rw [hanswers, forM_map]
  exact hrun

/-- A file that has been read is told under the path that was asked for. -/
theorem loadOne_read {path : String} {r : String × String}
    (hrun : loadOne scope h path σ = .ok r σ') :
    r.1 = path ∧ σ.disk.readText scope.settings.workFolder (diskPath scope.settings path) =
      .ok r.2 := by
  rw [loadOne, get_bind_apply] at hrun
  obtain ⟨⟨⟩, -, hrun⟩ := (preserves_authorize h _).bind_eq_ok hrun
  rw [get_bind_apply] at hrun
  obtain ⟨text, htext, hrun⟩ := (preserves_ofDisk h path _).bind_eq_ok hrun
  cases hrun
  exact ⟨rfl, (ofDisk_ok htext).1⟩

/-- A run of `load-file` has had leave for all files and gives one answer for each. -/
theorem gives_of_loadFile (hb : Balanced σ.nodes) (hrun : loadFile scope h σ = .ok () σ') :
    ∃ paths, σ.nodes.strings h = .ok paths ∧
      (∀ path ∈ paths, scope.settings.access.read σ.ticket path = .ok () ∧
        ∃ text, σ.disk.readText scope.settings.workFolder (diskPath scope.settings path) =
          .ok text) ∧
      Gives h (loadAnswers scope.settings σ.disk paths) σ σ' := by
  rw [loadFile_eq, nodes_bind_apply] at hrun
  obtain ⟨paths, hpaths, hrun⟩ := (preserves_lift_halt _).bind_eq_ok hrun
  rw [nodes_bind_apply] at hrun
  obtain ⟨args, hargs, hrun⟩ := (preserves_lift _).bind_eq_ok hrun
  obtain ⟨loaded, hloaded, hrun⟩ := (Preserves.mapM preserves_loadOne paths).bind_eq_ok hrun
  have hall := (Preserves.mapM_eq_ok preserves_loadOne hloaded).2
  have hanswers : loadAnswers scope.settings σ.disk paths =
      loaded.map fun x => { name := x.1, value := some (.string x.2) } :=
    map_eq_map_of_forall₂ hall fun path x hx => by
      obtain ⟨rfl, htext⟩ := loadOne_read hx
      simp [htext, Except.toOption]
  refine ⟨paths, (lift_halt_eq_ok hpaths).1, forall_mem_of_forall₂ hall fun path x hx =>
    ⟨(loadOne_ok hx).1, x.2, (loadOne_read hx).2⟩, gives_of_giveAll hb (lift_eq_ok hargs).1 ?_⟩
  rw [hanswers, forM_map]
  exact hrun

/-- A run of `get-widget-property` has found all widgets and gives the properties that were asked
for, put together by name. -/
theorem gives_of_getProperty (hb : Balanced σ.nodes)
    (hrun : getProperty scope h σ = .ok () σ') :
    ∃ ids args names, σ.nodes.strings h = .ok ids ∧ σ.nodes.children h = .ok args ∧
      propertyNames args σ = .ok names σ ∧ (∀ id ∈ ids, (σ.widgets.widget? id).isSome = true) ∧
      Gives h (getAnswers σ.widgets names ids) σ σ' := by
  rw [getProperty, nodes_bind_apply] at hrun
  obtain ⟨ids, hids, hrun⟩ := (preserves_lift_halt _).bind_eq_ok hrun
  rw [nodes_bind_apply] at hrun
  obtain ⟨args, hargs, hrun⟩ := (preserves_lift _).bind_eq_ok hrun
  obtain ⟨names, hnames, hrun⟩ := (preserves_propertyNames args).bind_eq_ok hrun
  obtain ⟨found, hfound, hrun⟩ := (preserves_readEach _ ids).bind_eq_ok hrun
  have hall := readEach_eq_ok hfound
  have hargs' := (lift_eq_ok hargs).1
  have hflat : found.flatten =
      ids.flatMap fun id => (foundIn σ.widgets names id).map fun p => (id, p) := by
    rw [List.flatMap_def, map_eq_map_of_forall₂ hall (k := id) fun j x ⟨w, hw, hx⟩ => ?_,
      List.map_id]
    rw [← hx, foundIn, hw]
    simp [List.map_filterMap, Function.comp_def]
  refine ⟨ids, args, names, (lift_halt_eq_ok hids).1, hargs', hnames,
    forall_mem_of_forall₂ hall fun id x ⟨w, hw, _⟩ => by simp [hw], ?_⟩
  obtain ⟨halive, hplace⟩ := cleared_of_ok (k := found.flatten.forM (place h)) hargs' hrun
  refine ⟨halive, ?_⟩
  rw [getAnswers, ← collected_flatMap, ← hflat]
  cases hlist : (σ.nodes.strip h).childList h with
  | nil =>
    have hstart : Grown (σ.nodes.strip h) h [] (collected []) (σ.nodes.strip h) := grown_strip hb
    exact placeAll_grown hlist hstart hplace
  | cons d rest =>
    -- with a stale child left over, no answer has been added
    cases htodo : found.flatten with
    | nil =>
      rw [htodo] at hplace
      cases hplace
      exact ⟨[], grown_strip hb⟩
    | cons x todo =>
      rw [htodo] at hplace
      obtain ⟨⟨⟩, σ₁, hone, -⟩ := bind_eq_ok
        (x := place h x) (f := fun _ => todo.forM (place h)) hplace
      have hdead := not_isAlive_strip (mem_childList_of_strip (hlist ▸ List.mem_cons_self))
      exact absurd hone (place_ne_ok hlist hdead)

/-- Whether the answers are all that is left, they were always given: what is left besides them are
nodes that the old contents shared with others. -/
theorem Gives.replaced_iff {answers : List Answer} (hg : Gives h answers σ σ')
    (hl : Linked σ.nodes) :
    Replaced σ.nodes h (answers.map Answer.shape) σ'.nodes ↔ Contained σ.nodes h := by
  obtain ⟨halive, new, hgrown⟩ := hg
  exact hgrown.replaced_iff hl halive

end

/-- A keyword for data that fails leaves every node as it was. One that gives answers replaces all
that its node had by them, and changes no node outside, just if what it takes away is all the
node's own; and so it is in a store that is in order. -/
theorem data_keywords_replace (scope : Scope) (h : Handle) (σ σ' : Session)
    (hb : Balanced σ.nodes) (hl : Linked σ.nodes) :
    (∀ handler ∈ dataKeywords, ∀ f, handler scope h σ = .error (.failure f) σ' →
      σ'.nodes = σ.nodes) ∧
    (getProperty scope h σ = .ok () σ' → ∃ ids args names, σ.nodes.strings h = .ok ids ∧
      σ.nodes.children h = .ok args ∧ propertyNames args σ = .ok names σ ∧
      (∀ id ∈ ids, (σ.widgets.widget? id).isSome = true) ∧
      (Replaced σ.nodes h ((getAnswers σ.widgets names ids).map Answer.shape) σ'.nodes ↔
        Contained σ.nodes h)) ∧
    (listProperties scope h σ = .ok () σ' → ∃ ids, σ.nodes.strings h = .ok ids ∧
      (∀ id ∈ ids, (σ.widgets.widget? id).isSome = true) ∧
      (Replaced σ.nodes h ((listAnswers σ.widgets ids).map Answer.shape) σ'.nodes ↔
        Contained σ.nodes h)) ∧
    (loadFile scope h σ = .ok () σ' → ∃ paths, σ.nodes.strings h = .ok paths ∧
      (∀ path ∈ paths, scope.settings.access.read σ.ticket path = .ok () ∧
        ∃ text, σ.disk.readText scope.settings.workFolder (diskPath scope.settings path) =
          .ok text) ∧
      (Replaced σ.nodes h ((loadAnswers scope.settings σ.disk paths).map Answer.shape) σ'.nodes ↔
        Contained σ.nodes h)) ∧
    (Disciplined σ.nodes → Contained σ.nodes h) := by
  refine ⟨fun handler hmem f hrun => backed_dataKeywords hmem σ f σ' hrun, fun hrun => ?_,
    fun hrun => ?_, fun hrun => ?_, fun hd => hd.contained h⟩
  -- each keyword on its own, through what it gives
  · obtain ⟨ids, args, names, hids, hargs, hnames, hall, hg⟩ := gives_of_getProperty hb hrun
    exact ⟨ids, args, names, hids, hargs, hnames, hall, hg.replaced_iff hl⟩
  · obtain ⟨ids, hids, hall, hg⟩ := gives_of_listProperties hb hrun
    exact ⟨ids, hids, hall, hg.replaced_iff hl⟩
  · obtain ⟨paths, hpaths, hall, hg⟩ := gives_of_loadFile hb hrun
    exact ⟨paths, hpaths, hall, hg.replaced_iff hl⟩

/-- A keyword that reads two properties of a button. -/
def asking : Session where
  nodes := (Store.empty.plant (.plain "get-widget-property" (some (.string "btn"))
    [.plain "element" none [], .plain "class" none []])).2
  widgets := WidgetStore.insert {}
    { id := "btn", element := "button", attributes := [("class", "small")] }

/-- A keyword's node that owns a node which stands below another. -/
def sharing : Session where
  nodes := ownedBelowStore

/-- The properties that have been read replace the names that were asked for. For a widget that
there is not, nothing happens. The node that is shared goes with the value, and the node that it
stood below has lost it. -/
theorem data_keywords_replace_button :
    (∃ f σ', getProperty emptyScope ⟨0, 0⟩ { asking with widgets := {} } = .error (.failure f) σ' ∧
      σ'.nodes = asking.nodes) ∧
    (∃ σ', getProperty emptyScope ⟨0, 0⟩ asking = .ok () σ' ∧
      Replaced asking.nodes ⟨0, 0⟩ [.plain "btn" none [.plain "element" (some (.string "button")) [],
        .plain "class" (some (.string "small")) []]] σ'.nodes) ∧
    ∃ σ', listProperties emptyScope ⟨1, 0⟩ sharing = .ok () σ' ∧
      ¬ Replaced sharing.nodes ⟨1, 0⟩ [] σ'.nodes := by
  have hd : Disciplined asking.nodes :=
    ((Since.refl disciplined_empty).plant _ (unwrapped_of_slots (by cbv; decide))).disciplined
  obtain ⟨f, τ, hfail, -⟩ := Outcome.of_isFailureWith (p := fun _ => true)
    (r := getProperty emptyScope ⟨0, 0⟩ { asking with widgets := {} }) (by decide +kernel)
  obtain ⟨⟨⟩, σ', hrun, -⟩ := Outcome.of_isOkWith (p := fun _ _ => true)
    (r := getProperty emptyScope ⟨0, 0⟩ asking) (by cbv)
  obtain ⟨⟨⟩, σ'', hrun', -⟩ := Outcome.of_isOkWith (p := fun _ _ => true)
    (r := listProperties emptyScope ⟨1, 0⟩ sharing) (by cbv)
  refine ⟨⟨f, τ, hfail, (data_keywords_replace emptyScope ⟨0, 0⟩ { asking with widgets := {} } τ
    hd.balanced hd.linked).1 getProperty (by simp [dataKeywords]) f hfail⟩, ⟨σ', hrun, ?_⟩, σ'',
    hrun', ?_⟩
  -- the properties asked for, as children of the widget's name
  · obtain ⟨-, hget, -, -, hcontained⟩ :=
      data_keywords_replace emptyScope ⟨0, 0⟩ asking σ' hd.balanced hd.linked
    obtain ⟨ids, args, names, hids, hargs, hnames, -, hreplaced⟩ := hget hrun
    have hids' : asking.nodes.strings ⟨0, 0⟩ = .ok ["btn"] := by rfl
    have hargs' : asking.nodes.children ⟨0, 0⟩ = .ok [⟨1, 0⟩, ⟨2, 0⟩] := by rfl
    have hnames' : propertyNames [⟨1, 0⟩, ⟨2, 0⟩] asking = .ok ["element", "class"] asking := by rfl
    obtain rfl := Except.ok.inj (hids'.symm.trans hids)
    obtain rfl := Except.ok.inj (hargs'.symm.trans hargs)
    rw [hnames'] at hnames
    injection hnames with hnames
    subst hnames
    have hanswers : getAnswers asking.widgets ["element", "class"] ["btn"] =
        [⟨"btn", none, [("element", .string "button"), ("class", .string "small")]⟩] := by
      decide +kernel
    rw [hanswers] at hreplaced
    exact hreplaced.2 (hcontained hd)
  -- the target is owned by its own child, so it is not contained
  · have hcalls : Store.empty.performAll (ownedNode ++ [.append ⟨2, 0⟩ ⟨0, 0⟩]) =
        some sharing.nodes := by cbv
    have hb : Balanced sharing.nodes := (performAll_evolves hcalls).balanced balanced_empty
    have hl : Linked sharing.nodes := performAll_linked hcalls balanced_empty linked_empty
      (unwrapped_of_slots (by decide))
    obtain ⟨-, -, hlist, -, -⟩ := data_keywords_replace emptyScope ⟨1, 0⟩ sharing σ'' hb hl
    obtain ⟨ids, hids, -, hreplaced⟩ := hlist hrun'
    have hids' : sharing.nodes.strings ⟨1, 0⟩ = .ok [] := by rfl
    obtain rfl := Except.ok.inj (hids'.symm.trans hids)
    have hchildless : sharing.nodes.childList ⟨1, 0⟩ = [] := rfl
    intro hgiven
    have hup := ((hreplaced.1 hgiven).owned ⟨0, 0⟩ rfl rfl (by simp [hchildless])).2 ⟨2, 0⟩ rfl
    exact not_reaches_of_unheld (by decide) (by decide) hup

end TreeScript.Keyword
