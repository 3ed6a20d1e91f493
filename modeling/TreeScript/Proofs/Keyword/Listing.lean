import TreeScript.Proofs.Keyword.Properties

/-!
# TreeScript — what the listing of a widget tells

A listing has a name and a value for each property that is worth telling. Set one after the other on
a new widget, they make the same widget again, unless something has not been told or has been told
under a name that stands for something else.

* `setWith`, `foldl_listing_eq_iff` — the properties of a listing on a new widget;
* `Follows`, `Follows.performAll` — the widget that is set, whichever id it goes by;
* `Retold` — widgets that are told as they are;
* `listing_retold_iff` — to set what has been listed.
-/

namespace TreeScript.Keyword

open Engine Store

variable {scope : Scope} {h : Handle} {s : Store} {id name text : String} {w x : Widget}
  {W W' : WidgetStore}

-- ---------------------------------------------------------------------------
-- One property after the other
-- ---------------------------------------------------------------------------

/-- A name that stands for an attribute when a property is set. -/
def NamesAttribute (name : String) : Prop :=
  name ≠ "" ∧ name ≠ "id" ∧ name ∉ fieldProperties

instance (name : String) : Decidable (NamesAttribute name) := by
  unfold NamesAttribute
  infer_instance

/-- A widget on which a named scalar has been set; one without a name is passed over. -/
def setWith (w : Widget) (p : String × Scalar) : Widget :=
  if p.1 = "" then w
  else if p.1 = "id" then { w with id := p.2.text false }
  else setOn w p.1 (p.2.text false) (Value.toBool (.scalar p.2))
    ((RenderType.ofWord? (p.2.text false)).getD .normal)

/-- What a listing tells of the properties that are kept apart. -/
def fieldsTold (w : Widget) : List (String × Scalar) :=
  (if w.visible then [] else [("visible", .bool false)])
    ++ [("element", .string w.element)]
    ++ (if w.hasId then [] else [("has-id", .bool false)])
    ++ (if w.renderType = .normal then [] else [("render-type", .string w.renderType.word)])

/-- What a listing tells of some attributes. -/
def attributesTold (l : List (String × String)) : List (String × Scalar) :=
  l.map fun a => (a.1, .string a.2)

/-- A listing tells the fields first and then the attributes that bind no event. -/
theorem listing_eq (w : Widget) : listing w =
    fieldsTold w ++ attributesTold (w.attributes.filter fun a => !isEventBinding a) := rfl

/-- Of the fields four can be told, each under its name. -/
theorem mem_fieldsTold {p : String × Scalar} (hp : p ∈ fieldsTold w) :
    p = ("visible", .bool false) ∨ p = ("element", .string w.element) ∨
      p = ("has-id", .bool false) ∨ p = ("render-type", .string w.renderType.word) := by
  unfold fieldsTold at hp
  simp only [List.mem_append, List.mem_ite_nil_left, List.mem_singleton] at hp
  tauto

/-- What is told of the fields has the name of a field. -/
theorem mem_fieldProperties_of_mem_fieldsTold {p : String × Scalar} (hp : p ∈ fieldsTold w) :
    p.1 ∈ fieldProperties := by
  rcases mem_fieldsTold hp with rfl | rfl | rfl | rfl <;> simp [fieldProperties]

/-- A render type is known by its own word. -/
theorem ofWord?_word (r : RenderType) : RenderType.ofWord? r.word = some r := by
  cases r <;> decide +kernel

/-- All but the element that is shown in place of a hidden one is told of these properties. -/
theorem foldl_fieldsTold (w : Widget) (id element : String) :
    (fieldsTold w).foldl setWith { id, element } =
      { w with id := id, invisibleElement := "span", attributes := [] } := by
  obtain ⟨_, e, visible, _, hasId, r, _⟩ := w
  cases visible <;> cases hasId <;> by_cases hr : r = .normal <;>
    simp [fieldsTold, setWith, setOn, hr, text_string, ofWord?_word, Value.toBool]

/-- A name that stands for an attribute sets it. -/
theorem setWith_of_namesAttribute {a : String × String} (ha : NamesAttribute a.1) :
    setWith x (a.1, .string a.2) = x.setAttribute (bareName a.1) a.2 := by
  rw [setWith, if_neg ha.1, if_neg ha.2.1, setOn_of_not_mem ha.2.2, text_string]

/-- The attributes that are told are set one after the other, so of two that go by one name the
later value is kept at the earlier place. -/
theorem foldl_attributesTold {l : List (String × String)} (hl : ∀ a ∈ l, NamesAttribute a.1) :
    (attributesTold l).foldl setWith x =
      { x with attributes :=
          Widget.setAllIn x.attributes (l.map fun a => (bareName a.1, a.2)) } := by
  induction l generalizing x with
  | nil => rfl
  | cons a l ih =>
    obtain ⟨ha, hrest⟩ := List.forall_mem_cons.1 hl
    have hstep : (attributesTold (a :: l)).foldl setWith x =
        (attributesTold l).foldl setWith (setWith x (a.1, .string a.2)) := rfl
    rw [hstep, setWith_of_namesAttribute ha, ih hrest]
    rfl

/-- A property that is set adds one attribute at most, and none unless it names one. -/
theorem length_attributes_setWith (x : Widget) (p : String × Scalar) :
    (setWith x p).attributes.length ≤ x.attributes.length +
      if NamesAttribute p.1 then 1 else 0 := by
  unfold setWith
  split
  next => exact Nat.le_add_right _ _
  next hne =>
    split
    next => exact Nat.le_add_right _ _
    next hid =>
      by_cases hfield : p.1 ∈ fieldProperties
      · rw [attributes_setOn hfield]
        exact Nat.le_add_right _ _
      · rw [setOn_of_not_mem hfield, if_pos ⟨hne, hid, hfield⟩]
        show (Widget.setIn (bareName p.1) (p.2.text false) x.attributes).length ≤ _
        rw [Widget.length_setIn]
        split <;> omega

/-- There are no more attributes than have been set. -/
theorem length_attributes_foldl (x : Widget) (ps : List (String × Scalar)) :
    (ps.foldl setWith x).attributes.length ≤
      x.attributes.length + ps.countP fun p => NamesAttribute p.1 := by
  induction ps generalizing x with
  | nil => exact Nat.le_refl _
  | cons p ps ih =>
    have hone := length_attributes_setWith x p
    have hrest := ih (setWith x p)
    rw [List.foldl_cons, List.countP_cons]
    simp only [decide_eq_true_eq] at hone ⊢
    omega

/-- A widget of which nothing is left out or told under the name of something else. -/
structure Retold (w : Widget) : Prop where
  invisible : w.invisibleElement = "span"
  distinct : (w.attributes.map Prod.fst).Nodup
  plain : ∀ a ∈ w.attributes, isEventBinding a = false ∧ NamesAttribute a.1 ∧
    a.1.toList.head? ≠ some '\\'

/-- What is told of the fields names no attribute. -/
theorem countP_fieldsTold (w : Widget) :
    (fieldsTold w).countP (fun p => NamesAttribute p.1) = 0 := by
  refine List.countP_eq_zero.2 fun p hp => ?_
  rw [decide_eq_true_eq]
  intro hname
  exact hname.2.2 (mem_fieldProperties_of_mem_fieldsTold hp)

/-- Where all attributes are told and stand for attributes, they are set one after the other. -/
theorem foldl_listing {element : String}
    (hall : ∀ a ∈ w.attributes, isEventBinding a = false ∧ NamesAttribute a.1) :
    (listing w).foldl setWith { id := w.id, element } =
      { w with
        invisibleElement := "span"
        attributes := Widget.setAllIn [] (w.attributes.map fun a => (bareName a.1, a.2)) } := by
  have htold : (w.attributes.filter fun a => !isEventBinding a) = w.attributes :=
    List.filter_eq_self.2 fun a ha => by simp [(hall a ha).1]
  rw [listing_eq, htold, List.foldl_append, foldl_fieldsTold,
    foldl_attributesTold fun a ha => (hall a ha).2]

/-- A widget that has as many attributes as all that has been set has been told of each. -/
theorem told_of_foldl_listing {element : String}
    (heq : (listing w).foldl setWith { id := w.id, element } = w) :
    ∀ a ∈ w.attributes, isEventBinding a = false ∧ NamesAttribute a.1 := by
  have hle := length_attributes_foldl { id := w.id, element } (listing w)
  rw [heq, listing_eq, List.countP_append, countP_fieldsTold, attributesTold, List.countP_map,
    List.countP_filter, List.length_nil, Nat.zero_add, Nat.zero_add] at hle
  have hall := List.countP_eq_length.1 (Nat.le_antisymm List.countP_le_length hle)
  intro a ha
  have hone := hall a ha
  simp only [Function.comp_apply, Bool.and_eq_true, decide_eq_true_eq, Bool.not_eq_true'] at hone
  exact ⟨hone.2, hone.1⟩

/-- The properties of a listing make the same widget again just if it is told as it is. -/
theorem foldl_listing_eq_iff {element : String} :
    (listing w).foldl setWith { id := w.id, element } = w ↔ Retold w := by
  constructor
  · intro heq
    have hall := told_of_foldl_listing heq
    rw [foldl_listing hall] at heq
    have hset : Widget.setAllIn [] (w.attributes.map fun a => (bareName a.1, a.2)) =
        w.attributes := congrArg Widget.attributes heq
    -- none of them was set in place of another, so they are the attributes themselves
    have hnodup := Widget.nodup_of_length_setAllIn (l := []) List.nodup_nil
      ((congrArg List.length hset).trans (by simp))
    have hsame : (w.attributes.map fun a => (bareName a.1, a.2)) = w.attributes := by
      rw [← List.nil_append (w.attributes.map _), ← Widget.setAllIn_of_nodup hnodup, hset]
    have hnames : ∀ a ∈ w.attributes, (bareName a.1, a.2) = id a :=
      List.map_inj_left.1 (hsame.trans (List.map_id _).symm)
    rw [List.nil_append, hsame] at hnodup
    refine ⟨(congrArg Widget.invisibleElement heq).symm, hnodup, fun a ha => ?_⟩
    exact ⟨(hall a ha).1, (hall a ha).2,
      bareName_eq_self_iff.1 (congrArg Prod.fst (hnames a ha))⟩
  · intro hw
    have hbare : (w.attributes.map fun a => (bareName a.1, a.2)) = w.attributes := by
      refine (List.map_congr_left fun a ha => ?_).trans (List.map_id _)
      rw [bareName_eq_self_iff.2 (hw.plain a ha).2.2]
      rfl
    rw [foldl_listing fun a ha => ⟨(hw.plain a ha).1, (hw.plain a ha).2.1⟩, hbare,
      Widget.setAllIn_of_nodup (l := []) hw.distinct, List.nil_append, ← hw.invisible]

-- ---------------------------------------------------------------------------
-- The widget that is set
-- ---------------------------------------------------------------------------

/-- A widget goes by its own id, and if that is another than the first one, nothing goes by the
first. -/
structure Follows (W : WidgetStore) (first id : String) (w : Widget) : Prop where
  there : W.widget? id = some w
  own : w.id = id
  gone : first ≠ id → W.widget? first = none

variable {first id' : String}

/-- The render type only matters where one is set. -/
theorem setOn_renderType {r : RenderType} {a : Assignment} {flag : Bool}
    (hr : assignedRenderType s a text = .ok r) : setOn w a.name text flag r =
      setOn w a.name text flag ((RenderType.ofWord? text).getD .normal) := by
  unfold assignedRenderType at hr
  by_cases hname : a.name = "render-type"
  · rw [if_pos hname] at hr
    cases hword : RenderType.ofWord? text with
    | some r' =>
      rw [hword] at hr
      obtain rfl := Except.ok.inj hr
      rfl
    | none =>
      rw [hword] at hr
      unfold Store.fail at hr
      cases hcontext : s.describe a.node <;> rw [hcontext] at hr <;> cases hr
  · simp [setOn, hname]

theorem setOn_id (w : Widget) (name text : String) (flag : Bool) (r : RenderType) :
    (setOn w name text flag r).id = w.id := keepsAttributes_setOn.id

/-- The widget gets another id, or the one that it has. -/
theorem Follows.rename (hf : Follows W first id w) (hok : W.rename id text = .ok W') :
    Follows W' first text { w with id := text } := by
  by_cases hsame : id = text
  · subst hsame
    rw [WidgetStore.rename_self] at hok
    obtain rfl := Except.ok.inj hok
    have hw : { w with id := id } = w := by rw [← hf.own]
    rwa [hw]
  · have hrenamed := WidgetStore.rename_eq_ok hsame hok
    obtain ⟨x, hx, hmoved⟩ := hrenamed.moved
    obtain rfl := Option.some.inj (hf.there.symm.trans hx)
    refine ⟨hmoved, rfl, fun hfirst => ?_⟩
    by_cases hold : first = id
    · rw [hold, hrenamed.gone]
    · rw [hrenamed.rest hold hfirst, hf.gone hold]

/-- The widget changes in its place. -/
theorem Follows.update (hf : Follows W first id w) {f : Widget → Widget}
    (hid : (f w).id = w.id) : Follows (W.update id f) first id (f w) := by
  have hbecomes := becomes_update hf.there f
  refine ⟨?_, hid.trans hf.own, fun hfirst => ?_⟩
  · rw [hbecomes, if_pos rfl]
  · rw [hbecomes, if_neg hfirst, hf.gone hfirst]

/-- A property is set on the widget under the id that it has by then. -/
theorem Follows.perform {a : Assignment} {v : Scalar} (hf : Follows W first id w)
    (hv : a.value = some (.scalar v)) (hne : a.name ≠ "")
    (hok : perform s h (.set a) (W, id) = .ok (W', id')) :
    Follows W' first id' (setWith w (a.name, v)) := by
  have htext : assignedText s a = .ok (v.text false) := by
    rw [assignedText, hv]
    rfl
  rw [Keyword.perform, htext] at hok
  replace hok : write s h a (v.text false) (W, id) = .ok (W', id') := hok
  rw [write] at hok
  by_cases hid : a.name = "id"
  -- assigning the id renames the widget, and what follows goes on under its new name
  · rw [if_pos hid] at hok
    have hwith : setWith w (a.name, v) = { w with id := v.text false } := by
      simp [setWith, hid]
    cases hrename : W.rename id (v.text false) with
    | error e =>
      rw [hrename] at hok
      unfold Store.fail at hok
      cases hcontext : s.describe a.node <;> simp [hcontext] at hok
    | ok W₁ =>
      rw [hrename] at hok
      obtain ⟨rfl, rfl⟩ := Prod.mk.inj (Except.ok.inj hok)
      rw [hwith]
      exact hf.rename hrename
  -- any other assignment changes the widget in place
  · rw [if_neg hid] at hok
    obtain ⟨r, hr, hok⟩ := bind_eq_ok_iff.1 hok
    rw [hf.there] at hok
    obtain ⟨rfl, rfl⟩ := Prod.mk.inj (Except.ok.inj hok)
    have hwith : setWith w (a.name, v) =
        setOn w a.name (v.text false) (a.value.any Value.toBool) r := by
      rw [setWith, if_neg hne, if_neg hid, ← setOn_renderType hr, hv]
      rfl
    rw [hwith]
    exact hf.update (setOn_id w _ _ _ _)

/-- What is asked to be set. -/
def Asked (todo : List Assignment) (ps : List (String × Scalar)) : Prop :=
  List.Forall₂ (fun a p => a.name = p.1 ∧ a.value = some (.scalar p.2)) todo ps

/-- The widget that is set, step by step, whichever id it goes by. -/
theorem Follows.performAll {todo : List Assignment} {ps : List (String × Scalar)}
    (hf : Follows W first id w) (htodo : Asked todo ps) (hne : ∀ p ∈ ps, p.1 ≠ "")
    (hok : performAll s h (todo.map .set) (W, id) = .ok (W', id')) :
    Follows W' first id' (ps.foldl setWith w) := by
  induction htodo generalizing W id w with
  | nil =>
    obtain ⟨rfl, rfl⟩ := Prod.mk.inj (Except.ok.inj hok)
    exact hf
  | @cons a p todo ps hone _ ih =>
    obtain ⟨hname, hvalue⟩ := hone
    obtain ⟨hp, hps⟩ := List.forall_mem_cons.1 hne
    rw [List.map_cons, performAll_cons] at hok
    obtain ⟨⟨W₁, id₁⟩, hstep, hrest⟩ := bind_eq_ok_iff.1 hok
    have hnext := hf.perform hvalue (hname ▸ hp) hstep
    rw [hname] at hnext
    exact ih hnext hps hrest

/-- Properties that stand for a field or an attribute can all be set. -/
theorem performAll_isOk {todo : List Assignment} {ps : List (String × Scalar)}
    (hw : W.widget? id = some w) (htodo : Asked todo ps)
    (hps : ∀ p ∈ ps, p.1 ≠ "id" ∧
      (p.1 = "render-type" → (RenderType.ofWord? (p.2.text false)).isSome = true)) :
    ∃ W', performAll s h (todo.map .set) (W, id) = .ok (W', id) := by
  induction htodo generalizing W w with
  | nil => exact ⟨W, rfl⟩
  | @cons a p todo ps hone _ ih =>
    obtain ⟨hname, hvalue⟩ := hone
    obtain ⟨⟨hid, hvalid⟩, hrest⟩ := List.forall_mem_cons.1 hps
    obtain ⟨r, hr, -⟩ := exists_assignedRenderType (s := s) (a := a) (hname ▸ hvalid)
    have hplaced := becomes_update hw fun x =>
      setOn x a.name (p.2.text false) (Value.toBool (.scalar p.2)) r
    obtain ⟨W', hall⟩ := ih ((hplaced id).trans (if_pos rfl)) hrest
    refine ⟨W', ?_⟩
    rw [List.map_cons, performAll_cons, perform_set hvalue (hname ▸ hid) hw hr, ← hall]
    rfl

-- ---------------------------------------------------------------------------
-- To set what has been listed
-- ---------------------------------------------------------------------------

/-- A listing as the contents of the nodes that tell it. -/
def listed (w : Widget) : List Shape := (listing w).map fun p => .plain p.1 (some p.2) []

/-- No property is listed as an expression. -/
theorem ne_expr_of_mem_listing {p : String × Scalar} (hp : p ∈ listing w) (text : String) :
    p.2 ≠ .expr text := by
  rw [listing_eq, List.mem_append] at hp
  rcases hp with hp | hp
  · rcases mem_fieldsTold hp with rfl | rfl | rfl | rfl <;> nofun
  · obtain ⟨a, -, rfl⟩ := List.mem_map.1 hp
    nofun

/-- Nothing is listed as an id, and a render type that is listed is one. -/
theorem validRenderType_of_mem_listing (hw : Retold w) {p : String × Scalar} (hp : p ∈ listing w) :
    p.1 ≠ "id" ∧
      (p.1 = "render-type" → (RenderType.ofWord? (p.2.text false)).isSome = true) := by
  rw [listing_eq, List.mem_append] at hp
  rcases hp with hp | hp
  · rcases mem_fieldsTold hp with rfl | rfl | rfl | rfl <;> simp [text_string, ofWord?_word]
  · obtain ⟨a, ha, rfl⟩ := List.mem_map.1 hp
    have hname := (hw.plain a (List.mem_of_mem_filter ha)).2.1
    refine ⟨hname.2.1, fun heq => absurd ?_ hname.2.2⟩
    rw [show a.1 = "render-type" from heq]
    decide

/-- A scalar that is no expression stands for itself. -/
theorem singleValue_of_scalar {n : Node} {v : Scalar} (hn : s.node? h = some n)
    (hv : n.value = some (.scalar v)) (hplain : ∀ text, v ≠ .expr text) :
    s.singleValue h = .ok (some (.scalar v)) := by
  have hvalue : s.value h = .ok (some (.scalar v)) := by
    simp [Store.value, Store.node, hn, hv, Except.map]
  rw [Store.singleValue, Store.resolve, hvalue]
  cases v <;> first | rfl | exact absurd rfl (hplain _)

/-- The nodes of a listing ask for its properties to be set. -/
theorem assignments_listed {σ : Session} {args : List Handle}
    (hargs : BearsAll σ.nodes args (listed w)) :
    ∃ todo, assignments args σ = .ok todo σ ∧
      Asked todo ((listing w).filter (·.1 ≠ "")) := by
  have hall : List.Forall₂ (fun arg p => σ.nodes.name arg = .ok p.1 ∧
      σ.nodes.singleValue arg = .ok p.2) args
        ((listing w).map fun p => (p.1, some (Value.scalar p.2))) := by
    have hbears := bearsAll_iff.1 hargs
    rw [listed, List.forall₂_map_right_iff] at hbears
    rw [List.forall₂_map_right_iff]
    have hplain : List.Forall₂ (fun p arg => (∀ text, p.2 ≠ .expr text) ∧
        Bears σ.nodes arg (.plain p.1 (some p.2) [])) (listing w) args :=
      (List.forall₂_and_left _ _).2 ⟨fun p hp => ne_expr_of_mem_listing hp, hbears.flip⟩
    refine hplain.flip.imp fun arg p hone => ?_
    obtain ⟨hplain, n, hn, hname, hvalue, -⟩ := hone
    refine ⟨?_, singleValue_of_scalar hn hvalue hplain⟩
    simp [Store.name, Store.node, hn, hname, Except.map]
  obtain ⟨todo, htodo, hasked⟩ := assignments_apply hall
  rw [List.filter_map, List.forall₂_map_right_iff] at hasked
  exact ⟨todo, htodo, hasked⟩

/-- Properties without a name are passed over. -/
theorem foldl_named (x : Widget) (ps : List (String × Scalar)) :
    (ps.filter (·.1 ≠ "")).foldl setWith x = ps.foldl setWith x := by
  rw [List.foldl_filter]
  congr
  funext x p
  by_cases hp : p.1 = ""
  · simp [hp, setWith]
  · simp [hp]

/-- What has been listed makes the same widget again just if that is told as it is. -/
theorem setProperty_listed_iff {σ : Session} {args : List Handle} {element : String}
    (hw : σ.widgets.widget? w.id = some { id := w.id, element })
    (hids : σ.nodes.strings h = .ok [w.id]) (hargs : σ.nodes.children h = .ok args)
    (hlisted : BearsAll σ.nodes args (listed w)) :
    (∃ W, setProperty scope h σ = .ok () { σ with widgets := W } ∧ W.widget? w.id = some w) ↔
      Retold w := by
  obtain ⟨todo, htodo, hasked⟩ := assignments_listed hlisted
  have hvisit : performAll σ.nodes h (.visit w.id :: todo.map .set) (σ.widgets, "") =
      performAll σ.nodes h (todo.map .set) (σ.widgets, w.id) := by
    rw [performAll_cons, perform_visit hw]
    rfl
  have hplan : ([w.id].flatMap fun id => WidgetStep.visit id :: todo.map .set) =
      .visit w.id :: todo.map .set := by simp
  have hstart : Follows σ.widgets w.id w.id { id := w.id, element } :=
    ⟨hw, rfl, fun hne => absurd rfl hne⟩
  -- where the steps succeed, the widget has been given what the listing tells
  have hend : ∀ {W id'}, performAll σ.nodes h (todo.map .set) (σ.widgets, w.id) = .ok (W, id') →
      Follows W w.id id' ((listing w).foldl setWith { id := w.id, element }) := by
    intro W id' hok
    have hfollows := hstart.performAll hasked (by simp) hok
    rwa [foldl_named] at hfollows
  simp only [setProperty_eq_ok_iff hids hargs htodo, hplan, hvisit]
  constructor
  -- a widget that was renamed is no longer found under its own name
  · rintro ⟨W, ⟨⟨W', id'⟩, hok, hsession⟩, hthere⟩
    obtain rfl : W = W' := congrArg Session.widgets hsession
    have hfollows := hend hok
    by_cases hid : w.id = id'
    · subst hid
      exact foldl_listing_eq_iff.1 (Option.some.inj (hfollows.there.symm.trans hthere))
    · cases (hfollows.gone hid).symm.trans hthere
  -- a listing that is retold names only render types that exist, so no step fails
  · intro hretold
    obtain ⟨W, hok⟩ := performAll_isOk (s := σ.nodes) (h := h) hw hasked fun p hp =>
      validRenderType_of_mem_listing hretold (List.mem_of_mem_filter hp)
    refine ⟨W, ⟨(W, w.id), hok, rfl⟩, ?_⟩
    rw [(hend hok).there, foldl_listing_eq_iff.2 hretold]

/-- A node that leads to strings is there. -/
theorem exists_children_of_strings {ids : List String} (hids : s.strings h = .ok ids) :
    ∃ args, s.children h = .ok args := by
  rw [Store.strings, Store.values, Store.resolve] at hids
  obtain ⟨values, hvalues, -⟩ := bind_eq_ok_iff.1 hids
  obtain ⟨items, hitems, -⟩ := bind_eq_ok_iff.1 hvalues
  obtain ⟨v, hv, -⟩ := bind_eq_ok_iff.1 hitems
  rw [liftM_eq_ok_iff] at hv
  cases hn : s.node? h with
  | some n => exact ⟨n.children, children_eq_ok.2 ⟨n, hn, rfl⟩⟩
  | none => simp [Store.value, Store.node, hn, Except.map] at hv

/-- What has been listed of a widget stands below the node that asks for it. To set just that on a
new widget with the same id, wherever this is done, makes the same widget, unless an attribute is
told under a name that stands for something else, or is an event binding and is not told, or
another element is shown in place of the hidden widget, which is never told. -/
theorem listing_retold_iff (scope : Scope) (σ : Session) (h : Handle) (w : Widget)
    (hw : σ.widgets.widget? w.id = some w) (hd : Disciplined σ.nodes)
    (hids : σ.nodes.strings h = .ok [w.id]) :
    (∃ u, listProperties scope h σ = .ok () { σ with nodes := u } ∧
      Replaced σ.nodes h [.plain w.id none (listed w)] u) ∧
    ∀ (scope : Scope) (τ : Session) (g : Handle) (args : List Handle) (element : String),
      τ.widgets.widget? w.id = some { id := w.id, element } → τ.nodes.strings g = .ok [w.id] →
      τ.nodes.children g = .ok args → BearsAll τ.nodes args (listed w) →
        ((∃ W, setProperty scope g τ = .ok () { τ with widgets := W } ∧
          W.widget? w.id = some w) ↔ Retold w) := by
  refine ⟨?_, fun scope τ g args element hfresh hids hargs hlisted =>
    setProperty_listed_iff hfresh hids hargs hlisted⟩
  obtain ⟨args, hargs⟩ := exists_children_of_strings hids
  obtain ⟨u, hrun, hreplaced⟩ :=
    listProperties_replaces scope hd hids hargs (by simp [hw])
  refine ⟨u, hrun, ?_⟩
  have hanswers : (listAnswers σ.widgets [w.id]).map Answer.shape =
      [.plain w.id none (listed w)] := by
    simp [listAnswers, hw, Answer.shape, listed]
  rwa [hanswers] at hreplaced

/-- A keyword that lists the only widget that there is. -/
def listingButton (w : Widget) : Session where
  nodes := (Store.empty.plant (.plain "list-widget-properties" (some (.string "btn")) [])).2
  widgets := WidgetStore.insert {} w

/-- A keyword that sets what is told of the button on a new widget. -/
def settingListed : Session where
  nodes := (Store.empty.plant (.plain "set-widget-property" (some (.string "btn"))
    (listed button))).2
  widgets := WidgetStore.insert {} { id := "btn", element := "div" }

/-- The button is made again. One that is hidden behind another element is listed in the same way,
and what is made is not that one. -/
theorem listing_retold_iff_button :
    (∃ u, listProperties emptyScope ⟨0, 0⟩ (listingButton button) =
        .ok () { listingButton button with nodes := u } ∧
      Replaced (listingButton button).nodes ⟨0, 0⟩ [.plain "btn" none (listed button)] u) ∧
    (∃ W, setProperty emptyScope ⟨0, 0⟩ settingListed = .ok () { settingListed with widgets := W } ∧
      W.widget? "btn" = some button) ∧
    listed { button with invisibleElement := "div" } = listed button ∧
    ¬ ∃ W, setProperty emptyScope ⟨0, 0⟩ settingListed =
        .ok () { settingListed with widgets := W } ∧
      W.widget? "btn" = some { button with invisibleElement := "div" } := by
  have hd : ∀ w, Disciplined (listingButton w).nodes := fun w =>
    ((Since.refl disciplined_empty).plant _ (unwrapped_of_slots (by cbv; decide))).disciplined
  have hids : settingListed.nodes.strings ⟨0, 0⟩ = .ok ["btn"] := by rfl
  have hargs : settingListed.nodes.children ⟨0, 0⟩ = .ok [⟨1, 0⟩, ⟨2, 0⟩, ⟨3, 0⟩] := by rfl
  have hlisted : BearsAll settingListed.nodes [⟨1, 0⟩, ⟨2, 0⟩, ⟨3, 0⟩] (listed button) :=
    ⟨_, _, rfl, ⟨_, rfl, rfl, rfl, rfl⟩, _, _, rfl, ⟨_, rfl, rfl, rfl, rfl⟩, _, _, rfl,
      ⟨_, rfl, rfl, rfl, rfl⟩, rfl⟩
  have hfresh : settingListed.widgets.widget? "btn" = some { id := "btn", element := "div" } := by
    decide +kernel
  have hsame : listed { button with invisibleElement := "div" } = listed button := rfl
  obtain ⟨hlist, hset⟩ := listing_retold_iff emptyScope (listingButton button) ⟨0, 0⟩ button
    (by decide +kernel) (hd _) (by rfl)
  obtain ⟨-, hset'⟩ := listing_retold_iff emptyScope
    (listingButton { button with invisibleElement := "div" }) ⟨0, 0⟩
    { button with invisibleElement := "div" } (by decide +kernel) (hd _) (by rfl)
  refine ⟨hlist, (hset emptyScope settingListed ⟨0, 0⟩ _ "div" hfresh hids hargs hlisted).2 ?_,
    hsame, fun hmade => ?_⟩
  -- the plain button is retold, the one with an invisible element is listed the same
  · exact ⟨rfl, by decide, by decide⟩
  · have hretold := (hset' emptyScope settingListed ⟨0, 0⟩ _ "div" hfresh hids hargs
      (hsame ▸ hlisted)).1 hmade
    exact absurd hretold.invisible (by decide)

end TreeScript.Keyword
