import TreeScript.Proofs.Keyword.Giving
import TreeScript.Proofs.Widget.Calls

/-!
# TreeScript — properties are read as they were set

Three keywords take the name of a property apart, each for itself: one to set it, one to read it
and one to delete it. A name stands for a field of the widget or, without a backslash in front, for
an attribute. Of the built-in properties `has-name` is an attribute.

* `carryOut_eq_ok_iff`, `setProperty_eq_ok_iff` — steps that give a result;
* `bareName_eq_iff` — names with a backslash in front;
* `readProperty_setOn_self`, `readProperty_setOn_eq_iff`, `readProperty_removeAttribute_eq_iff` —
  what setting and deleting one property does to all of them;
* `setProperty_one`, `told_of_widget`, `deleteProperty_one` — the keywords for one property;
* `properties_agree` — what has been set is read, and what has been deleted is not.
-/

namespace TreeScript.Keyword

open Engine Store

variable {scope : Scope} {h arg : Handle} {s : Store} {σ σ' : Session} {id name other text : String}
  {w : Widget} {flag : Bool} {r : RenderType}

-- ---------------------------------------------------------------------------
-- Steps that give a result
-- ---------------------------------------------------------------------------

theorem performAll_cons (s : Store) (h : Handle) (step : WidgetStep) (steps : List WidgetStep)
    (w : WidgetStore × String) : performAll s h (step :: steps) w =
      perform s h step w >>= performAll s h steps := List.foldlM_cons

/-- Steps give a result just if they do on the widgets alone, and nothing else changes. -/
theorem carryOut_eq_ok_iff {steps : List WidgetStep} : carryOut h steps id σ = .ok () σ' ↔
    ∃ w, performAll σ.nodes h steps (σ.widgets, id) = .ok w ∧ σ' = { σ with widgets := w.1 } := by
  induction steps generalizing id σ with
  | nil =>
    constructor
    · intro hrun
      cases hrun
      exact ⟨_, rfl, rfl⟩
    · rintro ⟨w, hw, rfl⟩
      obtain rfl : (σ.widgets, id) = w := Except.ok.inj hw
      rfl
  | cons step steps ih =>
    rw [carryOut_cons, performAll_cons]
    cases perform σ.nodes h step (σ.widgets, id) with
    | ok w =>
      show carryOut h steps w.2 { σ with widgets := w.1 } = _ ↔ _
      rw [ih]
      rfl
    | error e =>
      constructor
      · intro hrun
        cases hrun
      · rintro ⟨w, hw, -⟩
        cases hw

/-- What nodes ask to set, one after the other; a nameless node asks for nothing. -/
theorem assignments_apply {args : List Handle} {asked : List (String × Option Value)}
    (hasked : List.Forall₂ (fun arg p => σ.nodes.name arg = .ok p.1 ∧
      σ.nodes.singleValue arg = .ok p.2) args asked) :
    ∃ todo, assignments args σ = .ok todo σ ∧
      List.Forall₂ (fun a p => a.name = p.1 ∧ a.value = p.2) todo (asked.filter (·.1 ≠ "")) := by
  induction hasked with
  | nil => exact ⟨[], rfl, .nil⟩
  | @cons arg p args asked hone _ ih =>
    obtain ⟨todo, htodo, hall⟩ := ih
    obtain ⟨hname, hvalue⟩ := hone
    rw [assignments, nodes_bind_apply, bind_of_ok (lift_apply hname σ)]
    by_cases hp : p.1 = ""
    · rw [if_pos hp, List.filter_cons_of_neg (by simpa using hp)]
      exact ⟨todo, htodo, hall⟩
    · rw [if_neg hp, nodes_bind_apply, bind_of_ok (lift_halt_apply hvalue σ), bind_of_ok htodo,
        List.filter_cons_of_pos (by simpa using hp)]
      exact ⟨⟨arg, p.1, p.2⟩ :: todo, rfl, .cons ⟨rfl, rfl⟩ hall⟩

/-- Setting properties gives a result just if the steps do on the widgets alone. -/
theorem setProperty_eq_ok_iff {ids : List String} {args : List Handle} {todo : List Assignment}
    (hids : σ.nodes.strings h = .ok ids) (hargs : σ.nodes.children h = .ok args)
    (htodo : assignments args σ = .ok todo σ) : setProperty scope h σ = .ok () σ' ↔
      ∃ w, performAll σ.nodes h (ids.flatMap fun id => .visit id :: todo.map .set)
        (σ.widgets, "") = .ok w ∧ σ' = { σ with widgets := w.1 } := by
  have hplan : setPlan h σ = .ok (ids.flatMap fun id => .visit id :: todo.map .set) σ := by
    rw [setPlan, nodes_bind_apply, bind_of_ok (lift_halt_apply hids σ), nodes_bind_apply,
      bind_of_ok (lift_apply hargs σ), bind_of_ok htodo]
    rfl
  rw [setProperty_eq, bind_of_ok hplan, carryOut_eq_ok_iff]

-- ---------------------------------------------------------------------------
-- One property of one widget
-- ---------------------------------------------------------------------------

/-- The properties that a widget keeps apart from its attributes. -/
def fieldProperties : List String :=
  ["visible", "invisible-element", "element", "has-id", "render-type"]

/-- There are five properties that a widget keeps apart from its attributes. -/
theorem mem_fieldProperties : name ∈ fieldProperties ↔ name = "visible" ∨
    name = "invisible-element" ∨ name = "element" ∨ name = "has-id" ∨ name = "render-type" := by
  simp [fieldProperties]

/-- One built-in property is an attribute. -/
theorem mem_builtInProperties : name ∈ builtInProperties ↔
    name ∈ fieldProperties ∨ name = "has-name" := by
  simp only [builtInProperties, fieldProperties, List.mem_cons, List.not_mem_nil, or_false]
  tauto

/-- A property that is not kept apart is read from the attribute it names. -/
theorem readProperty_of_not_mem (hname : name ∉ fieldProperties) :
    readProperty w name = (w.attribute? (bareName name)).map .string := by
  simp only [mem_fieldProperties, not_or] at hname
  simp [readProperty, hname]

/-- A property that is not kept apart is set as the attribute it names. -/
theorem setOn_of_not_mem (hname : name ∉ fieldProperties) :
    setOn w name text flag r = w.setAttribute (bareName name) text := by
  simp only [mem_fieldProperties, not_or] at hname
  simp [setOn, hname]

/-- Attributes have nothing to do with the properties that are kept apart. -/
theorem readProperty_attributes (hname : name ∈ fieldProperties) (l : List (String × String)) :
    readProperty { w with attributes := l } name = readProperty w name := by
  rcases mem_fieldProperties.1 hname with rfl | rfl | rfl | rfl | rfl <;> rfl

/-- A property that is kept apart leaves the attributes alone. -/
theorem attributes_setOn (hname : name ∈ fieldProperties) (w : Widget) (text : String)
    (flag : Bool) (r : RenderType) :
    (setOn w name text flag r).attributes = w.attributes := by
  rcases mem_fieldProperties.1 hname with rfl | rfl | rfl | rfl | rfl <;> rfl

/-- A name loses a backslash in front, if it has one. -/
theorem bareName_cases (name : String) :
    (∃ rest, name.toList = '\\' :: rest ∧ bareName name = String.ofList rest) ∨
      name.toList.head? ≠ some '\\' ∧ bareName name = name := by
  unfold bareName
  split
  next rest hname => exact Or.inl ⟨rest, hname, rfl⟩
  next hname =>
    refine Or.inr ⟨fun hhead => ?_, rfl⟩
    obtain ⟨rest, hrest⟩ := List.head?_eq_some_iff.1 hhead
    exact hname rest hrest

/-- A name goes for itself if it has no backslash in front. -/
theorem bareName_eq_self_iff : bareName name = name ↔ name.toList.head? ≠ some '\\' := by
  rcases bareName_cases name with ⟨rest, hname, hbare⟩ | ⟨hhead, hbare⟩
  · have hne : bareName name ≠ name := by
      intro heq
      have hlen := congrArg (fun n => n.toList.length) (hbare.symm.trans heq)
      simp [hname] at hlen
    simp [hne, hname]
  · simp [hhead, hbare]

/-- A name without a backslash in front is meant with and without one. -/
theorem bareName_eq_iff (hother : other.toList.head? ≠ some '\\') :
    bareName name = other ↔ name = other ∨ name = "\\" ++ other := by
  constructor
  · rintro rfl
    rcases bareName_cases name with ⟨rest, hname, hbare⟩ | ⟨-, hbare⟩
    · refine Or.inr (String.toList_inj.1 ?_)
      simp [hname, hbare]
    · exact Or.inl hbare.symm
  · rintro (rfl | rfl)
    · exact bareName_eq_self_iff.2 hother
    · simp [bareName]

/-- What a property is read as when it has been set to a text. -/
def readAs (name text : String) : Scalar :=
  if name = "visible" ∨ name = "has-id" then .bool (Value.toBool (.scalar (.string text)))
  else if name = "render-type" then .string (text.map Char.toLower)
  else .string text

/-- A render type is known by its word in small letters. -/
theorem word_of_ofWord? (hr : RenderType.ofWord? text = some r) :
    r.word = text.map Char.toLower := by
  simpa using List.find?_some hr

/-- A property is read as it was set. A render type is so only if its word is known. -/
theorem readProperty_setOn_self (hr : name = "render-type" → RenderType.ofWord? text = some r) :
    readProperty (setOn w name text (Value.toBool (.scalar (.string text))) r) name =
      some (readAs name text) := by
  by_cases hfield : name ∈ fieldProperties
  · rcases mem_fieldProperties.1 hfield with rfl | rfl | rfl | rfl | rfl
    · rfl
    · rfl
    · rfl
    · rfl
    · show some (Scalar.string r.word) = _
      rw [word_of_ofWord? (hr rfl)]
      rfl
  · rw [readProperty_of_not_mem hfield, setOn_of_not_mem hfield, Widget.attribute?_setAttribute,
      if_pos rfl]
    simp only [mem_fieldProperties, not_or] at hfield
    simp [readAs, hfield]

/-- The built-in name is read from an attribute. -/
theorem readProperty_hasName (w : Widget) :
    readProperty w "has-name" = (w.attribute? "has-name").map .string :=
  readProperty_of_not_mem (by decide)

/-- A property that is kept apart changes no other. -/
theorem readProperty_setOn_of_mem (hname : name ∈ fieldProperties)
    (hother : other ∈ builtInProperties) (hne : other ≠ name) :
    readProperty (setOn w name text flag r) other = readProperty w other := by
  rcases mem_builtInProperties.1 hother with hfield | rfl
  · rcases mem_fieldProperties.1 hname with rfl | rfl | rfl | rfl | rfl <;>
      rcases mem_fieldProperties.1 hfield with rfl | rfl | rfl | rfl | rfl <;>
        first | rfl | exact absurd rfl hne
  · rw [readProperty_hasName, readProperty_hasName, Widget.attribute?, attributes_setOn hname]
    rfl

/-- Where the attribute of one name changes, a built-in property does only if it is kept as an
attribute and the name is that one escaped. -/
theorem readProperty_of_attribute {l : List (String × String)} {v : Option String}
    (hother : other ∈ builtInProperties) (hne : other ≠ name)
    (hl : ({ w with attributes := l } : Widget).attribute? "has-name" =
      if "has-name" = bareName name then v else w.attribute? "has-name") :
    readProperty { w with attributes := l } other =
      if other = "has-name" ∧ name = "\\has-name" then v.map .string
      else readProperty w other := by
  rcases mem_builtInProperties.1 hother with hfield | rfl
  · have hnot : other ≠ "has-name" := by
      rintro rfl
      simp [fieldProperties] at hfield
    rw [if_neg fun hboth => hnot hboth.1, readProperty_attributes hfield]
  · have hbare : "has-name" = bareName name ↔ name = "\\has-name" := by
      rw [eq_comm, bareName_eq_iff (by decide)]
      simp [hne.symm]
    simp only [readProperty_hasName, hl, hbare, true_and]
    split <;> rfl

/-- Setting a property leaves every other built-in one as it was, but for the one that is kept in an
attribute and can be set by its escaped name. -/
theorem readProperty_setOn_of_ne (hother : other ∈ builtInProperties) (hne : other ≠ name) :
    readProperty (setOn w name text flag r) other =
      if other = "has-name" ∧ name = "\\has-name" then some (.string text)
      else readProperty w other := by
  by_cases hname : name ∈ fieldProperties
  · have hplain : name ≠ "\\has-name" := by
      rintro rfl
      exact absurd hname (by decide)
    rw [if_neg fun hboth => hplain hboth.2, readProperty_setOn_of_mem hname hother hne]
  · rw [setOn_of_not_mem hname]
    exact readProperty_of_attribute hother hne (Widget.attribute?_setAttribute w _ text _)

/-- Deleting a property leaves every other built-in one as it was, with the same exception. -/
theorem readProperty_removeAttribute_of_ne (hother : other ∈ builtInProperties)
    (hne : other ≠ name) : readProperty (w.removeAttribute (bareName name)) other =
      if other = "has-name" ∧ name = "\\has-name" then none else readProperty w other :=
  readProperty_of_attribute hother hne (Widget.attribute?_removeAttribute w _ _)

/-- So just this one may have changed when another has been set. -/
theorem readProperty_setOn_eq_iff (hother : other ∈ builtInProperties) (hne : other ≠ name) :
    readProperty (setOn w name text flag r) other = readProperty w other ↔
      ¬ (other = "has-name" ∧ name = "\\has-name" ∧ w.attribute? "has-name" ≠ some text) := by
  rw [readProperty_setOn_of_ne hother hne]
  split
  next hboth =>
    obtain ⟨rfl, rfl⟩ := hboth
    rw [readProperty_hasName]
    cases w.attribute? "has-name" with
    | none => simp
    | some old => simp [eq_comm]
  next hnot => exact ⟨fun _ hall => hnot ⟨hall.1, hall.2.1⟩, fun _ => rfl⟩

/-- And just this one has gone when another that was there has been deleted. -/
theorem readProperty_removeAttribute_eq_iff (hother : other ∈ builtInProperties)
    (hname : name ∉ builtInProperties) (hthere : (readProperty w name).isSome = true) :
    readProperty (w.removeAttribute (bareName name)) other = readProperty w other ↔
      ¬ (other = "has-name" ∧ name = "\\has-name") := by
  have hne : other ≠ name := fun heq => hname (heq ▸ hother)
  rw [readProperty_removeAttribute_of_ne hother hne]
  split
  next hboth =>
    obtain ⟨rfl, rfl⟩ := hboth
    have hsame : readProperty w "\\has-name" = readProperty w "has-name" := by
      rw [readProperty_hasName, readProperty_of_not_mem (by decide)]
      rfl
    rw [hsame] at hthere
    refine ⟨fun heq => ?_, fun hnot => absurd ⟨rfl, rfl⟩ hnot⟩
    simp [← heq] at hthere
  next hnot => exact ⟨fun _ => hnot, fun _ => rfl⟩

/-- A property that has been deleted is not read any more. -/
theorem readProperty_removeAttribute_self (hname : name ∉ builtInProperties) :
    readProperty (w.removeAttribute (bareName name)) name = none := by
  have hfield : name ∉ fieldProperties := fun hin => hname (mem_builtInProperties.2 (Or.inl hin))
  rw [readProperty_of_not_mem hfield, Widget.attribute?_removeAttribute, if_pos rfl]
  rfl

-- ---------------------------------------------------------------------------
-- The three keywords for one property
-- ---------------------------------------------------------------------------

/-- The node of a keyword that is about one property of one widget. -/
structure About (s : Store) (h : Handle) (id name : String) (arg : Handle) : Prop where
  strings : s.strings h = .ok [id]
  children : s.children h = .ok [arg]
  name : s.name arg = .ok name

/-- To ask for a property leaves these contents below the node that asks, whoever asks with these
widgets in a store that is in order. -/
def Told (W : WidgetStore) (id name : String) (contents : List Shape) : Prop :=
  ∀ (scope : Scope) (τ : Session) (g arg : Handle), τ.widgets = W → Disciplined τ.nodes →
    About τ.nodes g id name arg → ∃ u, getProperty scope g τ = .ok () { τ with nodes := u } ∧
      Replaced τ.nodes g contents u

/-- One argument with a name asks for one property. -/
theorem propertyNames_one (hname : σ.nodes.name arg = .ok name) (hne : name ≠ "") :
    propertyNames [arg] σ = .ok [name] σ := by
  rw [propertyNames, nodes_bind_apply, List.mapM_cons, bind_assoc,
    bind_of_ok (lift_apply hname σ)]
  show (EStateM.Result.ok ([name].filter (· != "")) σ : EStateM.Result Halt Session _) = _
  simp [hne]

/-- A widget that is there is asked for one property, and the answer tells it, or there is no answer
if it has none. -/
theorem told_of_widget {W : WidgetStore} (hw : W.widget? id = some w) (hne : name ≠ "") :
    Told W id name ((readProperty w name).toList.map fun v =>
      .plain id none [.plain name (some v) []]) := by
  rintro scope τ g arg rfl hd habout
  obtain ⟨u, hrun, hreplaced⟩ := getProperty_replaces scope hd habout.strings
    habout.children (propertyNames_one habout.name hne) (by simp [hw])
  refine ⟨u, hrun, ?_⟩
  have hfound : foundIn τ.widgets [name] id =
      (readProperty w name).toList.map fun v => (name, v) := by
    rw [foundIn, hw]
    cases hread : readProperty w name <;> simp [hread]
  have hanswers : (getAnswers τ.widgets [name] [id]).map Answer.shape =
      (readProperty w name).toList.map fun v => .plain id none [.plain name (some v) []] := by
    rw [getAnswers]
    cases hread : readProperty w name with
    | none => simp [hfound, hread]
    | some v => simp [hfound, hread, List.eraseDups_cons, Answer.shape]
  rwa [hanswers] at hreplaced

theorem text_string (text : String) : (Scalar.string text).text false = text :=
  String.ofList_toList

/-- A property other than the id is set to a scalar. -/
theorem perform_set {W : WidgetStore} {a : Assignment} {v : Scalar}
    (hv : a.value = some (.scalar v)) (hid : a.name ≠ "id") (hw : W.widget? id = some w)
    (hr : assignedRenderType s a (v.text false) = .ok r) : perform s h (.set a) (W, id) =
      .ok (W.update id fun x =>
        setOn x a.name (v.text false) (Value.toBool (.scalar v)) r, id) := by
  have htext : assignedText s a = .ok (v.text false) := by
    rw [assignedText, hv]
    rfl
  rw [perform, htext]
  show write s h a (v.text false) (W, id) = _
  rw [write, if_neg hid, hr]
  simp only [hw, hv]
  rfl

/-- A valid text gives a render type, which only matters where a render type is set. -/
theorem exists_assignedRenderType {a : Assignment}
    (hvalid : a.name = "render-type" → (RenderType.ofWord? text).isSome = true) :
    ∃ r, assignedRenderType s a text = .ok r ∧
      (a.name = "render-type" → RenderType.ofWord? text = some r) := by
  unfold assignedRenderType
  by_cases hname : a.name = "render-type"
  · obtain ⟨r, hr⟩ := Option.isSome_iff_exists.1 (hvalid hname)
    exact ⟨r, by rw [if_pos hname, hr], fun _ => hr⟩
  · exact ⟨.normal, by rw [if_neg hname], fun heq => absurd heq hname⟩

theorem perform_visit {W : WidgetStore} (hw : W.widget? id = some w) :
    perform s h (.visit id) (W, other) = .ok (W, id) := by
  rw [perform, hw]

/-- One property is set to a text. -/
theorem setProperty_one (scope : Scope) (hw : σ.widgets.widget? id = some w) (hne : name ≠ "")
    (hid : name ≠ "id")
    (hvalid : name = "render-type" → (RenderType.ofWord? text).isSome = true)
    (habout : About σ.nodes h id name arg)
    (hvalue : σ.nodes.singleValue arg = .ok (some (.scalar (.string text)))) :
    ∃ r, (name = "render-type" → RenderType.ofWord? text = some r) ∧
      setProperty scope h σ = .ok () { σ with widgets := σ.widgets.update id (fun x =>
        setOn x name text (Value.toBool (.scalar (.string text))) r) } := by
  obtain ⟨todo, htodo, hall⟩ := assignments_apply (σ := σ)
    (.cons (b := (name, some (.scalar (.string text)))) ⟨habout.name, hvalue⟩ .nil)
  rw [List.filter_cons_of_pos (by simpa using hne), List.filter_nil,
    List.forall₂_cons_right_iff] at hall
  obtain ⟨a, _, ⟨rfl, hvalue'⟩, hnil, rfl⟩ := hall
  obtain rfl := List.forall₂_nil_right_iff.1 hnil
  -- the render type is read only where that property is set
  obtain ⟨r, hr, hword⟩ := exists_assignedRenderType (s := σ.nodes) hvalid
  have hset := perform_set (h := h) (v := .string text) hvalue' hid hw (by rwa [text_string])
  rw [text_string] at hset
  refine ⟨r, hword,
    (setProperty_eq_ok_iff habout.strings habout.children htodo).2 ⟨(_, id), ?_, rfl⟩⟩
  show performAll σ.nodes h [.visit id, .set a] (σ.widgets, "") = _
  rw [performAll_cons, perform_visit hw]
  show performAll σ.nodes h [.set a] (σ.widgets, id) = _
  rw [performAll_cons, hset]
  rfl

/-- A node without a value leads to no strings. -/
theorem isSome_value_of_strings {n : Node} {ids : List String} (hn : s.node? h = some n)
    (hids : s.strings h = .ok (id :: ids)) : n.value.isSome = true := by
  cases hv : n.value with
  | some v => rfl
  | none =>
    have hvalue : s.value h = .ok none := by
      simp [Store.value, Store.node, hn, hv, Except.map]
    have hnone : s.strings h = .ok [] := by
      rw [Store.strings, Store.values, Store.resolve, hvalue]
      rfl
    cases hnone.symm.trans hids

/-- One property that is not built in is deleted. -/
theorem deleteProperty_one (hw : σ.widgets.widget? id = some w) (hne : name ≠ "")
    (hname : name ∉ builtInProperties) (habout : About σ.nodes h id name arg) :
    deleteProperty scope h σ = .ok () { σ with widgets := σ.widgets.update id (fun x =>
      x.removeAttribute (bareName name)) } := by
  obtain ⟨n, hn, hchildren⟩ := children_eq_ok.1 habout.children
  have hnode : σ.nodes.node h = .ok n := by
    rw [Store.node, hn]
  have hplan : deletePlan h σ = .ok [.visit id, .drop [name]] σ := by
    rw [deletePlan, nodes_bind_apply, bind_of_ok (lift_apply hnode σ), hchildren,
      if_pos ⟨isSome_value_of_strings hn habout.strings, by simp⟩,
      bind_of_ok (lift_halt_apply habout.strings σ),
      bind_of_ok (propertyNames_one habout.name hne)]
    simp [hname]
    rfl
  rw [deleteProperty_eq, bind_of_ok hplan]
  refine carryOut_eq_ok_iff.2 ⟨(_, id), ?_, rfl⟩
  rw [performAll_cons, perform_visit hw]
  rfl

-- ---------------------------------------------------------------------------
-- The three keywords agree
-- ---------------------------------------------------------------------------

/-- A widget has taken the place of the one with its id, and the others are as they were. -/
def Becomes (W W' : WidgetStore) (id : String) (w : Widget) : Prop :=
  ∀ other, W'.widget? other = if other = id then some w else W.widget? other

/-- A widget has kept its id and all attributes but one. Those that it had stand in their order, and
only that one may have come in as the last. -/
structure KeepsAttributes (w w' : Widget) (name : String) : Prop where
  id : w'.id = w.id
  others : w'.attributes.filter (·.1 != name) = w.attributes.filter (·.1 != name)
  order : w'.attributes.map Prod.fst = w.attributes.map Prod.fst ∨
    name ∉ w.attributes.map Prod.fst ∧
      w'.attributes.map Prod.fst = w.attributes.map Prod.fst ++ [name]

theorem becomes_update {W : WidgetStore} (hw : W.widget? id = some w) (f : Widget → Widget) :
    Becomes W (W.update id f) id (f w) := by
  intro other
  rw [WidgetStore.widget?_update, hw, Option.map_some]

/-- Setting a property leaves all attributes but one as they were. -/
theorem keepsAttributes_setOn : KeepsAttributes w (setOn w name text flag r) (bareName name) := by
  by_cases hname : name ∈ fieldProperties
  · have hsame := attributes_setOn hname w text flag r
    refine ⟨?_, by rw [hsame], Or.inl (by rw [hsame])⟩
    rcases mem_fieldProperties.1 hname with rfl | rfl | rfl | rfl | rfl <;> rfl
  · rw [setOn_of_not_mem hname]
    have hnames := Widget.map_fst_setIn (bareName name) text w.attributes
    refine ⟨rfl, Widget.filter_setIn _ _ _, ?_⟩
    by_cases hin : bareName name ∈ w.attributes.map Prod.fst
    · rw [if_pos hin] at hnames
      exact Or.inl hnames
    · rw [if_neg hin] at hnames
      exact Or.inr ⟨hin, hnames⟩

/-- A property of a widget has gone, and nothing else with it but the built-in property that goes by
the same attribute. -/
structure Deleted (W W' : WidgetStore) (id name : String) (w : Widget) : Prop where
  becomes : Becomes W W' id
    { w with attributes := w.attributes.filter (·.1 != bareName name) }
  told : Told W' id name []
  builtIn : ∀ other ∈ builtInProperties,
    (readProperty (w.removeAttribute (bareName name)) other = readProperty w other ↔
      ¬ (other = "has-name" ∧ name = "\\has-name"))

/-- A property that is there and not built in can be deleted. -/
theorem exists_deleted {W : WidgetStore} (hw : W.widget? id = some w) (hne : name ≠ "")
    (hname : name ∉ builtInProperties) (hthere : (readProperty w name).isSome = true)
    (hwidgets : σ.widgets = W) (habout : About σ.nodes h id name arg) :
    ∃ W', deleteProperty scope h σ = .ok () { σ with widgets := W' } ∧ Deleted W W' id name w := by
  subst hwidgets
  have hdeleted := becomes_update hw fun x => x.removeAttribute (bareName name)
  have hw' := hdeleted id
  rw [if_pos rfl] at hw'
  have htold := told_of_widget hw' hne
  rw [readProperty_removeAttribute_self hname] at htold
  exact ⟨_, deleteProperty_one hw hne hname habout, hdeleted, htold,
    fun other hother => readProperty_removeAttribute_eq_iff hother hname hthere⟩

/-- A property is read as it has been set, by whoever asks for it with the widgets as they are then,
and one that is not built in can be deleted and is not there any more. Neither changes anything
else, with one exception: `has-name` counts among the built-in properties, which cannot be deleted,
but a widget keeps it as an attribute, and so it is set and deleted through its escaped name. -/
theorem properties_agree (scope : Scope) (σ : Session) (h arg : Handle) (id name text : String)
    (w : Widget) (hw : σ.widgets.widget? id = some w) (hne : name ≠ "") (hid : name ≠ "id")
    (hvalid : name = "render-type" → (RenderType.ofWord? text).isSome = true)
    (habout : About σ.nodes h id name arg)
    (hvalue : σ.nodes.singleValue arg = .ok (some (.scalar (.string text)))) :
    ∃ W w', setProperty scope h σ = .ok () { σ with widgets := W } ∧
      Becomes σ.widgets W id w' ∧ KeepsAttributes w w' (bareName name) ∧
      Told W id name [.plain id none [.plain name (some (readAs name text)) []]] ∧
      (∀ other ∈ builtInProperties, other ≠ name →
        (readProperty w' other = readProperty w other ↔
          ¬ (other = "has-name" ∧ name = "\\has-name" ∧
            w.attribute? "has-name" ≠ some text))) ∧
      (name ∉ builtInProperties → ∀ (scope : Scope) (τ : Session) (g arg : Handle),
        τ.widgets = W → About τ.nodes g id name arg →
          ∃ W', deleteProperty scope g τ = .ok () { τ with widgets := W' } ∧
            Deleted W W' id name w') := by
  obtain ⟨r, hword, hset⟩ := setProperty_one scope hw hne hid hvalid habout hvalue
  have hplaced := becomes_update hw fun x =>
    setOn x name text (Value.toBool (.scalar (.string text))) r
  have hw' := hplaced id
  rw [if_pos rfl] at hw'
  -- the new value is what the property is read as from now on
  have hread := readProperty_setOn_self (w := w) hword
  have htold := told_of_widget hw' hne
  rw [hread, Option.toList_some, List.map_singleton] at htold
  exact ⟨_, _, hset, hplaced, keepsAttributes_setOn, htold,
    fun other hother hneq => readProperty_setOn_eq_iff hother hneq,
    fun hname _ _ _ _ hwidgets hg => exists_deleted hw' hne hname (by rw [hread]; rfl) hwidgets hg⟩

/-- A button with two attributes. -/
def button : Widget :=
  { id := "btn", element := "button", attributes := [("has-name", "yes"), ("class", "small")] }

/-- A keyword that sets an attribute of the button by its escaped name. -/
def escaping : Session where
  nodes := (Store.empty.plant (.plain "set-widget-property" (some (.string "btn"))
    [.plain "\\has-name" (some (.string "no")) []])).2
  widgets := (WidgetStore.insert {} button).insert { id := "box", element := "div" }

/-- The attribute is read and deleted by its escaped name, and the other widget and the element of
the button stay. But `has-name` is not what it was. -/
theorem properties_agree_escaping :
    ∃ W w' W', setProperty emptyScope ⟨0, 0⟩ escaping = .ok () { escaping with widgets := W } ∧
      W.widget? "btn" = some w' ∧ W.widget? "box" = escaping.widgets.widget? "box" ∧
      w'.attributes.map Prod.fst = ["has-name", "class"] ∧
      Told W "btn" "\\has-name"
        [.plain "btn" none [.plain "\\has-name" (some (.string "no")) []]] ∧
      readProperty w' "element" = readProperty button "element" ∧
      readProperty w' "has-name" ≠ readProperty button "has-name" ∧
      deleteProperty emptyScope ⟨0, 0⟩ { escaping with widgets := W } =
        .ok () { escaping with widgets := W' } ∧
      Told W' "btn" "\\has-name" [] ∧
      readProperty (w'.removeAttribute "has-name") "has-name" ≠ readProperty w' "has-name" := by
  have hbutton : escaping.widgets.widget? "btn" = some button := by decide +kernel
  have habout : About escaping.nodes ⟨0, 0⟩ "btn" "\\has-name" ⟨1, 0⟩ := ⟨by rfl, by rfl, by rfl⟩
  have hvalue : escaping.nodes.singleValue ⟨1, 0⟩ = .ok (some (.scalar (.string "no"))) := by rfl
  obtain ⟨W, w', hset, hbecomes, hkept, htold, hbuiltIn, hdelete⟩ := properties_agree emptyScope
    escaping ⟨0, 0⟩ ⟨1, 0⟩ "btn" "\\has-name" "no" button hbutton (by decide) (by decide)
    (by decide) habout hvalue
  obtain ⟨W', hrun, hdeleted⟩ := hdelete (by decide) emptyScope { escaping with widgets := W }
    ⟨0, 0⟩ ⟨1, 0⟩ rfl habout
  refine ⟨W, w', W', hset, by rw [hbecomes, if_pos rfl], by rw [hbecomes, if_neg (by decide)],
    ?_, htold, (hbuiltIn "element" (by decide) (by decide)).2 (by decide), ?_, hrun,
    hdeleted.told, ?_⟩
  -- the attributes keep their order, because the name was there already
  · rcases hkept.order with hnames | ⟨hnew, -⟩
    · exact hnames
    · exact absurd hnew (by decide)
  · exact fun heq => (hbuiltIn "has-name" (by decide) (by decide)).1 heq
      ⟨rfl, rfl, by decide⟩
  · exact fun heq => (hdeleted.builtIn "has-name" (by decide)).1 heq ⟨rfl, rfl⟩

end TreeScript.Keyword
