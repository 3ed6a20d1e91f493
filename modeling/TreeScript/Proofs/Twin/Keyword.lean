import TreeScript.Proofs.Keyword.Steady
import TreeScript.Proofs.Twin.Run

/-!
# TreeScript — the same keyword on both sides
-/

namespace TreeScript

open Store Engine Paired

/-- A handler that comes to the same in scopes that do. -/
structure Handler.Even (handler : Handler) : Prop where
  steady (scope : Scope) [scope.Steady] (h : Handle) : Engine.Steady (handler scope h)
  agree {scope scope' : Scope} [scope.Steady] [scope'.Steady] (hscope : scope.Alike scope')
    {ρ : Pairing} {a b : Handle} (hab : ρ a b) : Agree ρ (handler scope a) (handler scope' b)

namespace Keyword

-- ---------------------------------------------------------------------------
-- Arguments
-- ---------------------------------------------------------------------------

section

variable {ρ : Pairing} {a b : Handle} {xs ys : List Handle}

theorem agree_ownValue {v w : Value} (hvw : Matches ρ v w) : Agree ρ (ownValue v) (ownValue w) := by
  cases hvw with
  | scalar v => exact .pure (.scalar v)
  | ref hgh => exact .pure (.ref hgh)
  | node hgh =>
    refine Agree.bind_isAlive hgh fun alive => Agree.ite (fun _ => ?_) fun _ => .pure (.node hgh)
    exact (agree_deepClone hgh).bind fun _ _ c d hcd => .pure (.node hcd)

theorem agree_removeArguments (hab : ρ a b) (hxs : Matches ρ xs ys) :
    Agree ρ (removeArguments a xs) (removeArguments b ys) := by
  refine (Agree.forM hxs fun _ _ c d hcd => agree_remove hcd).seq fun ρ' hle => ?_
  exact agree_setValue (hle _ _ hab) .none

/-- What follows may use that the children stand for each other one by one. -/
theorem bind_children {α : Type} [Paired α] {k l : List Handle → Engine α} (hab : ρ a b)
    (hkl : ∀ xs ys, Matches ρ xs ys → Agree ρ (k xs) (l ys)) :
    Agree ρ (Engine.nodes >>= fun s => liftM (s.children a) >>= k)
      (Engine.nodes >>= fun t => liftM (t.children b) >>= l) := by
  refine Agree.bind_nodes fun s t hst => ?_
  exact Agree.bind_liftFault (hst.children hab) hkl

theorem agree_bind_strings {α : Type} [Paired α] {k l : List String → Engine α} (hab : ρ a b)
    (hkl : ∀ texts, Agree ρ (k texts) (l texts)) :
    Agree ρ (Engine.nodes >>= fun s => liftM (s.strings a) >>= k)
      (Engine.nodes >>= fun t => liftM (t.strings b) >>= l) := by
  refine Agree.bind_nodes fun s t hst => ?_
  refine Agree.bind_lift (hst.strings hst.left.linked hst.right.linked hab)
    fun texts texts' htexts => ?_
  rw [Plain.eq htexts]
  exact hkl texts'

-- ---------------------------------------------------------------------------
-- Control
-- ---------------------------------------------------------------------------

theorem even_eval : Handler.Even eval where
  steady _ _ _ := inferInstance
  agree hscope ρ a b hab := by
    refine Agree.bind_nodes fun s t hst => Agree.bind_liftFault (hst.name hab) fun n m hnm => ?_
    obtain rfl := Plain.eq hnm
    exact agree_execute hscope .copy hab _

theorem even_evalMutable : Handler.Even evalMutable where
  steady _ _ _ := inferInstance
  agree hscope ρ a b hab := by
    refine Agree.bind_nodes fun s t hst => Agree.bind_liftFault (hst.name hab) fun n m hnm => ?_
    obtain rfl := Plain.eq hnm
    exact agree_execute hscope .inPlace hab _

theorem even_breakLoop : Handler.Even breakLoop where
  steady _ _ _ := inferInstance
  agree _ _ _ _ hab := agree_signal hab .break

theorem even_continueLoop : Handler.Even continueLoop where
  steady _ _ _ := inferInstance
  agree _ _ _ _ hab := agree_signal hab .continue

/-- The children are moved below the root in the same order. -/
theorem agree_returnChildren (hab : ρ a b) {r q : Handle} (hrq : ρ r q) :
    Agree ρ (returnChildren r a) (returnChildren q b) := by
  refine bind_children hab fun below below' hbelow => ?_
  refine (Agree.forM hbelow fun ρ₁ hle c d hcd => ?_).seq fun ρ₁ hle => agree_signal (hle _ _ hab) _
  exact (agree_deepClone hcd).bind fun ρ₂ hle' e f hef => agree_append (hle' _ _ (hle _ _ hrq)) hef

/-- What a return gives is moved to the root. -/
theorem agree_returnAll (hab : ρ a b) {r q : Handle} (hrq : ρ r q) :
    Agree ρ (returnAll r a) (returnAll q b) := by
  have hgive : ∀ {ρ' : Pairing}, ρ ≤ ρ' → ∀ {v w : Option Value}, Matches ρ' v w →
      Agree ρ' (Engine.setValue r v >>= fun _ => returnChildren r a)
        (Engine.setValue q w >>= fun _ => returnChildren q b) := fun hle v w hvw =>
    (agree_setValue (hle _ _ hrq) hvw).seq fun ρ'' hle' =>
      agree_returnChildren (hle' _ _ (hle _ _ hab)) (hle' _ _ (hle _ _ hrq))
  refine Agree.bind_nodes fun s t hst => Agree.bind_liftFault (hst.value hab) fun v w hvw => ?_
  have hsome : v.isSome = w.isSome := by cases hvw <;> rfl
  rw [hsome]
  refine Agree.ite (fun _ => ?_) fun _ => agree_returnChildren hab hrq
  refine Agree.bind_nodes fun s t hst => ?_
  refine Agree.bind_lift (hst.singleValue hst.left.linked hst.right.linked hab) fun v w hvw => ?_
  cases hvw with
  | none => exact hgive (le_refl ρ) .none
  | some hvw => exact (agree_ownValue hvw).bind fun ρ' hle v w hvw => hgive hle (.some hvw)

theorem even_returnValue : Handler.Even returnValue where
  steady _ _ _ := inferInstance
  agree hscope ρ a b hab := by
    rw [returnValue_eq, returnValue_eq]
    refine Agree.bind_nodes fun s t hst => ?_
    have hroot := hst.root? hst.left.linked hst.right.linked hab
    generalize s.root? a = x, t.root? b = y at hroot
    cases hroot with
    | none => exact .done
    | some hrq => exact agree_returnAll hab hrq

-- ---------------------------------------------------------------------------
-- Loops
-- ---------------------------------------------------------------------------

/-- The value of an item, as a step of the engine. -/
theorem agree_itemValue {i j : Item} (hij : Matches ρ i j) :
    Agree ρ (itemValue i) (itemValue j) := by
  cases hij with
  | node hgh =>
    exact Agree.bind_isAlive hgh fun _ => Agree.ite (fun _ => .pure (.some (.ref hgh)))
      fun _ => .pure .none
  | value hvw => exact (agree_ownValue hvw).bind fun _ _ _ _ hvw => .pure (.some hvw)
  | name text => exact .pure (.some (.scalar _))
  | count n => exact .pure (.some (.scalar _))

/-- A round begins with the same body and an item that says the same. -/
theorem agree_prepareRound (hab : ρ a b) (hxs : Matches ρ xs ys) {v w : Value}
    (hvw : Matches ρ v w) : Agree ρ (prepareRound a xs v) (prepareRound b ys w) := by
  refine (agree_clear hab).seq fun ρ₁ hle => ?_
  refine (agree_add (hle _ _ hab) "_dp" (.some (mono hle hvw))).seq fun ρ₂ hle' => ?_
  exact agree_cloneBehind (hle' _ _ (hle _ _ hab)) (mono (hle.trans hle') hxs)

/-- A round ends according to the signal that it has left. -/
theorem agree_endRound {scope scope' : Scope} [scope.Steady] [scope'.Steady] (hab : ρ a b)
    {is js : List Item} (hnext : ∀ {ρ' : Pairing}, ρ ≤ ρ' → Agree ρ' (rounds scope a xs is)
      (rounds scope' b ys js)) (c : Control) :
    Agree ρ (endRound scope a xs is c) (endRound scope' b ys js c) := by
  have hclear := agree_clearSignal hab
  cases c with
  | none => exact hnext (le_refl ρ)
  | «continue» => exact hclear.seq fun ρ' hle => hnext hle
  | «break» => exact hclear.seq fun _ _ => .done
  | «return» => exact .done

theorem agree_rounds {scope scope' : Scope} [scope.Steady] [scope'.Steady]
    (hscope : scope.Alike scope') (hab : ρ a b) (hxs : Matches ρ xs ys) {is js : List Item}
    (hij : Matches ρ is js) : Agree ρ (rounds scope a xs is) (rounds scope' b ys js) := by
  induction is generalizing js ρ with
  | nil =>
    cases hij
    exact .done
  | cons i is ih =>
    cases hij with
    | @cons _ j _ js hfirst hrest =>
      rw [rounds_cons, rounds_cons]
      refine Agree.bind_isAlive hab fun alive => Agree.ite (fun _ => ?_) fun _ => .done
      -- later rounds agree under any larger pairing
      have hnext : ∀ {ρ' : Pairing}, ρ ≤ ρ' → Agree ρ' (rounds scope a xs is)
          (rounds scope' b ys js) := fun hle => ih (hle _ _ hab) (mono hle hxs) (mono hle hrest)
      refine (agree_itemValue hfirst).bind_of_steady (fun v => by cases v <;> infer_instance)
        (fun w => by cases w <;> infer_instance) fun ρ₁ hle₁ v w hvw => ?_
      cases hvw with
      | none => exact hnext hle₁
      -- an item that is there: prepare the round, run the body, look at the signal
      | some hvw =>
        refine (agree_prepareRound (hle₁ _ _ hab) (mono hle₁ hxs) hvw).seq fun ρ₂ hle₂ => ?_
        have hle₂ := hle₁.trans hle₂
        refine (agree_executeAll hscope (hle₂ _ _ hab)).bind fun ρ₃ hle₃ c d hcd => ?_
        obtain rfl := Plain.eq hcd
        exact agree_endRound ((hle₂.trans hle₃) _ _ hab) (fun hle => hnext (hle₂.trans (hle₃.trans hle))) c

theorem agree_restoreBody (hab : ρ a b) (hxs : Matches ρ xs ys) :
    Agree ρ (restoreBody a xs) (restoreBody b ys) := by
  refine Agree.bind_isAlive hab fun alive => Agree.ite (fun _ => ?_) fun _ => ?_
  · refine (agree_clear hab).seq fun ρ₁ hle => ?_
    exact Agree.forM (mono hle hxs) fun ρ₂ hle' c d hcd => agree_append (hle' _ _ (hle _ _ hab)) hcd
  · exact Agree.forM hxs fun _ _ c d hcd => agree_remove hcd

/-- `for-each` does the same on both sides: it puts the body back on every exit. -/
theorem even_forEach : Handler.Even forEach where
  steady _ _ _ := inferInstance
  agree hscope ρ a b hab := by
    unfold forEach
    refine Agree.bind_nodes fun s t hst => ?_
    refine Agree.bind_lift (hst.resolve hst.left.linked hst.right.linked hab) fun is js hij => ?_
    refine bind_children hab fun body body' hbody => ?_
    refine (Agree.forM hbody fun _ _ c d hcd => agree_detach hcd).seq fun ρ₁ hle => ?_
    rw [hscope.settings]
    refine Agree.always (.nested (hle _ _ hab)
      (agree_rounds hscope (hle _ _ hab) (mono hle hbody) (mono hle hij))) fun ρ₂ hle' => ?_
    exact agree_restoreBody (hle' _ _ (hle _ _ hab)) (mono (hle.trans hle') hbody)

-- ---------------------------------------------------------------------------
-- Files
-- ---------------------------------------------------------------------------

/-- A verdict that is the same refuses on both sides or on none. -/
theorem agree_authorize (hab : ρ a b) (verdict : Except Denied Unit) :
    Agree ρ (authorize a verdict) (authorize b verdict) := by
  cases verdict with
  | ok _ => exact .done
  | error d => exact .fail hab _

/-- What the disk answers does not depend on handles. -/
theorem agree_ofDisk {α : Type} [Paired α] [Plain α] (hab : ρ a b) (path : String)
    (r : Except FileError α) : Agree ρ (ofDisk a path r) (ofDisk b path r) := by
  cases r with
  | ok x => exact .pure (Plain.refl x)
  | error e => exact .fail hab _

theorem even_loadFile : Handler.Even loadFile where
  steady _ _ _ := inferInstance
  agree hscope ρ a b hab := by
    unfold loadFile
    rw [hscope.settings]
    refine agree_bind_strings hab fun paths => bind_children hab fun args args' hargs => ?_
    refine Agree.bind (Agree.mapM (Plain.refl paths) fun ρ₁ hle path path' hpath => ?_)
      fun ρ₁ hle loaded loaded' hloaded => ?_
    -- the ticket and the disk are the same, so each file is read alike
    · obtain rfl := Plain.eq hpath
      refine Agree.bind_get fun σ τ hστ => ?_
      rw [hστ.ticket]
      refine (agree_authorize (hle _ _ hab) _).seq fun ρ₂ hle' => Agree.bind_get fun σ τ hστ => ?_
      rw [hστ.disk]
      exact (agree_ofDisk (hle' _ _ (hle _ _ hab)) _ _).bind fun _ _ text text' htext =>
        .pure ⟨rfl, htext⟩
    -- and what was read is added alike
    · obtain rfl := Plain.eq hloaded
      refine (agree_removeArguments (hle _ _ hab) (mono hle hargs)).seq fun ρ₂ hle' => ?_
      refine Agree.forM (Plain.refl loaded) fun ρ₃ hle'' x y hxy => ?_
      obtain rfl := Plain.eq hxy
      exact (agree_add (hle'' _ _ (hle' _ _ (hle _ _ hab))) x.1 (.some (.scalar _))).seq
        fun _ _ => .done

theorem agree_contentToSave (hab : ρ a b) : Agree ρ (contentToSave a) (contentToSave b) := by
  refine Agree.bind_nodes fun s t hst => ?_
  refine Agree.bind_liftFault (hst.childNamed? hab "src") fun x y hxy => ?_
  cases hxy with
  | none => exact .lift (hst.renderBelow hab).ofFault
  | some hxy =>
    refine Agree.bind_lift (hst.strings hst.left.linked hst.right.linked hxy) fun texts texts' h => ?_
    rw [Plain.eq h]
    exact .pure (Plain.refl _)

/-- An error of the disk is passed on, with the context of its node. -/
theorem agree_conclude (hab : ρ a b) (path : String) (error : Option FileError) :
    Agree ρ (conclude a path error) (conclude b path error) := by
  cases error with
  | some e => exact .fail hab _
  | none => exact bind_children hab fun args args' hargs => agree_removeArguments hab hargs

/-- The same text is written to the same file. -/
theorem agree_writeOut {scope scope' : Scope} (hsettings : scope.settings = scope'.settings)
    (hab : ρ a b) (path text : String) :
    Agree ρ (writeOut scope a path text) (writeOut scope' b path text) := by
  intro σ τ hστ hu hu'
  unfold after at hu hu'
  rw [writeOut_apply, hsettings] at hu ⊢
  rw [writeOut_apply] at hu' ⊢
  rw [hστ.disk] at hu' ⊢
  generalize σ.disk.save scope'.settings.workFolder (diskPath scope'.settings path)
    (Utf8.encode text.toList) = r at hu hu' ⊢
  have halike : Session.Alike ρ (σ.withDisk r.1) (τ.withDisk r.1) :=
    ⟨⟨hστ.widgets, rfl, hστ.ticket, hστ.depth⟩, hστ.nodes⟩
  exact agree_conclude hab path r.2 _ _ halike hu hu'

theorem even_saveFile : Handler.Even saveFile where
  steady _ _ _ := inferInstance
  agree hscope ρ a b hab := by
    rw [saveFile_eq, saveFile_eq, hscope.settings]
    refine agree_bind_strings hab fun paths => ?_
    cases paths with
    | nil => exact .fail hab _
    | cons path _ =>
      refine Agree.bind_get fun σ τ hστ => ?_
      rw [hστ.ticket]
      refine (agree_authorize hab _).seq fun ρ₁ hle => ?_
      refine (agree_contentToSave (hle _ _ hab)).bind fun ρ₂ hle' text text' htext => ?_
      obtain rfl := Plain.eq htext
      exact agree_writeOut hscope.settings (hle' _ _ (hle _ _ hab)) path text

-- ---------------------------------------------------------------------------
-- Widgets
-- ---------------------------------------------------------------------------

/-- What follows is given the same widgets. -/
theorem agree_bind_widgets {α : Type} [Paired α] {k l : WidgetStore → Engine α}
    (hkl : ∀ w, Agree ρ (k w) (l w)) : Agree ρ (widgets >>= k) (widgets >>= l) := by
  refine Agree.bind_get fun σ τ hστ => ?_
  rw [hστ.widgets]
  exact hkl σ.widgets

theorem agree_setWidgets (w : WidgetStore) : Agree ρ (setWidgets w) (setWidgets w) :=
  .aside fun _ _ hστ => ⟨⟨rfl, hστ.disk, hστ.ticket, hστ.depth⟩, hστ.nodes⟩

/-- A widget is found on both sides or missing on both. -/
theorem agree_findWidget (hab : ρ a b) (id : String) :
    Agree ρ (findWidget a id) (findWidget b id) := by
  refine agree_bind_widgets fun ws => ?_
  cases ws.widget? id with
  | some w => exact .pure (Plain.refl w)
  | none => exact .fail hab _

/-- The names of properties that the arguments give. -/
theorem agree_propertyNames (hxs : Matches ρ xs ys) :
    Agree ρ (propertyNames xs) (propertyNames ys) := by
  refine Agree.bind_nodes fun s t hst => ?_
  refine Agree.bind (Agree.mapM hxs fun ρ' hle x y hxy => .lift ((hst.name hxy).mono hle).ofFault)
    fun ρ' hle names names' hnames => ?_
  rw [Plain.eq hnames]
  exact .pure (Plain.refl _)

theorem agree_findOrAdd (hab : ρ a b) (name : String) :
    Agree ρ (findOrAdd a name) (findOrAdd b name) := by
  refine Agree.bind_nodes fun s t hst => ?_
  refine Agree.bind_liftFault (hst.childNamed? hab name) fun x y hxy => ?_
  cases hxy with
  | none => exact agree_add hab name .none
  | some hxy => exact .pure hxy

/-- The properties that have been found are added as children. -/
theorem agree_addAll (hab : ρ a b) (found : List (String × Scalar)) :
    Agree ρ (addAll a found) (addAll b found) := by
  refine Agree.forM (Plain.refl found) fun ρ₁ hle x y hxy => ?_
  obtain rfl := Plain.eq hxy
  exact (agree_add (hle _ _ hab) x.1 (.some (.scalar _))).seq fun _ _ => .done

/-- Widgets are read for both sides. -/
theorem agree_readEach {α : Type} [Paired α] [Plain α] (hab : ρ a b) (ids : List String)
    (f : String → Widget → α) :
    Agree ρ
      (ids.mapM fun id => do
        let w ← findWidget a id
        return f id w)
      (ids.mapM fun id => do
        let w ← findWidget b id
        return f id w) := by
  refine Agree.mapM (Plain.refl ids) fun ρ' hle id id' hid => ?_
  obtain rfl := Plain.eq hid
  refine (agree_findWidget (hle _ _ hab) id).bind fun _ _ w w' hw => ?_
  obtain rfl := Plain.eq hw
  exact .pure (Plain.refl _)

theorem even_getProperty : Handler.Even getProperty where
  steady _ _ _ := inferInstance
  agree hscope ρ a b hab := by
    refine agree_bind_strings hab fun ids => bind_children hab fun args args' hargs => ?_
    refine (agree_propertyNames hargs).bind fun ρ₁ hle₁ names names' hnames => ?_
    obtain rfl := Plain.eq hnames
    have hab := hle₁ _ _ hab
    refine (agree_readEach hab ids _).bind fun ρ₂ hle₂ found found' hfound => ?_
    obtain rfl := Plain.eq hfound
    refine (agree_removeArguments (hle₂ _ _ hab) (mono (hle₁.trans hle₂) hargs)).seq
      fun ρ₃ hle₃ => ?_
    refine Agree.forM (Plain.refl found.flatten) fun ρ₄ hle₄ x y hxy => ?_
    obtain rfl := Plain.eq hxy
    exact (agree_findOrAdd ((hle₂.trans (hle₃.trans hle₄)) _ _ hab) x.1).bind
      fun _ _ c d hcd => agree_addAll hcd _

theorem even_listProperties : Handler.Even listProperties where
  steady _ _ _ := inferInstance
  agree hscope ρ a b hab := by
    refine agree_bind_strings hab fun ids => bind_children hab fun args args' hargs => ?_
    refine (agree_readEach hab ids _).bind fun ρ₁ hle₁ found found' hfound => ?_
    obtain rfl := Plain.eq hfound
    refine (agree_removeArguments (hle₁ _ _ hab) (mono hle₁ hargs)).seq fun ρ₂ hle₂ => ?_
    refine Agree.forM (Plain.refl found) fun ρ₃ hle₃ x y hxy => ?_
    obtain rfl := Plain.eq hxy
    exact (agree_add ((hle₁.trans (hle₂.trans hle₃)) _ _ hab) x.1 .none).bind
      fun _ _ c d hcd => agree_addAll hcd _

-- ---------------------------------------------------------------------------
-- Setting and deleting
-- ---------------------------------------------------------------------------

/-- Properties to set that are the same up to a pairing. -/
instance : Paired Assignment :=
  ⟨fun ρ x y => ρ x.node y.node ∧ x.name = y.name ∧ Matches ρ x.value y.value,
    fun hle h => ⟨hle _ _ h.1, h.2.1, mono hle h.2.2⟩⟩

/-- The assignments that the arguments ask for. -/
theorem agree_assignments (hxs : Matches ρ xs ys) :
    Agree ρ (assignments xs) (assignments ys) := by
  induction hxs with
  | nil => exact .pure .nil
  | cons hxy _ ih =>
    rw [assignments, assignments]
    refine Agree.bind_nodes fun s t hst => Agree.bind_liftFault (hst.name hxy) fun n m hnm => ?_
    obtain rfl := Plain.eq hnm
    refine Agree.ite (fun _ => ih) fun _ => Agree.bind_nodes fun s t hst => ?_
    refine Agree.bind_lift (hst.singleValue hst.left.linked hst.right.linked hxy) fun v w hvw => ?_
    exact ih.bind fun ρ' hle todo todo' htodo =>
      .pure (.cons ⟨hle _ _ hxy, rfl, mono hle hvw⟩ htodo)

theorem agree_textToAssign {s t : Store} (hst : Store.Alike ρ s t) {v w : Option Value}
    (hvw : Matches ρ v w) : Agree ρ (textToAssign s v) (textToAssign t w) := by
  cases hvw with
  | none => exact .pure (Plain.refl _)
  | some hvw => exact .lift (hst.display hvw false).ofFault

/-- The render type is read from the same text. -/
theorem agree_renderTypeFor {x y : Assignment} (hxy : Matches ρ x y) (text : String) :
    Agree ρ (renderTypeFor x text) (renderTypeFor y text) := by
  unfold renderTypeFor
  rw [hxy.2.1]
  refine Agree.ite (fun _ => ?_) fun _ => .pure (Plain.refl _)
  cases RenderType.ofWord? text with
  | some r => exact .pure (Plain.refl r)
  | none => exact .fail hxy.1 _

/-- One assignment, and what follows it for the widget's name by then. -/
theorem agree_assignTo (hab : ρ a b) (id : String) {x y : Assignment} (hxy : Matches ρ x y)
    (text : String) {next next' : String → Engine Unit} [∀ id, Engine.Steady (next id)]
    [∀ id, Engine.Steady (next' id)]
    (hnext : ∀ ρ', ρ ≤ ρ' → ∀ id, Agree ρ' (next id) (next' id)) :
    Agree ρ (assignTo a id x text next) (assignTo b id y text next') := by
  -- a value is true on both sides or on neither
  have hflag : x.value.any Value.toBool = y.value.any Value.toBool := by
    have hvalue := hxy.2.2
    generalize x.value = v, y.value = w at hvalue
    cases hvalue with
    | none => rfl
    | some hvw => exact Value.Same.toBool hvw
  unfold assignTo
  rw [hxy.2.1, hflag]
  refine Agree.ite (fun _ => agree_bind_widgets fun ws => ?_) fun _ => ?_
  · cases ws.rename id text with
    | ok ws => exact (agree_setWidgets ws).seq fun ρ' hle => hnext ρ' hle text
    | error e => exact .fail hxy.1 _
  -- any other property: the render type, then the widget, which both sides have or lack
  · refine (agree_renderTypeFor hxy text).bind fun ρ₁ hle₁ r r' hr => ?_
    obtain rfl := Plain.eq hr
    refine (agree_findWidget (hle₁ _ _ hab) id).seq fun ρ₂ hle₂ => agree_bind_widgets fun ws => ?_
    exact (agree_setWidgets _).seq fun ρ₃ hle₃ => hnext ρ₃ (hle₁.trans (hle₂.trans hle₃)) id

theorem agree_assignAll (hab : ρ a b) (id : String) {todo todo' : List Assignment}
    (htodo : Matches ρ todo todo') : Agree ρ (assignAll a id todo) (assignAll b id todo') := by
  induction todo generalizing todo' id ρ with
  | nil =>
    cases htodo
    exact .done
  | cons x rest ih =>
    cases htodo with
    | @cons _ y _ rest' hxy hrest =>
      rw [assignAll_cons, assignAll_cons]
      refine Agree.bind_nodes fun s t hst => ?_
      refine (agree_textToAssign hst hxy.2.2).bind fun ρ₁ hle text text' htext => ?_
      obtain rfl := Plain.eq htext
      exact agree_assignTo (hle _ _ hab) id (mono hle hxy) text fun ρ₂ hle' id =>
        ih ((hle.trans hle') _ _ hab) id (mono (hle.trans hle') hrest)

theorem even_setProperty : Handler.Even setProperty where
  steady _ _ _ := inferInstance
  agree hscope ρ a b hab := by
    refine agree_bind_strings hab fun ids => bind_children hab fun args args' hargs => ?_
    refine (agree_assignments hargs).bind fun ρ₁ hle todo todo' htodo => ?_
    refine Agree.forM (Plain.refl ids) fun ρ₂ hle' id id' hid => ?_
    obtain rfl := Plain.eq hid
    exact (agree_findWidget (hle' _ _ (hle _ _ hab)) id).seq fun ρ₃ hle'' =>
      agree_assignAll (hle'' _ _ (hle' _ _ (hle _ _ hab))) id (mono (hle'.trans hle'') htodo)

theorem even_deleteProperty : Handler.Even deleteProperty where
  steady _ _ _ := inferInstance
  agree hscope ρ a b hab := by
    refine Agree.bind_nodes fun s t hst => Agree.bind_liftFault (hst.node hab) fun n m hnm => ?_
    have hchildren := Node.Same.children hnm
    -- the conditions read only what paired nodes have in common
    have hsome : n.value.isSome = m.value.isSome := by
      have hvalue := Node.Same.value hnm
      generalize n.value = v, m.value = w at hvalue
      cases hvalue <;> rfl
    have hempty : n.children = [] ↔ m.children = [] := by
      rw [← List.length_eq_zero_iff, ← List.length_eq_zero_iff, Paired.Matches.length hchildren]
    simp only [hsome, ne_eq, hempty]
    refine Agree.ite (fun _ => ?_) fun _ => .done
    refine Agree.bind_lift (hst.strings hst.left.linked hst.right.linked hab)
      fun ids ids' hids => ?_
    obtain rfl := Plain.eq hids
    refine (agree_propertyNames hchildren).bind_of_steady (fun names => ?_) (fun names => ?_)
      fun ρ₁ hle names names' hnames => ?_
    · cases names.find? builtInProperties.contains <;> infer_instance
    · cases names.find? builtInProperties.contains <;> infer_instance
    obtain rfl := Plain.eq hnames
    cases names.find? builtInProperties.contains with
    | some name => exact .fail (hle _ _ hab) _
    | none =>
      refine Agree.forM (Plain.refl ids) fun ρ₂ hle' id id' hid => ?_
      obtain rfl := Plain.eq hid
      exact (agree_findWidget ((hle.trans hle') _ _ hab) id).seq fun _ _ =>
        agree_bind_widgets fun ws => agree_setWidgets _

theorem even_of_mem_standard : ∀ x ∈ Keyword.standard, Handler.Even x.2 := by
  unfold Keyword.standard
  simp only [List.forall_mem_cons, List.not_mem_nil, false_imp_iff, implies_true, and_true]
  exact ⟨even_eval, even_evalMutable, even_returnValue, even_breakLoop, even_continueLoop,
    even_forEach, even_getProperty, even_setProperty, even_deleteProperty, even_listProperties,
    even_loadFile, even_saveFile⟩

end

end Keyword

-- ---------------------------------------------------------------------------
-- Registries
-- ---------------------------------------------------------------------------

namespace Registry

variable {scope scope' : Scope} [scope.Steady] [scope'.Steady] {handlers : List Handler}

theorem steady_runAll (h : Handle) (hall : ∀ handler ∈ handlers, handler.Even) :
    Engine.Steady (runAll scope h handlers) := by
  induction handlers with
  | nil => exact inferInstanceAs (Engine.Steady (pure ()))
  | cons handler rest ih =>
    obtain ⟨hfirst, hrest⟩ := List.forall_mem_cons.1 hall
    have hhandler := hfirst.steady scope h
    have hrest := ih hrest
    unfold runAll
    infer_instance

/-- The handlers of an event, run one after another. -/
theorem agree_runAll (hscope : scope.Alike scope') {ρ : Pairing} {a b : Handle} (hab : ρ a b)
    (hall : ∀ handler ∈ handlers, handler.Even) :
    Agree ρ (runAll scope a handlers) (runAll scope' b handlers) := by
  induction handlers generalizing ρ with
  | nil => exact .done
  | cons handler rest ih =>
    obtain ⟨hfirst, hrest⟩ := List.forall_mem_cons.1 hall
    have hleft : Engine.Steady (runAll scope a rest) := steady_runAll a hrest
    have hright : Engine.Steady (runAll scope' b rest) := steady_runAll b hrest
    unfold runAll
    refine Agree.bind_isAlive hab fun _ => Agree.ite (fun _ => ?_) fun _ => .done
    exact (hfirst.agree hscope hab).seq fun ρ' hle => ih (hle _ _ hab) hrest

variable {r : Registry} (hr : r.All Handler.Even) (settings : Settings)

include hr

/-- Dispatching only operates on slots, by induction on how much may be dispatched. -/
theorem steady_scope (fuel : Nat) : (r.scope settings fuel).Steady := by
  induction fuel with
  | zero =>
    exact ⟨fun name h => inferInstanceAs (Engine.Steady (throw (.fault .endless) : Engine Unit))⟩
  | succ fuel ih =>
    refine ⟨fun name h => ?_⟩
    show Engine.Steady (dispatch r settings (fuel + 1) name h)
    rw [dispatch]
    split
    next handlers hhandlers =>
      show Engine.Steady (runAll (r.scope settings fuel) h handlers)
      exact steady_runAll h (hr name handlers hhandlers)
    next => split <;> infer_instance

/-- Dispatching comes to the same however much may be dispatched, by induction on how much that
is on the one side. -/
theorem alike_scope (n m : Nat) : (r.scope settings n).Alike (r.scope settings m) := by
  induction n generalizing m with
  | zero => exact ⟨rfl, fun _ _ => .throw_left _⟩
  | succ n ih =>
    cases m with
    | zero => exact ⟨rfl, fun _ _ => .throw_right _⟩
    | succ m =>
      have hleft := steady_scope hr settings n
      have hright := steady_scope hr settings m
      refine ⟨rfl, fun {ρ a b} hab name => ?_⟩
      show Agree ρ (dispatch r settings (n + 1) name a) (dispatch r settings (m + 1) name b)
      rw [dispatch, dispatch]
      cases hhandlers : r.handlers[name]? with
      | some handlers => exact agree_runAll (ih m) hab (hr name handlers hhandlers)
      | none =>
        cases r.unknown with
        | error => exact .fail hab _
        | ignore => exact .done

end Registry

end TreeScript
