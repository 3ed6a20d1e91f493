import Std.Data.TreeMap

/-!
# TreeScript — widgets

A widget has an id, a handful of built-in properties and attributes in the
order in which they were first set. A widget store finds widgets by id.

* `RenderType`, `Widget`, `WidgetStore` — the types;
* `Widget.attribute?`, `Widget.setAttribute`, `Widget.removeAttribute` — attributes;
* `WidgetStore.insert`, `WidgetStore.rename` — the store's operations;
* `RenameError` — why an id could not be changed.
-/

namespace TreeScript

/-- How a widget is shown. -/
inductive RenderType where
  | normal
  | immediate
  | open
  | closed
  deriving DecidableEq, Repr

namespace RenderType

/-- The word for a render type. -/
def word : RenderType → String
  | .normal => "normal"
  | .immediate => "immediate"
  | .open => "open"
  | .closed => "closed"

/-- The render type of a word in any letter case. -/
def ofWord? (text : String) : Option RenderType :=
  [normal, immediate, .open, closed].find? fun r => r.word == text.map Char.toLower

end RenderType

/-- The built-in properties, which can be read and set and never deleted. -/
def builtInProperties : List String :=
  ["visible", "invisible-element", "element", "has-id", "has-name", "render-type"]

/-- A widget. -/
structure Widget where
  id : String
  element : String
  visible : Bool := true
  invisibleElement : String := "span"
  hasId : Bool := true
  renderType : RenderType := .normal
  attributes : List (String × String) := []
  deriving DecidableEq, Repr

namespace Widget

/-- The value of an attribute. -/
def attribute? (w : Widget) (name : String) : Option String :=
  (w.attributes.find? fun a => a.1 == name).map Prod.snd

/-- Sets the attribute in a list: in its place if it is there, and last otherwise. -/
def setIn (name value : String) : List (String × String) → List (String × String)
  | [] => [(name, value)]
  | a :: rest => if a.1 = name then (name, value) :: rest else a :: setIn name value rest

/-- Sets an attribute. -/
def setAttribute (w : Widget) (name value : String) : Widget :=
  { w with attributes := setIn name value w.attributes }

/-- Removes an attribute. -/
def removeAttribute (w : Widget) (name : String) : Widget :=
  { w with attributes := w.attributes.filter fun a => a.1 != name }

end Widget

-- ---------------------------------------------------------------------------
-- The store
-- ---------------------------------------------------------------------------

/-- Widgets by id, in the order of their ids. -/
structure WidgetStore where
  widgets : Std.TreeMap String Widget := {}

/-- Why an id could not be changed. -/
inductive RenameError where
  | taken (id : String)
  | missing (id : String)
  deriving DecidableEq, Repr

/-- The wording of each error. -/
def RenameError.message : RenameError → String
  | .taken id => "a widget with id '" ++ id ++ "' already exists"
  | .missing id => "no widget with id '" ++ id ++ "'"

namespace WidgetStore

/-- The widget with an id. -/
def widget? (s : WidgetStore) (id : String) : Option Widget := s.widgets[id]?

/-- Adds a widget, in place of one with the same id. -/
def insert (s : WidgetStore) (w : Widget) : WidgetStore := ⟨s.widgets.insert w.id w⟩

/-- Changes the widget with an id, if there is one. -/
def update (s : WidgetStore) (id : String) (f : Widget → Widget) : WidgetStore :=
  match s.widget? id with
  | some w => ⟨s.widgets.insert id (f w)⟩
  | none => s

/-- Gives a widget another id. -/
def rename (s : WidgetStore) (old new : String) : Except RenameError WidgetStore :=
  if old = new then .ok s
  else if (s.widget? new).isSome then .error (.taken new)
  else
    match s.widget? old with
    | none => .error (.missing old)
    | some w => .ok (insert ⟨s.widgets.erase old⟩ { w with id := new })

/-- The ids, in order. -/
def ids (s : WidgetStore) : List String := s.widgets.keys

end WidgetStore

end TreeScript
