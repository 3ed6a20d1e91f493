import TreeScript.Keyword.Arguments

/-!
# TreeScript — keywords for widgets

The value of a keyword's node leads to the ids of widgets, and its children
name the properties to read, set or delete. A backslash in front of a name
marks an attribute whose name is that of something else.

* `Property` — what the name of a property stands for;
* `getProperty`, `setProperty`, `deleteProperty`, `listProperties` — the keywords.
-/

namespace TreeScript.Keyword

/-- A name without a backslash in front. -/
def bareName (name : String) : String :=
  match name.toList with
  | '\\' :: rest => String.ofList rest
  | _ => name

/-- The widgets of the session. -/
def widgets : Engine WidgetStore := return (← get).widgets

/-- Puts other widgets in place. -/
def setWidgets (w : WidgetStore) : Engine Unit := modify fun session => { session with widgets := w }

/-- The widget with an id; a failure about the keyword's node if there is none. -/
def findWidget (h : Handle) (id : String) : Engine Widget := do
  match (← widgets).widget? id with
  | some w => return w
  | none => Engine.fail h (.execution (.noWidget id))

/-- The names of some nodes that have one. -/
def propertyNames (args : List Handle) : Engine (List String) := do
  let s ← Engine.nodes
  let names ← args.mapM fun a => (s.name a : Except Fault String)
  return names.filter (· != "")

-- ---------------------------------------------------------------------------
-- Reading
-- ---------------------------------------------------------------------------

/-- The value of a property of a widget; none for an attribute that it has not. -/
def readProperty (w : Widget) (name : String) : Option Scalar :=
  if name = "visible" then some (.bool w.visible)
  else if name = "invisible-element" then some (.string w.invisibleElement)
  else if name = "element" then some (.string w.element)
  else if name = "has-id" then some (.bool w.hasId)
  else if name = "render-type" then some (.string w.renderType.word)
  else (w.attribute? (bareName name)).map .string

/-- Whether an attribute binds an event of the page, which is no property. -/
def isEventBinding (a : String × String) : Bool :=
  ("on".toList.isPrefixOf a.1.toList || "_on".toList.isPrefixOf a.1.toList)
    && a.2 == "common_event_handler"

/-- The properties of a widget that are worth telling: built-in ones that are
not as they are at first, the element, and the attributes. -/
def listing (w : Widget) : List (String × Scalar) :=
  (if w.visible then [] else [("visible", .bool false)])
    ++ [("element", .string w.element)]
    ++ (if w.hasId then [] else [("has-id", .bool false)])
    ++ (if w.renderType = .normal then [] else [("render-type", .string w.renderType.word)])
    ++ (w.attributes.filter fun a => !isEventBinding a).map fun a => (a.1, .string a.2)

/-- The child with a name, made if there is none. -/
def findOrAdd (parent : Handle) (name : String) : Engine Handle := do
  match ← (← Engine.nodes).childNamed? parent name with
  | some child => return child
  | none => Engine.add parent name none

/-- Adds a child for each named value. -/
def addAll (parent : Handle) (found : List (String × Scalar)) : Engine Unit :=
  found.forM fun (name, v) => do
    let _ ← Engine.add parent name (some (.scalar v))

/-- Reads properties. Each widget that has one of them becomes a child with its
id, above the properties found. -/
def getProperty : Handler := fun _ h => do
  let ids ← (← Engine.nodes).strings h
  let args ← (← Engine.nodes).children h
  let names ← propertyNames args
  let found ← ids.mapM fun id => do
    let w ← findWidget h id
    return names.filterMap fun name => (readProperty w name).map fun v => (id, name, v)
  removeArguments h args
  found.flatten.forM fun (id, name, v) => do
    let holder ← findOrAdd h id
    addAll holder [(name, v)]

/-- Lists properties. Each widget becomes a child with its id. -/
def listProperties : Handler := fun _ h => do
  let ids ← (← Engine.nodes).strings h
  let args ← (← Engine.nodes).children h
  let found ← ids.mapM fun id => do
    let w ← findWidget h id
    return (id, listing w)
  removeArguments h args
  found.forM fun (id, properties) => do
    let holder ← Engine.add h id none
    addAll holder properties

-- ---------------------------------------------------------------------------
-- Setting
-- ---------------------------------------------------------------------------

/-- A property to set: the node that says so, its name and its value. -/
structure Assignment where
  node : Handle
  name : String
  value : Option Value

/-- The properties that some nodes ask to set; nameless nodes ask for none. -/
def assignments : List Handle → Engine (List Assignment)
  | [] => pure []
  | arg :: rest => do
    let name ← (← Engine.nodes).name arg
    if name = "" then assignments rest
    else
      let value ← (← Engine.nodes).singleValue arg
      return ⟨arg, name, value⟩ :: (← assignments rest)

/-- A widget with a property set to a value, given as text and as truth value. -/
def setOn (w : Widget) (name text : String) (flag : Bool) (renderType : RenderType) : Widget :=
  if name = "visible" then { w with visible := flag }
  else if name = "invisible-element" then { w with invisibleElement := text }
  else if name = "element" then { w with element := text }
  else if name = "has-id" then { w with hasId := flag }
  else if name = "render-type" then { w with renderType }
  else w.setAttribute (bareName name) text

/-- The render type that a property is set to; it only matters to `render-type`. -/
def renderTypeFor (a : Assignment) (text : String) : Engine RenderType := do
  if a.name = "render-type" then
    match RenderType.ofWord? text with
    | some r => return r
    | none => Engine.fail a.node (.execution (.unknownRenderType text))
  else return .normal

/-- Sets properties of the widget with an id. Setting `id` gives the widget
another id, which later properties then go by. -/
def assignAll (h : Handle) : (id : String) → List Assignment → Engine Unit
  | _, [] => pure ()
  | id, a :: rest => do
    let s ← Engine.nodes
    let text ← match a.value with
      | some v => Halt.ofFault (s.display v false)
      | none => pure ""
    let flag := a.value.any Value.toBool
    if a.name = "id" then
      match (← widgets).rename id text with
      | .ok w =>
        setWidgets w
        assignAll h text rest
      | .error e => Engine.fail a.node (.execution (.rename e))
    else
      let renderType ← renderTypeFor a text
      let _ ← findWidget h id
      setWidgets ((← widgets).update id fun w => setOn w a.name text flag renderType)
      assignAll h id rest

/-- Sets properties. -/
def setProperty : Handler := fun _ h => do
  let ids ← (← Engine.nodes).strings h
  let todo ← assignments (← (← Engine.nodes).children h)
  ids.forM fun id => do
    let _ ← findWidget h id
    assignAll h id todo

-- ---------------------------------------------------------------------------
-- Deleting
-- ---------------------------------------------------------------------------

/-- Deletes attributes. Built-in properties cannot be deleted. -/
def deleteProperty : Handler := fun _ h => do
  let s ← Engine.nodes
  let n ← s.node h
  if n.value.isSome ∧ n.children ≠ [] then
    let ids ← s.strings h
    let names ← propertyNames n.children
    match names.find? builtInProperties.contains with
    | some name => Engine.fail h (.execution (.builtInProperty name))
    | none =>
      ids.forM fun id => do
        let _ ← findWidget h id
        setWidgets ((← widgets).update id fun w =>
          names.foldl (fun w name => w.removeAttribute (bareName name)) w)

end TreeScript.Keyword
