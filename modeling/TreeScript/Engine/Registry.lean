import Std.Data.TreeMap
import TreeScript.Engine.Control
import TreeScript.Engine.Session

/-!
# TreeScript — handlers

A node is executed by the handlers registered for its name, one after the
other, as long as the node is there. A handler runs in a scope: the settings,
a way to dispatch further nodes, and a bound on how much more may be
dispatched. The bound is what makes every execution end; a program that needs
more than the bound ends in the fault `endless`.

* `Scope`, `Handler`, `Registry`, `UnknownEvents` — the types;
* `Registry.register`, `Registry.names` — which handlers there are;
* `Registry.dispatch` — executing a node.
-/

namespace TreeScript

/-- What happens to a name that no handler is registered for. -/
inductive UnknownEvents where
  | error
  | ignore
  deriving DecidableEq, Repr

namespace UnknownEvents

/-- The word for each choice. -/
def word : UnknownEvents → String
  | .error => "error"
  | .ignore => "ignore"

/-- The choice of a word in any letter case. -/
def ofWord? (text : String) : Option UnknownEvents :=
  [error, ignore].find? fun u => u.word == text.map Char.toLower

/-- What is said about a word that is no choice. -/
def unknownWord (text : String) : String :=
  "unknown event policy '" ++ text ++ "', expected 'error' or 'ignore'"

end UnknownEvents

/-- What a handler has besides the session. -/
structure Scope where
  settings : Settings
  fuel : Nat
  dispatch : (name : String) → Handle → Engine Unit

/-- Something that executes a node. -/
abbrev Handler : Type := Scope → Handle → Engine Unit

/-- Executes a node by its own name. -/
def Scope.raise (scope : Scope) (h : Handle) : Engine Unit := do
  let name ← (← Engine.nodes).name h
  scope.dispatch name h

/-- The handlers of each name, in the order of their registration. -/
structure Registry where
  handlers : Std.TreeMap String (List Handler) := {}
  unknown : UnknownEvents := .error

namespace Registry

/-- Adds a handler behind those that a name has. -/
def register (r : Registry) (name : String) (handler : Handler) : Registry :=
  { r with handlers := r.handlers.insert name ((r.handlers[name]?).getD [] ++ [handler]) }

/-- Whether a name has a handler. -/
def contains (r : Registry) (name : String) : Bool := r.handlers.contains name

/-- The names that have handlers, in order. -/
def names (r : Registry) : List String := r.handlers.keys

/-- Runs handlers one after the other, as long as the node is there. -/
def runAll (scope : Scope) (h : Handle) : List Handler → Engine Unit
  | [] => pure ()
  | handler :: rest => do
    if ← Engine.isAlive h then
      handler scope h
      runAll scope h rest

/-- Executes a node under a name. -/
def dispatch (r : Registry) (settings : Settings) :
    (fuel : Nat) → (name : String) → Handle → Engine Unit
  | 0, _, _ => throw (.fault .endless)
  | fuel + 1, name, h =>
    match r.handlers[name]? with
    | some handlers => runAll ⟨settings, fuel, dispatch r settings fuel⟩ h handlers
    | none =>
      match r.unknown with
      | .error => Engine.fail h (.unknownEvent name)
      | .ignore => pure ()

/-- The scope at the beginning of a program. -/
def scope (r : Registry) (settings : Settings) (fuel : Nat) : Scope :=
  ⟨settings, fuel, r.dispatch settings fuel⟩

end Registry

end TreeScript
