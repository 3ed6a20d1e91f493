import TreeScript.Store.Edit

/-!
# TreeScript — control signals

`return`, `break` and `continue` do not unwind anything by themselves. Each
puts a sentinel, a node with a name of its own, in front of all children of
the root of the tree that is being executed; every statement loop looks there
after each step.

* `Control` — the signals, with the names of their sentinels;
* `Store.pending` — the signal at the root of a node's tree;
* `Store.signal`, `Store.clearSignal`, `Store.stripReturn` — raising and
  removing signals.
-/

namespace TreeScript

/-- A control signal, or none. -/
inductive Control where
  | none
  | return
  | break
  | continue
  deriving DecidableEq, Repr

namespace Control

/-- The name of the sentinel of a signal. -/
def sentinel? : Control → Option String
  | .none => Option.none
  | .return => some "_return"
  | .break => some "_break"
  | .continue => some "_continue"

/-- The signal that a node with this name stands for. -/
def ofName (name : String) : Control :=
  if name = "_return" then .return
  else if name = "_break" then .break
  else if name = "_continue" then .continue
  else .none

/-- Whether there is a signal. -/
def isActive (c : Control) : Bool := c != .none

end Control

namespace Store

/-- The first child of the root of a node's tree. -/
def frontOf? (s : Store) (h : Handle) : Option Handle := (s.root? h).bind s.firstChild?

/-- The signal at the root of a node's tree. -/
def pending (s : Store) (h : Handle) : Except Fault Control :=
  match s.frontOf? h with
  | none => .ok .none
  | some first => (s.name first).map Control.ofName

/-- Puts a sentinel at the root of a node's tree. A sentinel is new, so it stands
above nothing. -/
def signal (s : Store) (h : Handle) (c : Control) : Except Fault Store :=
  match s.root? h, c.sentinel? with
  | some root, some name =>
    let (sentinel, s) := s.create name none
    s.moveBelow root 0 sentinel
  | _, _ => .ok s

/-- Removes the signal at the root of a node's tree and gives it back. -/
def clearSignal (s : Store) (h : Handle) : Except Fault (Control × Store) :=
  match s.frontOf? h with
  | none => .ok (.none, s)
  | some first => do
    let c := Control.ofName (← s.name first)
    .ok (c, if c.isActive then s.remove first else s)

/-- Removes a `_return` sentinel in front of a node's children. -/
def stripReturn (s : Store) (h : Handle) : Except Fault Store :=
  match s.firstChild? h with
  | none => .ok s
  | some first => do
    .ok (if Control.ofName (← s.name first) = .return then s.remove first else s)

end Store

end TreeScript
