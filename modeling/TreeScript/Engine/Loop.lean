import TreeScript.Engine.Registry

/-!
# TreeScript — the statement loop

The children of a block are executed one after the other. A handler may change
any part of the tree, so the loop keeps only the present node and what stood
around it, and looks at the tree again after each step. Data (`_x`), callbacks
(`.x`), nameless nodes and the marker that says where to start are passed over.

* `isExecutable` — which names are executed;
* `Surroundings`, `Surroundings.advance` — where to go on after a step;
* `startPosition` — where to start;
* `executeAll` — the loop.
-/

namespace TreeScript

/-- Whether nodes with this name are executed. -/
def isExecutable (name : String) : Bool :=
  match name.toList.head? with
  | none => false
  | some c => !(c == '_' || c == '.')

-- ---------------------------------------------------------------------------
-- Where to go on
-- ---------------------------------------------------------------------------

/-- What stood around a node before it was executed. -/
structure Surroundings where
  parent : Option Handle
  previous : Option Handle
  following : Option Handle
  deriving DecidableEq, Repr

namespace Surroundings

/-- What stands around a node. -/
def ofNode (s : Store) (h : Handle) : Surroundings where
  parent := s.parent? h
  previous := s.previousSibling? h
  following := s.nextSibling? h

/-- The first of the children of `parent` that stand in front of `stop`, or
`stop` itself, but none up to `previous`. -/
def firstAfter (s : Store) (parent : Handle) (previous : Option Handle) (stop : Handle) : Handle :=
  let front := ((s.childList parent).takeWhile (· != stop)).reverse
  (front.takeWhile fun x => some x != previous).getLast?.getD stop

/-- The node to execute after `h`. If `h` is still somewhere, it is the node
after it there, or else the one that followed it before. If `h` is gone, it is
the one that followed; where that and the one in front are still in their
places, nodes put between them come first. -/
def advance (x : Surroundings) (s : Store) (h : Handle) : Option Handle :=
  let following := x.following.filter fun f => (s.parent? f).isSome
  if (s.parent? h).isSome then (s.nextSibling? h).or following
  else
    match following with
    | none => none
    | some f =>
      match s.parent? f with
      | none => some f
      | some p =>
        let inPlace := x.previous.all fun q => s.parent? q == x.parent
        if some p = x.parent ∧ inPlace then some (firstAfter s p x.previous f) else some f

end Surroundings

-- ---------------------------------------------------------------------------
-- Where to start
-- ---------------------------------------------------------------------------

/-- The name of the child that says where execution starts. -/
def markerName : String := "offset"

/-- The position of the first child to execute; `none` if the marker says to
start behind the last one. -/
def startPosition (settings : Settings) (s : Store) (block : Handle) (marker : Option Handle) :
    Except Halt (Option Nat) := do
  match marker with
  | none => .ok (some 0)
  | some m =>
    match ← s.singleValue m with
    | none => .ok (some 0)
    | some v =>
      match settings.converter.toInteger v with
      | .error e => s.fail m (.conversion e)
      | .ok offset =>
        let count ← s.childCount block
        if offset < 0 then s.fail m (.execution (.negativeOffset offset))
        else if offset = count then .ok none
        else if count < offset then s.fail block (.offsetOutOfRange offset.toNat count)
        else .ok (some offset.toNat)

-- ---------------------------------------------------------------------------
-- The loop
-- ---------------------------------------------------------------------------

/-- Executes a node unless it is passed over. -/
def executeOne (scope : Scope) (marker : Option Handle) (h : Handle) : Engine Unit := do
  if some h ≠ marker then
    let name ← (← Engine.nodes).name h
    if isExecutable name then scope.dispatch name h

/-- At most `fuel` steps of the loop, from the present node on. -/
def loop (scope : Scope) (block : Handle) (marker : Option Handle) :
    (fuel : Nat) → Option Handle → Engine Control
  | _, none => pure .none
  | 0, some _ => throw (.fault .endless)
  | fuel + 1, some h => do
    let around := Surroundings.ofNode (← Engine.nodes) h
    executeOne scope marker h
    let s ← Engine.nodes
    let c ← s.pending block
    if c.isActive then return c
    loop scope block marker fuel (around.advance s h)

/-- Executes the children of a block, and gives the signal that ended it. -/
def executeAll (scope : Scope) (block : Handle) : Engine Control := do
  let s ← Engine.nodes
  let marker ← s.childNamed? block markerName
  match ← startPosition scope.settings s block marker with
  | none => return .none
  | some start => loop scope block marker scope.fuel (s.child? block start)

end TreeScript
