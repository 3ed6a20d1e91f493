import TreeScript.Engine.Loop

/-!
# TreeScript — blocks

A block is executed on a copy or in place. A copy sees clones of the
arguments in front of its own children; what it makes as new children goes to
a destination, together with its value, and no signal leaves it. In place, the
arguments are cloned behind the block's children and the caller's own nodes
are executed.

* `BlockMode` — the two ways;
* `executeCopy`, `executeInPlace` — the two runners.
-/

namespace TreeScript

/-- How a block is executed. -/
inductive BlockMode where
  | copy
  | inPlace
  deriving DecidableEq, Repr

/-- Clones of some nodes, in front of the children of another. -/
def cloneInFront (target : Handle) : (args : List Handle) → Engine Unit
  | [] => pure ()
  | arg :: rest => do
    cloneInFront target rest
    let c ← Engine.deepClone arg
    Engine.insert target 0 c

/-- Clones of some nodes, behind the children of another. -/
def cloneBehind (target : Handle) : (args : List Handle) → Engine Unit
  | [] => pure ()
  | arg :: rest => do
    let c ← Engine.deepClone arg
    Engine.append target c
    cloneBehind target rest

/-- Moves what a copy made, and its value, to the destination; the old children
of the destination go first if `first` says so. If the destination is gone,
nothing is moved. -/
def deliver (copy destination : Handle) (known : List Handle) (first : Bool) : Engine Unit := do
  if ← Engine.isAlive destination then
    if first then Engine.clear destination
    let below ← (← Engine.nodes).children copy
    (below.filter fun c => !known.contains c).forM (Engine.append destination)
    let v ← Engine.takeValue copy
    Engine.setValue destination v

/-- Executes a copy that is in place already. -/
def runCopy (scope : Scope) (copy destination : Handle) (args : List Handle) (first : Bool) :
    Engine Unit := do
  cloneInFront copy args
  let known ← (← Engine.nodes).children copy
  let c ← executeAll scope copy
  Engine.edit fun s => s.stripReturn copy
  if c ≠ .none ∧ c ≠ .return then
    let _ ← Engine.change fun s => s.clearSignal copy
  deliver copy destination known first

/-- Executes a copy of a block and hands what it made to a destination. The
copy is freed whatever happens. -/
def executeCopy (scope : Scope) (block destination : Handle) (args : List Handle) (first : Bool) :
    Engine Unit := do
  let copy ← Engine.deepClone block
  Engine.always (runCopy scope copy destination args first) (Engine.remove copy)

/-- Executes a block in place. A `_return` in front of its own children ends
here; other signals are left for the loops around it. -/
def executeInPlace (scope : Scope) (block : Handle) (args : List Handle) : Engine Control := do
  cloneBehind block args
  let c ← executeAll scope block
  Engine.edit fun s => s.stripReturn block
  return c

/-- Executes a block in one of the two ways. -/
def executeBlock (mode : BlockMode) (scope : Scope) (block destination : Handle)
    (args : List Handle) (first : Bool) : Engine Unit := do
  match mode with
  | .copy => executeCopy scope block destination args first
  | .inPlace => let _ ← executeInPlace scope block args

end TreeScript
