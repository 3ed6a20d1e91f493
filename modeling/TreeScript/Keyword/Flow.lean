import TreeScript.Keyword.Arguments

/-!
# TreeScript — keywords of control

Executing blocks from within a program, ending them early, and repeating them.

* `eval`, `evalMutable` — execute on a copy, or in place;
* `returnValue`, `breakLoop`, `continueLoop` — raise a signal;
* `forEach` — execute the children once per item of the value.
-/

namespace TreeScript.Keyword

/-- Executes a node on a copy. Under any other name than its own, the children
of the node are the block. -/
def eval : Handler := fun scope h => do
  let name ← (← Engine.nodes).name h
  execute .copy scope h (name != "eval")

/-- Executes a node in place. -/
def evalMutable : Handler := fun scope h => do
  let name ← (← Engine.nodes).name h
  execute .inPlace scope h (name != "eval-mutable")

/-- Raises a signal at the root of a node's tree. -/
def raiseSignal (c : Control) (h : Handle) : Engine Unit := Engine.edit fun s => s.signal h c

/-- Ends the present scope. What the value leads to becomes the value of the
root, and clones of the children become its last children. -/
def returnValue : Handler := fun _ h => do
  match (← Engine.nodes).root? h with
  | none => pure ()
  | some root =>
    if ((← (← Engine.nodes).value h)).isSome then
      match ← (← Engine.nodes).singleValue h with
      | none => Engine.setValue root none
      | some v => Engine.setValue root (some (← ownValue v))
    let below ← (← Engine.nodes).children h
    below.forM fun child => do
      let copy ← Engine.deepClone child
      Engine.append root copy
    raiseSignal .return h

/-- Ends the loop around it. -/
def breakLoop : Handler := fun _ h => raiseSignal .break h

/-- Ends the present round of the loop around it. -/
def continueLoop : Handler := fun _ h => raiseSignal .continue h

-- ---------------------------------------------------------------------------
-- Loops
-- ---------------------------------------------------------------------------

/-- What a round of a loop sees of its item: nodes by reference, anything else
by value. None for a node that is gone. -/
def itemValue : Item → Engine (Option Value)
  | .node target => do
    if ← Engine.isAlive target then return some (.ref target) else return none
  | .value v => do return some (← ownValue v)
  | .name text => return some (.scalar (.string text))
  | .count n => return some (.scalar (.int (Int64.ofNat n)))

/-- The rounds of a loop, each on a fresh copy of the body behind a child `_dp`
that holds the item. The loop ends early when its node is gone. -/
def rounds (scope : Scope) (h : Handle) (body : List Handle) : List Item → Engine Unit
  | [] => pure ()
  | item :: rest => do
    if ← Engine.isAlive h then
      match ← itemValue item with
      | none => rounds scope h body rest
      | some current =>
        Engine.clear h
        let _ ← Engine.add h "_dp" (some current)
        cloneBehind h body
        match ← executeAll scope h with
        | .none => rounds scope h body rest
        | .continue =>
          let _ ← Engine.change fun s => s.clearSignal h
          rounds scope h body rest
        | .break => let _ ← Engine.change fun s => s.clearSignal h
        | .return => pure ()

/-- Puts the body of a loop back, or frees it if the loop's node is gone. -/
def restoreBody (h : Handle) (body : List Handle) : Engine Unit := do
  if ← Engine.isAlive h then
    Engine.clear h
    body.forM (Engine.append h)
  else
    body.forM Engine.remove

/-- Executes the children of a node once per item of its value, and puts them
back as they were. -/
def forEach : Handler := fun scope h => do
  let items ← (← Engine.nodes).resolve h
  let body ← (← Engine.nodes).children h
  body.forM Engine.detach
  Engine.always (Engine.nested scope.settings h (rounds scope h body items)) (restoreBody h body)

end TreeScript.Keyword
