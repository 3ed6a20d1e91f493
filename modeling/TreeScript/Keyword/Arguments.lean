import TreeScript.Engine.Execute

/-!
# TreeScript — arguments of keywords

What several keywords do with the value and the children of their node.

* `ownValue` — a value that may be given to another node;
* `removeArguments` — takes the arguments away when a keyword is done.
-/

namespace TreeScript.Keyword

/-- A value that may be given to another node. A node is owned by one value
only, so an owned node that is there is copied. -/
def ownValue : Value → Engine Value
  | .node h => do
    if ← Engine.isAlive h then return .node (← Engine.deepClone h) else return .node h
  | v => return v

/-- Frees the given children of a node and takes its value away. -/
def removeArguments (h : Handle) (args : List Handle) : Engine Unit := do
  args.forM Engine.remove
  Engine.setValue h none

end TreeScript.Keyword
