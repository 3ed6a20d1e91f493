import TreeScript.Engine.Block

/-!
# TreeScript — executing nodes

A node without value is a block of its own children. A node with a value names
its blocks by it: every node, and every text read as a document, that the value
leads to is executed in turn, each with clones of the node's children as
arguments. A program is the block of its root.

* `Source`, `toSource` — what a value leads to, as a block;
* `execute` — executing a node in one of the two ways;
* `evaluate` — executing a program.
-/

namespace TreeScript

/-- A block to execute, and whether it has to be freed afterwards. -/
structure Source where
  block : Handle
  owned : Bool

/-- A text as a block of its own. -/
def sourceOfText (h : Handle) (text : String) : Engine (Option Source) := do
  match ← Engine.load text with
  | .ok block => return some ⟨block, true⟩
  | .error e => Engine.fail h (.notExecutable (.unreadable e))

/-- The block that an item stands for; none for a node that is gone. -/
def toSource (h : Handle) : Item → Engine (Option Source)
  | .node block => live block
  | .value (.node block) => live block
  | .value (.ref block) => live block
  | .value (.scalar (.string text)) => sourceOfText h text
  | .name text => sourceOfText h text
  | .value v => Engine.fail h (.notExecutable (.wrongType v.typeName))
  | .count _ => Engine.fail h (.notExecutable .count)
where
  /-- A node that is there is executed as it is. -/
  live (block : Handle) : Engine (Option Source) := do
    if ← Engine.isAlive block then return some ⟨block, false⟩ else return none

/-- Executes blocks one after the other until a signal is pending at the node
or the node is gone; `first` holds until one of them has been executed. -/
def runSources (mode : BlockMode) (scope : Scope) (h : Handle) (args : List Handle) :
    (first : Bool) → List Item → Engine Unit
  | _, [] => pure ()
  | first, item :: rest => do
    if ← Engine.isAlive h then
      match ← toSource h item with
      | none => runSources mode scope h args first rest
      | some source =>
        Engine.always (executeBlock mode scope source.block h args first)
          (if source.owned then Engine.remove source.block else pure ())
        let c ← (← Engine.nodes).pending h
        unless c.isActive do runSources mode scope h args false rest

/-- Executes the blocks that a node's value leads to. All of them see the
arguments as they are now, so these are set aside as clones. -/
def executeSources (mode : BlockMode) (scope : Scope) (h : Handle) : Engine Unit := do
  let items ← (← Engine.nodes).resolve h
  let args ← (← Engine.nodes).children h
  let templates ← args.mapM Engine.deepClone
  Engine.always (runSources mode scope h templates true items) (templates.forM Engine.remove)

/-- Executes a node: the blocks that its value leads to, or its own children if
it has no value or `own` asks for them. -/
def execute (mode : BlockMode) (scope : Scope) (h : Handle) (own : Bool) : Engine Unit :=
  Engine.nested scope.settings h do
    if own then executeBlock mode scope h h [] true
    else
      match ← (← Engine.nodes).value h with
      | none => executeBlock mode scope h h [] true
      | some _ => executeSources mode scope h

/-- Executes a program. A signal left at its root is removed. -/
def evaluate (scope : Scope) (root : Handle) : Engine Unit := do
  execute .inPlace scope root true
  let _ ← Engine.change fun s => s.clearSignal root

end TreeScript
