import TreeScript.Conversion
import TreeScript.Path.Resolve
import TreeScript.Store.Load

/-!
# TreeScript — sessions

A program runs in a session: the node store, the widgets, the disk, the ticket
of the caller, the present depth of block executions and the lines that
handlers have noted down. A step of the engine changes the session and gives a
result, or halts; what was done before a halt stays done.

* `Session`, `Settings`, `Engine` — the types;
* `Engine.nodes`, `Engine.change` — the node store inside a session;
* `Engine.attempt`, `Engine.always` — going on after a failure;
* `Engine.nested` — one block execution deeper;
* one function per edit of the store.
-/

namespace TreeScript

/-- All that a running program can change. -/
structure Session where
  nodes : Store := Store.empty
  widgets : WidgetStore := {}
  disk : Disk := {}
  ticket : Ticket := {}
  depth : Nat := 0
  journal : List String := []

/-- All that stays the same while a program runs: how texts are converted, who
may touch which path, where the disk is entered and where lambda paths start,
and how deep blocks may be nested. -/
structure Settings where
  converter : Converter := Converter.standard
  access : Guard := {}
  workFolder : List String := []
  fileRoot : String := "."
  maxDepth : Nat := 256

/-- A computation in a session. A failure leaves the session as it was when the
failure occurred. -/
abbrev Engine (α : Type) : Type := EStateM Halt Session α

instance : MonadLift (Except Halt) (EStateM Halt Session) where
  monadLift
    | .ok a => pure a
    | .error e => throw e

namespace Engine

-- ---------------------------------------------------------------------------
-- The node store
-- ---------------------------------------------------------------------------

/-- The node store. -/
def nodes : Engine Store := return (← get).nodes

/-- Puts another node store in place. -/
def setNodes (s : Store) : Engine Unit := modify fun session => { session with nodes := s }

/-- Changes the node store and gives a result. A fault leaves it as it was. -/
def change {α : Type} (f : Store → Except Fault (α × Store)) : Engine α := fun session =>
  match f session.nodes with
  | .ok (a, s) => .ok a { session with nodes := s }
  | .error fault => .error (.fault fault) session

/-- Changes the node store. -/
def edit (f : Store → Except Fault Store) : Engine Unit :=
  change fun s => (f s).map fun s => ((), s)

/-- Whether a node is alive. -/
def isAlive (h : Handle) : Engine Bool := return (← nodes).isAlive h

/-- Fails with a failure that is about a node. -/
def fail {α : Type} (h : Handle) (f : NodeContext → Failure) : Engine α := do
  (← nodes).fail h f

/-- A new node without parent. -/
def create (name : String) (v : Option Value) : Engine Handle :=
  change fun s => .ok (s.create name v)

/-- A new node as the last child of a node. -/
def add (parent : Handle) (name : String) (v : Option Value) : Engine Handle :=
  change fun s => s.add parent name v

/-- A copy of a node without parent. -/
def deepClone (h : Handle) : Engine Handle := change fun s => s.deepClone h

/-- Takes a node out of its parent's children. -/
def detach (h : Handle) : Engine Unit := edit fun s => .ok (s.detach h)

/-- Frees a node with all that it holds. -/
def remove (h : Handle) : Engine Unit := edit fun s => .ok (s.remove h)

/-- Frees all children of a node. -/
def clear (h : Handle) : Engine Unit := edit fun s => s.clear h

/-- Gives a node a name. -/
def rename (h : Handle) (name : String) : Engine Unit := edit fun s => s.rename h name

/-- Gives a node a value. -/
def setValue (h : Handle) (v : Option Value) : Engine Unit := edit fun s => s.setValue h v

/-- Takes the value out of a node. -/
def takeValue (h : Handle) : Engine (Option Value) := change fun s => s.takeValue h

/-- The outcome of a move; a move that is refused is a failure. -/
def ofMove : Except Store.InsertError Store → Engine Unit
  | .ok s => setNodes s
  | .error (.cyclic c p) => throw (.failure (.cyclicInsertion c p))
  | .error (.fault fault) => throw (.fault fault)

/-- Moves a node below another at a position. -/
def insert (parent : Handle) (index : Nat) (child : Handle) : Engine Unit := do
  ofMove ((← nodes).insert parent index child)

/-- Moves a node below another, behind its children. -/
def append (parent child : Handle) : Engine Unit := do
  ofMove ((← nodes).append parent child)

/-- Reads a source text as a new node without parent; a faulty text leaves no node. -/
def load (text : String) : Engine (Except ReadError Handle) := change fun s => .ok (s.load text)

/-- Reads a source text as the last children of a node. The nodes in front of a
faulty line stay. -/
def parseBelow (h : Handle) (text : String) : Engine Unit := do
  let (s, fault) := (← nodes).parseBelow h text
  setNodes s
  match fault with
  | none => pure ()
  | some e => throw (.failure (.unreadable e))

-- ---------------------------------------------------------------------------
-- Failures
-- ---------------------------------------------------------------------------

/-- The outcome of a computation that may fail. A fault of the store is no
outcome: it ends this computation too. -/
def attempt {α : Type} (x : Engine α) : Engine (Except Failure α) := fun session =>
  match x session with
  | .ok a session => .ok (.ok a) session
  | .error (.failure f) session => .ok (.error f) session
  | .error (.fault f) session => .error (.fault f) session

/-- Gives an outcome back as what it was. -/
def ofOutcome {α : Type} : Except Failure α → Engine α
  | .ok a => pure a
  | .error f => throw (.failure f)

/-- Does `last` after a computation, whether that fails or not. -/
def always {α : Type} (x : Engine α) (last : Engine Unit) : Engine α := do
  let outcome ← attempt x
  last
  ofOutcome outcome

-- ---------------------------------------------------------------------------
-- Depth
-- ---------------------------------------------------------------------------

/-- Runs a block execution one level deeper, and fails if that is too deep. -/
def nested {α : Type} (settings : Settings) (h : Handle) (body : Engine α) : Engine α := do
  if settings.maxDepth ≤ (← get).depth then
    fail h (.depthExceeded settings.maxDepth)
  else
    modify fun session => { session with depth := session.depth + 1 }
    always body (modify fun session => { session with depth := session.depth - 1 })

/-- Notes a line down. -/
def note (line : String) : Engine Unit :=
  modify fun session => { session with journal := session.journal ++ [line] }

end Engine

end TreeScript
