import TreeScript.Command.Arguments
import TreeScript.Document.Json
import TreeScript.Engine.Execute
import TreeScript.Keyword.Standard

/-!
# TreeScript — commands

What a command prints, how it ends, and what it leaves on the disk. The
settings are looked up before anything else. A command that fails prints its
error with all causes behind it, each after a colon; what it did to the disk
before stays.

* `CommandError`, `CommandError.chain` — why a command fails;
* `Outcome` — the end of a command;
* `Invocation.perform` — a command on a disk;
* `perform` — a command line on a disk.
-/

namespace TreeScript

/-- Why a command fails. -/
inductive CommandError where
  | config (error : ConfigError)
  | unreadableFile (path : String) (error : FileError)
  | unreadableText (path : String) (error : ReadError)
  | failed (failure : Failure)
  | broken (fault : Fault)

/-- The causes behind a failure, as far as they are failures of their own. -/
def Failure.causes : Failure → List String
  | .denied denial _ => [denial.reason]
  | .conversion error _ => [error.message]
  | .unreadable error => [error.message]
  | _ => []

namespace CommandError

/-- What ends a computation, as the error of a command. -/
def ofHalt : Halt → CommandError
  | .failure f => .failed f
  | .fault f => .broken f

/-- The wording of an error and of what lies behind it. -/
def chain : CommandError → List String
  | .config error => error.message :: error.cause?.toList
  | .unreadableFile path error =>
    ["Failed to read lambda file: " ++ Text.shownQuoted path, error.message]
  | .unreadableText path error =>
    ["Failed to parse lambda file: " ++ Text.shownQuoted path, error.message]
  | .failed failure => failure.message :: failure.causes
  | .broken _ => ["a node that is gone was used"]

/-- The whole message. -/
def message (e : CommandError) : String := "Error: " ++ ": ".intercalate e.chain ++ "\n"

end CommandError

/-- The end of a command: its exit code, what it prints to either side, and the
disk afterwards. -/
structure Outcome where
  exit : Nat
  output : String := ""
  errors : String := ""
  disk : Disk

-- ---------------------------------------------------------------------------
-- Programs
-- ---------------------------------------------------------------------------

/-- The bound on dispatches inside one another. Blocks are bounded by the
settings long before that. -/
def dispatchBound : Nat := 1000000

/-- Reads a program into a store of its own. -/
def readProgram (disk : Disk) (folder : List String) (file : String) :
    Except CommandError (Handle × Store) :=
  match disk.readText folder file with
  | .error e => .error (.unreadableFile file e)
  | .ok text =>
    match Store.empty.load text with
    | (.error e, _) => .error (.unreadableText file e)
    | (.ok root, s) => .ok (root, s)

/-- A node as a command prints it: as JSON, or as source text. A node without value
is printed as its children. -/
def Store.printed (s : Store) (root : Handle) (json : Bool) : Except Fault String := do
  if json then
    let snapshot ← s.snapshot root
    return String.ofList (snapshot.json 0)
  else
    match ← s.value root with
    | some _ => s.render root
    | none => s.renderBelow root

/-- The settings of a program that runs in a folder. -/
def Config.settings (c : Config) (folder : List String) : Settings where
  access := c.access
  workFolder := folder
  fileRoot := c.fileRoot
  maxDepth := c.maxDepth

/-- Runs a program: on a copy of its nodes, of which only what it returns stays, or in place. -/
def Config.runProgram (c : Config) (folder : List String) (root : Handle) (copy : Bool) :
    Engine Unit :=
  let scope := (Registry.standard c.unknownEvents).scope (c.settings folder) dispatchBound
  if copy then execute .copy scope root true else evaluate scope root

-- ---------------------------------------------------------------------------
-- Commands
-- ---------------------------------------------------------------------------

namespace Outcome

/-- A command that fails. -/
def ofError (disk : Disk) (e : CommandError) : Outcome where
  exit := 1
  errors := e.message
  disk := disk

/-- A command that prints a text and a line end. -/
def ofText (disk : Disk) (text : String) : Outcome where
  exit := 0
  output := text ++ "\n"
  disk := disk

/-- A command that prints a node. -/
def ofNode (disk : Disk) (s : Store) (root : Handle) (json : Bool) : Outcome :=
  match s.printed root json with
  | .ok text => ofText disk text
  | .error fault => ofError disk (.broken fault)

end Outcome

/-- What is said about whether a path may be touched. -/
def accessOutcome (disk : Disk) (guard : Guard) (ticket : Ticket) (path : String) (write : Bool) :
    Outcome :=
  match if write then guard.modify ticket path else guard.read ticket path with
  | .ok _ =>
    let verb := if write then "modify" else "read"
    .ofText disk ("✓ " ++ ticket.role ++ " may " ++ verb ++ " " ++ path)
  | .error denied => { exit := 1, errors := "✗ " ++ denied.reason ++ "\n", disk }

/-- A command with its settings, in a folder of a disk. -/
def Command.perform (config : Config) (ticket : Ticket) (disk : Disk) (folder : List String) :
    Command → Outcome
  | .run file copy json =>
    match readProgram disk folder file with
    | .error e => .ofError disk e
    | .ok (root, nodes) =>
      match config.runProgram folder root copy { nodes, disk, ticket } with
      | .ok _ session => .ofNode session.disk session.nodes root json
      | .error halt session => .ofError session.disk (.ofHalt halt)
  | .parse file json =>
    match readProgram disk folder file with
    | .error e => .ofError disk e
    | .ok (root, nodes) => .ofNode disk nodes root json
  | .access path write => accessOutcome disk config.access ticket path write
  | .keywords =>
    let names := (Registry.standard config.unknownEvents).names
    { exit := 0, output := String.join (names.map fun name => name ++ "\n"), disk }

/-- A command, in a folder of a disk. -/
def Invocation.perform (i : Invocation) (disk : Disk) (folder : List String) (env : Environment) :
    Outcome :=
  match i.request.resolve disk folder env with
  | .error e => .ofError disk (.config e)
  | .ok config => i.command.perform config i.ticket disk folder

/-- A command line, in a folder of a disk. One that is refused ends with code 2. -/
def perform (words : List String) (disk : Disk) (folder : List String) (env : Environment) :
    Outcome :=
  match Invocation.ofWords? words with
  | none => { exit := 2, errors := Invocation.usage, disk }
  | some i => i.perform disk folder env

end TreeScript
