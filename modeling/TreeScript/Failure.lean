import TreeScript.Access
import TreeScript.Disk
import TreeScript.Path.Basic
import TreeScript.Store.Move
import TreeScript.Widget

/-!
# TreeScript — failures

Every way in which running a program can fail, each with the node it is about.
The node is kept as its name and text, so a failure can still be shown after
the node is gone. A failure is an outcome like any other; a *halt* is a
failure or a fault of the store, and nothing runs after a fault.

* `Failure`, `Failure.message`, `Failure.kind`, `Failure.node?` — failures;
* `Halt` — what ends a computation early.
-/

namespace TreeScript

/-- Why something a value leads to cannot be executed as a block. -/
inductive NotExecutable where
  | wrongType (typeName : String)
  | count
  | unreadable (error : ReadError)
  deriving DecidableEq, Repr

/-- The wording of each cause. -/
def NotExecutable.message : NotExecutable → String
  | .wrongType typeName => "a value of type '" ++ typeName ++ "' cannot be executed"
  | .count => "a count cannot be executed"
  | .unreadable error => "text is not valid lambda: " ++ error.message

/-- Why a handler failed. -/
inductive ExecutionCause where
  | negativeOffset (offset : Int)
  | noWidget (id : String)
  | rename (error : RenameError)
  | unknownRenderType (text : String)
  | builtInProperty (name : String)
  | noFilePath
  | other (message : String)
  deriving DecidableEq, Repr

/-- The wording of each cause. -/
def ExecutionCause.message : ExecutionCause → String
  | .negativeOffset offset => "[offset] of " ++ toString offset ++ " is negative"
  | .noWidget id => "no widget with id '" ++ id ++ "'"
  | .rename error => error.message
  | .unknownRenderType text => "unknown render type '" ++ text ++ "'"
  | .builtInProperty name => "cannot remove property '" ++ name ++ "' of widget"
  | .noFilePath => "no file path given"
  | .other message => message

/-- The three kinds of failures: of the program's structure, of a name that
nobody handles, and of a handler. -/
inductive FailureKind where
  | structural
  | dispatch
  | handler
  deriving DecidableEq, Repr

/-- A failure of a program. -/
inductive Failure where
  | offsetOutOfRange (offset count : Nat) (node : NodeContext)
  | cyclicInsertion (child parent : NodeContext)
  | notExecutable (cause : NotExecutable) (node : NodeContext)
  | depthExceeded (limit : Nat) (node : NodeContext)
  | expression (text : String) (cause : PathError) (node : NodeContext)
  | unreadable (error : ReadError)
  | unknownEvent (name : String) (node : NodeContext)
  | execution (cause : ExecutionCause) (node : NodeContext)
  | denied (denial : Denied) (node : NodeContext)
  | conversion (error : ConversionError) (node : NodeContext)
  | file (path : String) (error : FileError) (node : NodeContext)
  deriving DecidableEq, Repr

namespace Failure

/-- The wording of each failure. -/
def message : Failure → String
  | .offsetOutOfRange offset count node =>
    "[offset] of " ++ toString offset ++ " is too large for " ++ node.label ++
      ", which has only " ++ toString count ++ " children"
  | .cyclicInsertion child parent =>
    "cannot insert " ++ child.label ++ " beneath " ++ parent.label ++
      ", it would become its own ancestor"
  | .notExecutable cause node =>
    node.label ++ " does not resolve to an executable lambda block: " ++ cause.message
  | .depthExceeded limit node =>
    "maximum execution depth of " ++ toString limit ++ " exceeded while executing " ++ node.label
  | .expression text cause node =>
    "invalid expression '" ++ text ++ "' in " ++ node.label ++ ": " ++ cause.message
  | .unreadable error => "parse error: " ++ error.message
  | .unknownEvent name _ => "no handler registered for [" ++ name ++ "]"
  | .execution cause node => cause.message ++ " in " ++ node.label
  | .denied denial _ => "access denied: " ++ denial.reason
  | .conversion error node => error.message ++ " in " ++ node.label
  | .file path error node =>
    "I/O error on '" ++ path ++ "': " ++ error.message ++ " in " ++ node.label

/-- The kind of a failure. -/
def kind : Failure → FailureKind
  | .offsetOutOfRange .. => .structural
  | .cyclicInsertion .. => .structural
  | .notExecutable .. => .structural
  | .depthExceeded .. => .structural
  | .expression .. => .structural
  | .unreadable .. => .structural
  | .unknownEvent .. => .dispatch
  | .execution .. => .handler
  | .denied .. => .handler
  | .conversion .. => .handler
  | .file .. => .handler

/-- The node that a failure is about. -/
def node? : Failure → Option NodeContext
  | .offsetOutOfRange _ _ node => some node
  | .cyclicInsertion child _ => some child
  | .notExecutable _ node => some node
  | .depthExceeded _ node => some node
  | .expression _ _ node => some node
  | .unreadable _ => none
  | .unknownEvent _ node => some node
  | .execution _ node => some node
  | .denied _ node => some node
  | .conversion _ node => some node
  | .file _ _ node => some node

end Failure

/-- What ends a computation early. -/
inductive Halt where
  | failure (f : Failure)
  | fault (f : Fault)
  deriving DecidableEq, Repr

/-- A fault ends a computation. -/
def Halt.ofFault {α : Type} (r : Except Fault α) : Except Halt α := r.mapError .fault

instance : MonadLift (Except Fault) (Except Halt) := ⟨Halt.ofFault⟩

/-- The failure that is about a node, which is shown as it is now. -/
def Store.fail {α : Type} (s : Store) (h : Handle) (f : NodeContext → Failure) : Except Halt α :=
  match s.describe h with
  | .ok context => .error (.failure (f context))
  | .error fault => .error (.fault fault)

end TreeScript
