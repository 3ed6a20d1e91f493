import TreeScript.Text.Numeral

/-!
# TreeScript — path expressions

A path expression is a list of steps, each behind a slash, and a word behind a
question mark that says what to give for the nodes it ends at.

* `Path.Step`, `Path.Yield`, `PathExpr` — the parts and the whole;
* `PathError` — why a text is no expression.
-/

namespace TreeScript

namespace Path

/-- One step of a path expression. -/
inductive Step where
  | root
  | parent
  | children
  | descendants
  | reference
  | previous
  | next
  | index (n : Nat)
  | range (first last : Nat)
  | valueEquals (text : String)
  | named (name : String)
  deriving DecidableEq, Repr

/-- What an expression gives for the nodes it ends at. -/
inductive Yield where
  | node
  | value
  | name
  | count
  deriving DecidableEq, Repr

/-- The word for what an expression gives. -/
def Yield.word : Yield → String
  | .node => "node"
  | .value => "value"
  | .name => "name"
  | .count => "count"

end Path

/-- A path expression. -/
structure PathExpr where
  steps : List Path.Step
  yield : Path.Yield
  deriving DecidableEq, Repr

/-- Why a text is no path expression: its form is wrong, or a number in it has
more than 64 bits. -/
inductive PathError where
  | malformed
  | number (digits : String)
  deriving DecidableEq, Repr

/-- The wording of each error. -/
def PathError.message : PathError → String
  | .malformed => "syntax error"
  | .number digits => "invalid number '" ++ digits ++ "': " ++ Numeral.Fault.tooLarge.message

end TreeScript
