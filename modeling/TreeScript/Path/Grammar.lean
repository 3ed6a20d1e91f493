import TreeScript.Path.Basic
import TreeScript.Text.Peg

/-!
# TreeScript — the grammar of path expressions

The rules by which a text is a path expression. A step begins with a slash; its kind is found by
trying one kind after the other, and each of them has to be followed by the next slash, by the
question mark or by the end of the text. The form of the whole text is looked at before any number
in it is.

* `Path.Grammar.step`, `Path.Grammar.expression` — the rules;
* `Path.Raw`, `Path.Raw.step` — a step before its numbers are read, and the step;
* `PathExpr.parse` — a text as an expression.
-/

namespace TreeScript

namespace Path

/-- A step before its numbers are read. -/
inductive Raw where
  | ready (step : Step)
  | index (digits : List Char)
  | range (first last : List Char)
  deriving DecidableEq, Repr

/-- The number of some digits, if 64 bits hold it. -/
def readIndex (digits : List Char) : Except PathError Nat :=
  match Numeral.readUp (Numeral.span 64 - 1) 0 digits with
  | .ok n => .ok n
  | .error _ => .error (.number (String.ofList digits))

/-- A step with its numbers. -/
def Raw.step : Raw → Except PathError Step
  | .ready step => .ok step
  | .index digits => do .ok (.index (← readIndex digits))
  | .range first last => do .ok (.range (← readIndex first) (← readIndex last))

namespace Grammar

open Peg

/-- What comes behind a step. -/
def boundary : Peg Unit := lit "/" <|> lit "?" <|> ends

/-- Some text between slashes. -/
def segment : Peg (List Char) :=
  many1 do
    notAhead (lit "/" <|> lit "?")
    any

/-- Some decimal digits. -/
def number : Peg (List Char) := many1 (satisfy fun c => (Numeral.digit? c).isSome)

/-- A step that is written with a fixed sign. -/
def sign (text : String) (step : Step) : Peg Raw := do
  lit text
  ahead boundary
  return .ready step

/-- The children between two places. -/
def range : Peg Raw := do
  lit "["
  let first ← number
  lit ","
  let last ← number
  lit "]"
  ahead boundary
  return .range first last

/-- The child at a place. -/
def index : Peg Raw := do
  let digits ← number
  ahead boundary
  return .index digits

/-- A value with a certain text. -/
def valueEquals : Peg Raw := do
  lit "="
  let text ← optional segment
  return .ready (.valueEquals (String.ofList (text.getD [])))

/-- A name. -/
def named : Peg Raw := do
  let name ← segment
  return .ready (.named (String.ofList name))

/-- What stands behind a slash. -/
def iterator : Peg Raw :=
  sign ".." .root
    <|> sign "." .parent
    <|> sign "**" .descendants
    <|> sign "*" .children
    <|> sign "#" .reference
    <|> sign "-" .previous
    <|> sign "+" .next
    <|> range
    <|> index
    <|> valueEquals
    <|> named

/-- A slash and a step. -/
def step : Peg Raw := do
  lit "/"
  iterator

/-- The word for what is asked for. -/
def yieldWord (y : Yield) : Peg Yield := do
  lit y.word
  return y

/-- A question mark and what is asked for. -/
def «yield» : Peg Yield := do
  lit "?"
  yieldWord .value <|> yieldWord .name <|> yieldWord .count <|> yieldWord .node

/-- A whole expression. Nodes are asked for if nothing else is. -/
def expression : Peg (List Raw × Yield) := do
  let steps ← many step
  let asked ← optional «yield»
  ends
  return (steps, asked.getD .node)

end Grammar

end Path

/-- The expression that a text stands for. -/
def PathExpr.parse (text : String) : Except PathError PathExpr :=
  match Path.Grammar.expression.run text.toList with
  | none => .error .malformed
  | some ((steps, yield), _) => do .ok ⟨← steps.mapM Path.Raw.step, yield⟩

end TreeScript
