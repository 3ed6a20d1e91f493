/-!
# TreeScript — parsing expressions

How a grammar is written down. A parsing expression looks at the front of a text: it matches or
it does not, and where it matches it takes some of the text and makes something of it. Of several
alternatives the first one that matches is taken, for good: none of the others is tried when what
comes behind does not match. A repetition takes as often as it can.

* `Peg` — parsing expressions; sequences are `do` blocks, alternatives `<|>` and `optional`;
* `Peg.satisfy`, `Peg.lit`, `Peg.ends` — one character, a fixed text, the end of the text;
* `Peg.ahead`, `Peg.notAhead` — a look at what comes, which takes nothing;
* `Peg.taken` — an expression with the text that it takes;
* `Peg.many`, `Peg.many1` — repetitions.
-/

namespace TreeScript

/-- A parsing expression: what it makes of the front of a text, and what is left of the text. -/
abbrev Peg (α : Type) := StateT (List Char) Option α

namespace Peg

variable {α : Type}

/-- One character for which `p` holds. -/
def satisfy (p : Char → Bool) : Peg Char
  | [] => none
  | c :: rest => if p c then some (c, rest) else none

/-- Any one character. -/
def any : Peg Char := satisfy fun _ => true

/-- A fixed text. -/
def lit (text : String) : Peg Unit := fun cs =>
  (text.toList.isPrefixOf? cs).map fun rest => ((), rest)

/-- The end of the text. -/
def ends : Peg Unit
  | [] => some ((), [])
  | _ :: _ => none

/-- Matches where `p` does, and takes nothing. -/
def ahead (p : Peg α) : Peg Unit := fun cs => (p.run cs).map fun _ => ((), cs)

/-- Matches where `p` does not, and takes nothing. -/
def notAhead (p : Peg α) : Peg Unit := fun cs =>
  match p.run cs with
  | none => some ((), cs)
  | some _ => none

/-- What `p` makes of a text, and the part of the text that it takes. -/
def taken (p : Peg α) : Peg (α × List Char) := fun cs =>
  (p.run cs).map fun (a, rest) => ((a, cs.take (cs.length - rest.length)), rest)

/-- What `p` makes of a text over and over, as long as it matches and takes something. -/
def repeated (p : Peg α) (cs : List Char) : List α × List Char :=
  match p.run cs with
  | none => ([], cs)
  | some (a, rest) =>
    if _h : rest.length < cs.length then
      let (as, rest) := repeated p rest
      (a :: as, rest)
    else ([], cs)
termination_by cs.length

/-- Any number of times. -/
def many (p : Peg α) : Peg (List α) := fun cs => some (repeated p cs)

/-- At least once. -/
def many1 (p : Peg α) : Peg (List α) := do
  let a ← p
  let as ← many p
  return a :: as

end Peg

end TreeScript
