import TreeScript.Scalar.Instant
import TreeScript.Toml.Token

/-!
# TreeScript — dates and times of TOML

A date is a day of the calendar, a time of day, or both with a `T` or a space
between them; then an offset from universal time may follow. Settings use none
of them, so what is read is kept as it is written.

* `Toml.readDay?`, `Toml.readTime?`, `Toml.readOffset?` — the parts;
* `Toml.readDate?` — all forms.
-/

namespace TreeScript.Toml

/-- Exactly two digits with a value up to a bound. -/
def readPair? (hi : Nat) (cs : List Char) : Option (Nat × List Char) :=
  (Numeral.takeDigits? 2 cs).filter fun r => r.1 ≤ hi

/-- What follows a day of the calendar, which has four digits for the year. -/
def readDay? (cs : List Char) : Option (List Char) := do
  let (year, cs) ← Numeral.takeDigits? 4 cs
  let cs ← Instant.after? '-' cs
  let (month, cs) ← readPair? 12 cs
  let cs ← Instant.after? '-' cs
  let (day, cs) ← readPair? 31 cs
  if 1 ≤ month ∧ 1 ≤ day ∧ day ≤ daysIn year month then some cs else none

/-- What follows a time of day. A minute may have a second with the number 60. -/
def readTime? (cs : List Char) : Option (List Char) := do
  let (_, cs) ← readPair? 23 cs
  let cs ← Instant.after? ':' cs
  let (_, cs) ← readPair? 59 cs
  let cs ← Instant.after? ':' cs
  let (_, cs) ← readPair? 60 cs
  match cs with
  | '.' :: d :: rest =>
    if isDigit d then some (rest.dropWhile isDigit) else some cs
  | _ => some cs

/-- What follows an offset, which need not be there. -/
def readOffset? : List Char → Option (List Char)
  | [] => some []
  | c :: rest =>
    if c = 'Z' ∨ c = 'z' then some rest
    else if c = '+' ∨ c = '-' then do
      let (_, rest) ← readPair? 23 rest
      let rest ← Instant.after? ':' rest
      let (_, rest) ← readPair? 59 rest
      some rest
    else some (c :: rest)

/-- What follows a date of any form. -/
def afterDate? (cs : List Char) : Option (List Char) :=
  match readDay? cs with
  | none => readTime? cs
  | some [] => some []
  | some (c :: rest) =>
    if c = 'T' ∨ c = 't' ∨ c = ' ' then
      match readTime? rest with
      | some rest => readOffset? rest
      | none => some (c :: rest)
    else some (c :: rest)

/-- Reads a date of any form. -/
def readDate? (cs : List Char) : Option (String × List Char) :=
  (afterDate? cs).map fun rest => (String.ofList (cs.take (cs.length - rest.length)), rest)

end TreeScript.Toml
