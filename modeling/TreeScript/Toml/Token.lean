import TreeScript.Text.Space
import TreeScript.Toml.Basic

/-!
# TreeScript — the words of TOML

What a document is written with, below its statements: blanks and comments,
strings in double quotes with escapes and in single quotes without, either on
one line or, between three quotes, over several, and the numbers, which are
written in one piece. Every reader gives what it has read and what follows, or
nothing.

* `Toml.skipSpace` — blanks, line ends and comments;
* `Toml.readString?` — the two kinds of strings on one line;
* `Toml.readLongString?` — the two kinds of strings over several lines;
* `Toml.integer?`, `Toml.float?`, `Toml.word?` — values written in one piece.
-/

namespace TreeScript.Toml

/-- A character that may stand in a comment or string: no control character but the tab. -/
def isPrintable (c : Char) : Bool :=
  c == '\t' || (0x20 ≤ c.toNat && c.toNat != 0x7F)

/-- What follows the blanks in front. -/
def skipBlanks (cs : List Char) : List Char := cs.dropWhile Text.isBlank

/-- What follows the line end in front, if there is one. -/
def afterLineEnd? : List Char → Option (List Char)
  | '\n' :: rest => some rest
  | '\r' :: '\n' :: rest => some rest
  | _ => none

/-- What follows blanks, line ends and comments. -/
def skipSpace : (inComment : Bool) → List Char → Option (List Char)
  | _, [] => some []
  | _, '\n' :: rest => skipSpace false rest
  | _, '\r' :: '\n' :: rest => skipSpace false rest
  | true, c :: rest => if isPrintable c then skipSpace true rest else none
  | false, c :: rest =>
    if c = '#' then skipSpace true rest
    else if Text.isBlank c then skipSpace false rest
    else some (c :: rest)

-- ---------------------------------------------------------------------------
-- Strings
-- ---------------------------------------------------------------------------

/-- The value of a hexadecimal digit in either letter case. -/
def hexDigit? (c : Char) : Option Nat :=
  let n := c.toLower.toNat
  if '0'.toNat ≤ n ∧ n ≤ '9'.toNat then some (n - '0'.toNat)
  else if 'a'.toNat ≤ n ∧ n ≤ 'f'.toNat then some (n - 'a'.toNat + 10)
  else none

/-- The character whose number is written in hexadecimal digits. -/
def charOfHex? (cs : List Char) : Option Char := do
  let ds ← cs.mapM hexDigit?
  let n := ds.foldl (fun acc d => acc * 16 + d) 0
  if h : n.isValidChar then some (Char.ofNatAux n h) else none

/-- The character that an escape letter stands for. -/
def unescape? (c : Char) : Option Char :=
  if c = 'b' then some '\x08'
  else if c = 't' then some '\t'
  else if c = 'n' then some '\n'
  else if c = 'f' then some '\x0c'
  else if c = 'r' then some '\r'
  else if c = '"' ∨ c = '\\' then some c
  else none

/-- Reads an escape from behind the backslash. -/
def readEscape? : List Char → Option (Char × List Char)
  | [] => none
  | e :: rest =>
    let width := if e = 'u' then 4 else if e = 'U' then 8 else 0
    if width = 0 then (unescape? e).map fun c => (c, rest)
    else if rest.length < width then none
    else (charOfHex? (rest.take width)).map fun c => (c, rest.drop width)

/-- Reads a string in double quotes from behind the opening quote. -/
def scanEscaped : (fuel : Nat) → List Char → Option (List Char × List Char)
  | 0, _ => none
  | _, [] => none
  | fuel + 1, c :: rest => do
    if c = '"' then some ([], rest)
    else if c = '\\' then
      let (d, rest) ← readEscape? rest
      let (body, after) ← scanEscaped fuel rest
      some (d :: body, after)
    else if isPrintable c then
      let (body, after) ← scanEscaped fuel rest
      some (c :: body, after)
    else none

/-- Reads a string in single quotes from behind the opening quote. -/
def scanLiteral (cs : List Char) : Option (List Char × List Char) :=
  match Text.splitWhile (· != '\'') cs with
  | (body, _ :: rest) => if body.all isPrintable then some (body, rest) else none
  | (_, []) => none

/-- Reads a string of either kind; nothing if there is none. -/
def readString? : List Char → Option (String × List Char)
  | '"' :: rest => (scanEscaped (rest.length + 1) rest).map fun (s, rest) => (String.ofList s, rest)
  | '\'' :: rest => (scanLiteral rest).map fun (s, rest) => (String.ofList s, rest)
  | _ => none

/-- What follows blanks and line ends. -/
def skipLines : List Char → List Char
  | [] => []
  | '\r' :: '\n' :: rest => skipLines rest
  | c :: rest => if c = '\n' ∨ Text.isBlank c then skipLines rest else c :: rest

/-- What follows a backslash that stands at the end of its line: the next lines go on
where they have something. -/
def afterContinuation? (cs : List Char) : Option (List Char) :=
  (afterLineEnd? (skipBlanks cs)).map skipLines

/-- Quotes inside a string over several lines: one or two stand for themselves, three end
the string, and up to two more in front of these belong to it. The result says what
belongs to the string, whether it ends, and what follows. -/
def readQuotes? (quote : Char) (cs : List Char) : Option (List Char × Bool × List Char) :=
  let (run, rest) := Text.splitWhile (· == quote) cs
  if run.length < 3 then some (run, false, rest)
  else if run.length ≤ 5 then some (run.drop 3, true, rest)
  else none

/-- Reads a string over several lines, from behind the first line end; with double quotes
it has escapes. -/
def scanLong (quote : Char) : (fuel : Nat) → List Char → Option (List Char × List Char)
  | 0, _ => none
  | _, [] => none
  | fuel + 1, c :: rest => do
    if c = quote then
      let (front, ended, rest) ← readQuotes? quote (c :: rest)
      if ended then some (front, rest)
      else
        let (body, after) ← scanLong quote fuel rest
        some (front ++ body, after)
    else if c = '\\' ∧ quote = '"' then
      match afterContinuation? rest with
      | some rest => scanLong quote fuel rest
      | none =>
        let (d, rest) ← readEscape? rest
        let (body, after) ← scanLong quote fuel rest
        some (d :: body, after)
    else
      match afterLineEnd? (c :: rest) with
      | some rest =>
        let (body, after) ← scanLong quote fuel rest
        some ('\n' :: body, after)
      | none =>
        if isPrintable c then
          let (body, after) ← scanLong quote fuel rest
          some (c :: body, after)
        else none

/-- Reads a string over several lines of either kind; a line end right behind the opening
quotes does not count. -/
def readLongString? : List Char → Option (String × List Char)
  | a :: b :: c :: rest =>
    if (a = '"' ∨ a = '\'') ∧ b = a ∧ c = a then
      (scanLong a (rest.length + 1) ((afterLineEnd? rest).getD rest)).map fun (s, rest) =>
        (String.ofList s, rest)
    else none
  | _ => none

-- ---------------------------------------------------------------------------
-- Numbers
-- ---------------------------------------------------------------------------

/-- The digits of a run in which single underscores may stand between digits. -/
def digitRun? (isDigit : Char → Bool) (cs : List Char) : Option (List Char) :=
  let parts := cs.splitOn '_'
  if parts.all fun p => p != [] && p.all isDigit then some parts.flatten else none

/-- A decimal digit. -/
def isDigit (c : Char) : Bool := (Numeral.digit? c).isSome

/-- The digits of a whole number in decimal, which has no zero in front of other digits. -/
def wholeDigits? (cs : List Char) : Option (List Char) :=
  (digitRun? isDigit cs).filter fun ds => ds == ['0'] || ds.head? != some '0'

/-- A sign in front, and what follows: whether it is a minus sign. -/
def splitSign : List Char → Bool × List Char
  | '-' :: rest => (true, rest)
  | '+' :: rest => (false, rest)
  | cs => (false, cs)

/-- A number in another base than ten, from behind its mark. -/
def basedInteger? (base : Nat) (cs : List Char) : Option Int := do
  let ds ← digitRun? (fun c => (hexDigit? c).any (· < base)) cs
  let values ← ds.mapM hexDigit?
  let n := values.foldl (fun acc d => acc * base + d) 0
  if n < Numeral.span 63 then some n else none

/-- A whole number of 64 bits: decimal with an optional sign, or without sign
behind a mark for the base. -/
def integer? : List Char → Option Int
  | '0' :: 'x' :: ds => basedInteger? 16 ds
  | '0' :: 'o' :: ds => basedInteger? 8 ds
  | '0' :: 'b' :: ds => basedInteger? 2 ds
  | cs => do
    let (negative, body) := splitSign cs
    let n := Numeral.value (← wholeDigits? body)
    if negative then (if n ≤ Numeral.span 63 then some (-(n : Int)) else none)
    else if n < Numeral.span 63 then some n
    else none

/-- The exponent of a number in decimal without its mark: a sign and digits. -/
def exponentDigits? (cs : List Char) : Option (List Char) :=
  let (negative, body) := splitSign cs
  (digitRun? isDigit body).map fun ds => if negative then '-' :: ds else ds

/-- A number in decimal with a fraction, an exponent or both, or one of the names for
numbers that are not finite. A decimal above the finite numbers is refused; one below
them is the infinite number on that side. -/
def float? (cs : List Char) : Option Binary64 := do
  let (negative, body) := splitSign cs
  if body = "inf".toList then some (.infinite negative)
  else if body = "nan".toList then some .nan
  else
    let isMark := fun c : Char => c == 'e' || c == 'E'
    let (mantissa, tail) := Text.splitWhile (!isMark ·) body
    let (whole, fraction) := Text.splitWhile (· != '.') mantissa
    let front ← wholeDigits? whole
    let middle ← match fraction with
      | [] => some []
      | _ :: ds => (digitRun? isDigit ds).map ('.' :: ·)
    let back ← match tail with
      | [] => some []
      | _ :: ds => (exponentDigits? ds).map ('e' :: ·)
    if middle = [] ∧ back = [] then none
    else
      match Binary64.read (front ++ middle ++ back) with
      | .ok (.infinite _) => if negative then some (.infinite true) else none
      | .ok x => some x
      | .error _ => none

/-- A value that is written in one piece. -/
def word? (cs : List Char) : Option Toml :=
  if cs = "true".toList then some (.boolean true)
  else if cs = "false".toList then some (.boolean false)
  else
    match integer? cs with
    | some n => some (.integer n)
    | none => (float? cs).map .float

end TreeScript.Toml
