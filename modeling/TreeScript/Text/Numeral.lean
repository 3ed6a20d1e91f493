/-!
# TreeScript — whole numbers in decimal

Reading a whole number that has to fit a range. The text is read from left to
right, so of two faults the one met first is reported; at one digit a
character that is no digit counts before the range is left.

* `Numeral.Fault` — why a text is no number of the range;
* `Numeral.span` — the ranges of fixed width;
* `Numeral.readSigned`, `Numeral.readUnsigned` — the readers;
* `Numeral.digits` — the decimal digits of a natural number.
-/

namespace TreeScript.Numeral

/-- Why a text is not a whole number of the range asked for. -/
inductive Fault where
  | empty
  | badDigit
  | tooLarge
  | tooSmall
  deriving DecidableEq, Repr

/-- The wording of each fault. -/
def Fault.message : Fault → String
  | .empty => "cannot parse integer from empty string"
  | .badDigit => "invalid digit found in string"
  | .tooLarge => "number too large to fit in target type"
  | .tooSmall => "number too small to fit in target type"

/-- How many numbers `width` bits can tell apart. -/
def span (width : Nat) : Nat := Nat.pow 2 width

/-- The value of a decimal digit. -/
def digit? (c : Char) : Option Nat :=
  if '0' ≤ c ∧ c ≤ '9' then some (c.toNat - '0'.toNat) else none

/-- Reads digits upwards from `acc`, refusing to pass `hi`. -/
def readUp (hi : Nat) : (acc : Nat) → List Char → Except Fault Nat
  | acc, [] => .ok acc
  | acc, c :: rest =>
    match digit? c with
    | none => .error .badDigit
    | some d => if acc * 10 + d ≤ hi then readUp hi (acc * 10 + d) rest else .error .tooLarge

/-- Reads digits of a negated number: the magnitude may not pass `lo`. -/
def readDown (lo : Nat) (cs : List Char) : Except Fault Nat :=
  match readUp lo 0 cs with
  | .error .tooLarge => .error .tooSmall
  | r => r

/-- Reads a number between `0` and `hi`; a plus sign may stand in front of the
digits, a minus sign is no digit. -/
def readUnsigned (hi : Nat) : List Char → Except Fault Nat
  | [] => .error .empty
  | ['+'] => .error .badDigit
  | '+' :: rest => readUp hi 0 rest
  | cs => readUp hi 0 cs

/-- Reads a number between `-lo` and `hi`, with an optional sign. -/
def readSigned (lo hi : Nat) : List Char → Except Fault Int
  | [] => .error .empty
  | ['+'] => .error .badDigit
  | ['-'] => .error .badDigit
  | '+' :: rest => (readUp hi 0 rest).map Int.ofNat
  | '-' :: rest => (readDown lo rest).map fun n => -(n : Int)
  | cs => (readUp hi 0 cs).map Int.ofNat

-- ---------------------------------------------------------------------------
-- Writing
-- ---------------------------------------------------------------------------

/-- The decimal digits of `n`, without leading zeros. -/
def digits (n : Nat) : List Char := Nat.toDigits 10 n

/-- A whole number in decimal, with a minus sign if it is negative. -/
def ofInt : Int → List Char
  | .ofNat n => digits n
  | .negSucc n => '-' :: digits (n + 1)

/-- The digits of `n`, filled up with zeros on the left to `width`. -/
def padded (width n : Nat) : List Char :=
  let ds := digits n
  List.replicate (width - ds.length) '0' ++ ds

/-- The number that a list of decimal digits stands for; anything that is no
digit counts as zero. -/
def value (cs : List Char) : Nat :=
  cs.foldl (fun acc c => acc * 10 + (digit? c).getD 0) 0

/-- Exactly `width` decimal digits at the beginning of a text, and what follows. -/
def takeDigits? (width : Nat) (cs : List Char) : Option (Nat × List Char) :=
  let front := cs.take width
  if front.length = width ∧ front.all (fun c => (digit? c).isSome) then
    some (value front, cs.drop width)
  else none

end TreeScript.Numeral
