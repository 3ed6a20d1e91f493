import TreeScript.Text.Space
import TreeScript.Text.Numeral

/-!
# TreeScript — double-precision numbers

A finite number is a whole number of units of 2⁻¹⁰⁷⁴, written as a mantissa of
at most 53 bits times a power of two, so all of its arithmetic happens in the
natural numbers. The decimal texts are exact in both directions: reading
rounds to the nearest number (ties to the even mantissa), and writing takes the
fewest digits that read back.

* `Binary64` — the numbers, each in one way only;
* `nearest`, `ofDecimal` — rounding a fraction, rounding a decimal;
* `read` — a decimal text as a number;
* `shortest`, `text` — the digits written for a number, and its text;
* `toInteger?` — the whole number that a double stands for.
-/

namespace TreeScript

/-- Mantissa and scale of a finite number in its one normal form: all 53 bits
are used unless the scale is the smallest one. -/
abbrev Binary64.Canonical (mantissa scale : Nat) : Prop :=
  mantissa < Nat.pow 2 53 ∧ scale ≤ 2045 ∧ (Nat.pow 2 52 ≤ mantissa ∨ scale = 0)

/-- A double-precision number; `finite` stands for
`± mantissa · 2 ^ scale · 2⁻¹⁰⁷⁴`. -/
inductive Binary64 where
  | nan
  | infinite (negative : Bool)
  | finite (negative : Bool) (mantissa scale : Nat)
      (canonical : Binary64.Canonical mantissa scale)
  deriving DecidableEq

namespace Binary64

-- ---------------------------------------------------------------------------
-- Rounding
-- ---------------------------------------------------------------------------

/-- The whole number nearest to `num / den`; a half goes to the even one. -/
def roundHalfEven (num den : Nat) : Nat :=
  let q := num / den
  let r := num % den
  if 2 * r < den ∨ (2 * r = den ∧ q % 2 = 0) then q else q + 1

/-- The power of two to take out of `num / den` so that 53 bits remain. -/
def scaleOf (num den : Nat) : Nat :=
  let q := num / den
  if q < Nat.pow 2 53 then 0 else Nat.log2 q - 52

/-- The finite number with this mantissa and scale, or an infinity if it has none. -/
def ofParts (negative : Bool) (mantissa scale : Nat) : Binary64 :=
  if h : Canonical mantissa scale then .finite negative mantissa scale h
  else if h : Canonical (Nat.pow 2 52) (scale + 1) ∧ mantissa = Nat.pow 2 53 then
    .finite negative (Nat.pow 2 52) (scale + 1) h.1
  else .infinite negative

/-- The number nearest to `num / den` units of 2⁻¹⁰⁷⁴. -/
def nearest (negative : Bool) (num den : Nat) : Binary64 :=
  let scale := scaleOf num den
  ofParts negative (roundHalfEven num (den * Nat.pow 2 scale)) scale

/-- Zero with a sign. -/
def zero (negative : Bool) : Binary64 := .finite negative 0 0 (by decide)

/-- The number nearest to `digits · 10 ^ power`. Decimals far outside the range
are decided by their size, so that no huge power is ever computed. -/
def ofDecimal (negative : Bool) (digits : Nat) (power : Int) : Binary64 :=
  let size := power + (Numeral.digits digits).length
  if digits = 0 ∨ size < -330 then zero negative
  else if size > 330 then .infinite negative
  else
    match power with
    | .ofNat p => nearest negative (digits * Nat.pow 10 p * Nat.pow 2 1074) 1
    | .negSucc p => nearest negative (digits * Nat.pow 2 1074) (Nat.pow 10 (p + 1))

-- ---------------------------------------------------------------------------
-- Reading
-- ---------------------------------------------------------------------------

/-- Why a text is no number. -/
inductive Fault where
  | empty
  | malformed
  deriving DecidableEq, Repr

/-- The wording of each fault. -/
def Fault.message : Fault → String
  | .empty => "cannot parse float from empty string"
  | .malformed => "invalid float literal"

/-- Splits off the decimal digits in front. -/
def spanDigits (cs : List Char) : List Char × List Char :=
  Text.splitWhile (fun c => (Numeral.digit? c).isSome) cs

/-- The exponent at the end of a decimal: nothing, or `e` with a signed number. -/
def readExponent? : List Char → Option Int
  | [] => some 0
  | c :: rest =>
    if c = 'e' ∨ c = 'E' then
      let (negative, ds) := match rest with
        | '+' :: ds => (false, ds)
        | '-' :: ds => (true, ds)
        | ds => (false, ds)
      if ds = [] ∨ (spanDigits ds).2 ≠ [] then none
      else
        let n : Int := Numeral.value ds
        some (if negative then -n else n)
    else none

/-- A decimal without sign: digits with an optional point and exponent. -/
def readMagnitude? (negative : Bool) (cs : List Char) : Option Binary64 := do
  let (whole, rest) := spanDigits cs
  let (fraction, rest) := match rest with
    | '.' :: rest => spanDigits rest
    | rest => ([], rest)
  if whole = [] ∧ fraction = [] then none
  else
    let exponent ← readExponent? rest
    some (ofDecimal negative (Numeral.value (whole ++ fraction)) (exponent - fraction.length))

/-- The number that a text without sign stands for: a name in any letter case, or a decimal. -/
def readUnsigned (negative : Bool) (cs : List Char) : Except Fault Binary64 :=
  let word := String.ofList (Text.foldCase cs)
  if word = "nan" then .ok .nan
  else if word = "inf" ∨ word = "infinity" then .ok (.infinite negative)
  else
    match readMagnitude? negative cs with
    | some x => .ok x
    | none => .error .malformed

/-- The number that a text stands for. -/
def read : List Char → Except Fault Binary64
  | [] => .error .empty
  | '+' :: rest => readUnsigned false rest
  | '-' :: rest => readUnsigned true rest
  | cs => readUnsigned false cs

-- ---------------------------------------------------------------------------
-- Writing
-- ---------------------------------------------------------------------------

/-- A finite number times 10¹⁰⁷⁴, which is a whole number. -/
def scaledUp (mantissa scale : Nat) : Nat := mantissa * Nat.pow 2 scale * Nat.pow 5 1074

/-- The decimal with `count` digits that reads back as `x`, if there is one: of
the two neighbours of `whole` on that grid the nearer, and the upper one where
both are equally near. -/
def withDigits? (x : Binary64) (whole size count : Nat) : Option (Nat × Int) :=
  let cut := size - count
  let unit := Nat.pow 10 cut
  let power : Int := (cut : Int) - 1074
  let lower := whole / unit
  let fits (digits : Nat) : Bool := ofDecimal false digits power = x
  if fits lower ∧ (2 * (whole % unit) < unit ∨ ¬ fits (lower + 1)) then some (lower, power)
  else if fits (lower + 1) then some (lower + 1, power)
  else none

/-- Digits and power of ten of the shortest decimal that reads back; the exact
decimal stands behind, should none of seventeen digits do. -/
def shortest (mantissa scale : Nat) : Nat × Int :=
  let x := ofParts false mantissa scale
  let whole := scaledUp mantissa scale
  let size := (Numeral.digits whole).length
  ((List.range 17).findSome? fun i => withDigits? x whole size (i + 1)).getD (whole, -1074)

/-- The text without the zeros at its end. -/
def dropZeros (cs : List Char) : List Char := (cs.reverse.dropWhile (· == '0')).reverse

/-- A decimal written out, never with an exponent; the fraction ends in a digit
other than zero, and an empty fraction takes its point along. -/
def positional (digits : Nat) (power : Int) : List Char :=
  let ds := Numeral.digits digits
  match power with
  | .ofNat p => ds ++ List.replicate p '0'
  | .negSucc p =>
    let places := p + 1
    let ds := List.replicate (places + 1 - ds.length) '0' ++ ds
    let whole := ds.take (ds.length - places)
    let fraction := dropZeros (ds.drop (ds.length - places))
    if fraction = [] then whole else whole ++ '.' :: fraction

/-- The text of a number. -/
def text : Binary64 → List Char
  | .nan => "NaN".toList
  | .infinite negative => (if negative then "-inf" else "inf").toList
  | .finite negative mantissa scale _ =>
    let body :=
      if mantissa = 0 then ['0']
      else
        let decimal := shortest mantissa scale
        positional decimal.1 decimal.2
    if negative then '-' :: body else body

-- ---------------------------------------------------------------------------
-- Whole numbers
-- ---------------------------------------------------------------------------

/-- The whole number that a double stands for, if it is one and fits a signed
word of 64 bits. -/
def toInteger? : Binary64 → Option Int
  | .finite negative mantissa scale _ =>
    let units := mantissa * Nat.pow 2 scale
    if units % Nat.pow 2 1074 = 0 then
      let n : Int := (units / Nat.pow 2 1074 : Nat)
      let n := if negative then -n else n
      if -(Numeral.span 63 : Int) ≤ n ∧ n < Numeral.span 63 then some n else none
    else none
  | _ => none

end Binary64

end TreeScript
