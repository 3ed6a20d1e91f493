import TreeScript.Text.Numeral

/-!
# TreeScript — points in time

A point in time is a calendar day of the proleptic Gregorian calendar and a
time of day, both in coordinated universal time. A leap second is kept as the
second before it with a billion nanoseconds or more. The text form is
`YYYY-MM-DDThh:mm:ss`, an optional fraction and an offset; reading takes any
offset below a day and moves the time to universal time, writing always ends
in `+00:00`.

* `Day`, `Instant` — the two types, each holding valid dates only;
* `Instant.read?`, `Instant.text` — the two directions;
* `Instant.milliseconds` — milliseconds since the beginning of 1970.
-/

namespace TreeScript

-- ---------------------------------------------------------------------------
-- Calendar days
-- ---------------------------------------------------------------------------

/-- Whether a year has a 29th of February. -/
def isLeapYear (year : Int) : Bool :=
  year % 4 == 0 && (year % 100 != 0 || year % 400 == 0)

/-- The number of days of a month. -/
def daysIn (year : Int) (month : Nat) : Nat :=
  if month = 2 then (if isLeapYear year then 29 else 28)
  else if month = 4 ∨ month = 6 ∨ month = 9 ∨ month = 11 then 30
  else 31

theorem one_le_daysIn (year : Int) (month : Nat) : 1 ≤ daysIn year month := by
  unfold daysIn
  repeat' split
  all_goals omega

/-- A day of the calendar. -/
structure Day where
  year : Int
  month : Nat
  day : Nat
  month_pos : 1 ≤ month
  month_le : month ≤ 12
  day_pos : 1 ≤ day
  day_le : day ≤ daysIn year month
  deriving DecidableEq

namespace Day

/-- The day with these numbers, if the calendar has it. -/
def ofParts? (year : Int) (month day : Nat) : Option Day :=
  if h : (1 ≤ month ∧ month ≤ 12) ∧ 1 ≤ day ∧ day ≤ daysIn year month then
    some ⟨year, month, day, h.1.1, h.1.2, h.2.1, h.2.2⟩
  else none

/-- The day after. -/
def next (d : Day) : Day :=
  if h : d.day < daysIn d.year d.month then
    { d with day := d.day + 1, day_pos := by omega, day_le := h }
  else if h : d.month < 12 then
    ⟨d.year, d.month + 1, 1, by omega, h, by omega, one_le_daysIn _ _⟩
  else
    ⟨d.year + 1, 1, 1, by omega, by omega, by omega, one_le_daysIn _ _⟩

/-- The day before. -/
def previous (d : Day) : Day :=
  if h : 1 < d.day then
    { d with
      day := d.day - 1
      day_pos := by omega
      day_le := by have := d.day_le; omega }
  else if h : 1 < d.month then
    ⟨d.year, d.month - 1, daysIn d.year (d.month - 1), by omega,
      by have := d.month_le; omega, one_le_daysIn _ _, Nat.le_refl _⟩
  else
    ⟨d.year - 1, 12, daysIn (d.year - 1) 12, by omega, by omega, one_le_daysIn _ _,
      Nat.le_refl _⟩

/-- Days from the beginning of the year 0 to the beginning of `year`. -/
def daysToYear (year : Int) : Int :=
  365 * year + (year + 3) / 4 - (year + 99) / 100 + (year + 399) / 400

/-- Days from the beginning of 1970. -/
def number (d : Day) : Int :=
  let months := (List.range (d.month - 1)).foldl (fun n i => n + daysIn d.year (i + 1)) 0
  daysToYear d.year - daysToYear 1970 + months + d.day - 1

end Day

-- ---------------------------------------------------------------------------
-- Instants
-- ---------------------------------------------------------------------------

/-- A billion: the nanoseconds of a second. -/
abbrev nanosPerSecond : Nat := 1000000000

/-- A point in time: a day, a second of it and nanoseconds, of which a leap
second has a billion more. -/
structure Instant where
  day : Day
  second : Nat
  nano : Nat
  second_lt : second < 86400
  nano_lt : nano < nanosPerSecond ∨ (second % 60 = 59 ∧ nano < 2 * nanosPerSecond)
  deriving DecidableEq

namespace Instant

/-- Milliseconds since the beginning of 1970. -/
def milliseconds (t : Instant) : Int :=
  (t.day.number * 86400 + t.second) * 1000 + (t.nano / 1000000 : Nat)

-- ---------------------------------------------------------------------------
-- Writing
-- ---------------------------------------------------------------------------

/-- The year with four digits, and with a sign if four do not hold it. -/
def yearText (year : Int) : List Char :=
  if 0 ≤ year ∧ year ≤ 9999 then Numeral.padded 4 year.toNat
  else (if year < 0 then '-' else '+') :: Numeral.padded 4 year.natAbs

/-- The fraction of a second with the fewest of none, three, six or nine digits. -/
def fractionText (nano : Nat) : List Char :=
  if nano = 0 then []
  else if nano % 1000000 = 0 then '.' :: Numeral.padded 3 (nano / 1000000)
  else if nano % 1000 = 0 then '.' :: Numeral.padded 6 (nano / 1000)
  else '.' :: Numeral.padded 9 nano

/-- The text of a point in time. -/
def text (t : Instant) : List Char :=
  let leap := nanosPerSecond ≤ t.nano
  let two := Numeral.padded 2
  yearText t.day.year ++ '-' :: (two t.day.month ++ '-' :: (two t.day.day ++ 'T' ::
    (two (t.second / 3600) ++ ':' :: (two (t.second / 60 % 60) ++ ':' ::
      (two (t.second % 60 + if leap then 1 else 0) ++
        (fractionText (t.nano % nanosPerSecond) ++ "+00:00".toList))))))

-- ---------------------------------------------------------------------------
-- Reading
-- ---------------------------------------------------------------------------

/-- The text after the character `c`, which has to stand in front. -/
def after? (c : Char) : List Char → Option (List Char)
  | d :: rest => if d = c then some rest else none
  | [] => none

/-- Nanoseconds of an optional fraction; digits after the ninth are dropped. -/
def readFraction? : List Char → Option (Nat × List Char)
  | '.' :: rest =>
    let ds := rest.takeWhile fun c => (Numeral.digit? c).isSome
    if ds = [] then none
    else some (Numeral.value ((ds ++ List.replicate 9 '0').take 9), rest.drop ds.length)
  | cs => some (0, cs)

/-- Seconds of an offset from universal time; the text ends with it. -/
def readOffset? : List Char → Option Int
  | ['Z'] => some 0
  | ['z'] => some 0
  | sign :: rest => do
    let negative ← if sign = '+' then some false
      else if sign = '-' ∨ sign = '\u2212' then some true else none
    let (hours, rest) ← Numeral.takeDigits? 2 rest
    let rest ← after? ':' rest
    let (minutes, rest) ← Numeral.takeDigits? 2 rest
    if rest = [] ∧ hours ≤ 23 ∧ minutes ≤ 59 then
      let seconds : Int := hours * 3600 + minutes * 60
      some (if negative then -seconds else seconds)
    else none
  | [] => none

/-- The instant of a second of a day, given in nanoseconds; `none` for a time
that no clock shows. -/
def ofParts? (day : Day) (second nano : Nat) : Option Instant :=
  if h : second < 86400 ∧
      (nano < nanosPerSecond ∨ (second % 60 = 59 ∧ nano < 2 * nanosPerSecond)) then
    some ⟨day, second, nano, h.1, h.2⟩
  else none

/-- Moves a local time with the given offset to universal time. -/
def ofLocal? (day : Day) (second nano : Nat) (offset : Int) : Option Instant :=
  let moved : Int := second - offset
  if moved < 0 then ofParts? day.previous (moved + 86400).toNat nano
  else if moved < 86400 then ofParts? day moved.toNat nano
  else ofParts? day.next (moved - 86400).toNat nano

/-- The point in time that a text stands for. -/
def read? (cs : List Char) : Option Instant := do
  let (year, cs) ← Numeral.takeDigits? 4 cs
  let cs ← after? '-' cs
  let (month, cs) ← Numeral.takeDigits? 2 cs
  let cs ← after? '-' cs
  let (day, cs) ← Numeral.takeDigits? 2 cs
  let cs ← match cs with
    | c :: rest => if c = 'T' ∨ c = 't' ∨ c = ' ' then some rest else none
    | [] => none
  let (hour, cs) ← Numeral.takeDigits? 2 cs
  let cs ← after? ':' cs
  let (minute, cs) ← Numeral.takeDigits? 2 cs
  let cs ← after? ':' cs
  let (second, cs) ← Numeral.takeDigits? 2 cs
  let (nano, cs) ← readFraction? cs
  let offset ← readOffset? cs
  let date ← Day.ofParts? year month day
  if hour ≤ 23 ∧ minute ≤ 59 ∧ second ≤ 60 then
    let leap := second = 60
    let clock := hour * 3600 + minute * 60 + (if leap then 59 else second)
    ofLocal? date clock (if leap then nano + nanosPerSecond else nano) offset
  else none

end Instant

end TreeScript
