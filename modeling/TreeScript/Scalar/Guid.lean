import TreeScript.Text.Space
import TreeScript.Text.Numeral

/-!
# TreeScript — globally unique identifiers

A number of 128 bits, written as 32 hexadecimal digits in groups of 8, 4, 4, 4
and 12. It is read in that form, without the hyphens, in braces, or behind
`urn:uuid:`, with letters of either case.

* `Guid` — the identifiers;
* `Guid.text`, `Guid.read?` — the two directions.
-/

namespace TreeScript

/-- An identifier of 128 bits. -/
structure Guid where
  bits : BitVec 128
  deriving DecidableEq

namespace Guid

/-- The value of a hexadecimal digit. -/
def hexDigit? (c : Char) : Option Nat :=
  if '0' ≤ c ∧ c ≤ '9' then some (c.toNat - '0'.toNat)
  else if 'a' ≤ c ∧ c ≤ 'f' then some (c.toNat - 'a'.toNat + 10)
  else if 'A' ≤ c ∧ c ≤ 'F' then some (c.toNat - 'A'.toNat + 10)
  else none

/-- The number that hexadecimal digits stand for, if all of them are digits. -/
def hexValue? : (acc : Nat) → List Char → Option Nat
  | acc, [] => some acc
  | acc, c :: rest =>
    match hexDigit? c with
    | some d => hexValue? (acc * 16 + d) rest
    | none => none

/-- The 32 digits in lower case. -/
def digits (g : Guid) : List Char :=
  (List.range 32).map fun i => Nat.digitChar (g.bits.toNat / Nat.pow 16 (31 - i) % 16)

/-- Puts a hyphen after the digits 8, 12, 16 and 20. -/
def hyphenate (ds : List Char) : List Char :=
  ds.take 8 ++ '-' :: ((ds.drop 8).take 4 ++ '-' :: ((ds.drop 12).take 4 ++ '-' ::
    ((ds.drop 16).take 4 ++ '-' :: ds.drop 20)))

/-- The text of an identifier. -/
def text (g : Guid) : List Char := hyphenate g.digits

/-- The identifier of exactly 32 digits. -/
def ofDigits? (ds : List Char) : Option Guid :=
  if ds.length = 32 then (hexValue? 0 ds).map fun n => ⟨BitVec.ofNat 128 n⟩ else none

/-- The identifier of a hyphenated text; the hyphens stand exactly where
`hyphenate` puts them. -/
def ofHyphenated? (cs : List Char) : Option Guid :=
  let ds := cs.filter (· != '-')
  if hyphenate ds = cs then ofDigits? ds else none

/-- What stands between braces, if the text is in braces. -/
def inBraces? : List Char → Option (List Char)
  | '\x7b' :: rest =>
    match rest.getLast? with
    | some '\x7d' => some rest.dropLast
    | _ => none
  | _ => none

/-- What follows the scheme of a uniform resource name, in either letter case. -/
def afterScheme? (cs : List Char) : Option (List Char) :=
  if Text.sameFolded (cs.take 9) "urn:uuid:".toList then some (cs.drop 9) else none

/-- The identifier that a text stands for. -/
def read? (cs : List Char) : Option Guid :=
  if cs.length = 32 then ofDigits? cs
  else
    match inBraces? cs, afterScheme? cs with
    | some inner, _ => ofHyphenated? inner
    | none, some inner => ofHyphenated? inner
    | none, none => ofHyphenated? cs

end Guid

end TreeScript
