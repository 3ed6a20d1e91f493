/-!
# TreeScript — runs of characters

A class of characters as a list of runs of character numbers, each given by its
first and last number.

* `CharRanges` — the runs;
* `CharRanges.contains` — whether a character is in one of them.
-/

namespace TreeScript

/-- Runs of character numbers, by the first and the last of each. -/
abbrev CharRanges : Type := List (Nat × Nat)

/-- Whether one of the runs holds a character. -/
def CharRanges.contains (ranges : CharRanges) (c : Char) : Bool :=
  ranges.any fun r => decide (r.1 ≤ c.toNat) && decide (c.toNat ≤ r.2)

theorem CharRanges.contains_iff {ranges : CharRanges} {c : Char} :
    ranges.contains c = true ↔ ∃ r ∈ ranges, r.1 ≤ c.toNat ∧ c.toNat ≤ r.2 := by
  simp [CharRanges.contains]

end TreeScript
