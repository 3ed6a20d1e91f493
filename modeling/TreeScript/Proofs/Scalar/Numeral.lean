import TreeScript.Proofs.Text.Quote
import TreeScript.Text.Numeral

/-!
# TreeScript — decimal digits are read back

* `value_append` — digits behind digits;
* `value_digits`, `takeDigits?_padded` — the digits of a number stand for it, also
  with zeros in front;
* `readSigned_ofInt`, `readUnsigned_digits` — a number of the range is read back.
-/

namespace TreeScript.Numeral

-- ---------------------------------------------------------------------------
-- Digits
-- ---------------------------------------------------------------------------

/-- Whether a text has only decimal digits in it. -/
def AllDigits (cs : List Char) : Prop := ∀ c ∈ cs, (digit? c).isSome = true

/-- The digits are ten characters in a row. -/
theorem digit?_isSome_iff {c : Char} : (digit? c).isSome = true ↔ 48 ≤ c.toNat ∧ c.toNat ≤ 57 := by
  unfold digit?
  rw [apply_ite Option.isSome]
  simp only [Option.isSome_some, Option.isSome_none, Bool.ite_eq_true_distrib, Bool.false_eq_true,
    if_false_right, and_true]
  rfl

/-- The character for a digit is read as it. -/
theorem digit?_digitChar {d : Nat} (hd : d < 10) : digit? (Nat.digitChar d) = some d := by
  interval_cases d <;> rfl

theorem allDigits_digits (n : Nat) : AllDigits (digits n) := by
  intro c hc
  have hdigit := Nat.isDigit_of_mem_toDigits (by decide) (by decide) hc
  simp only [Char.isDigit, ge_iff_le, Bool.and_eq_true, decide_eq_true_eq] at hdigit
  exact digit?_isSome_iff.2 ⟨UInt32.le_iff_toNat_le.1 hdigit.1, UInt32.le_iff_toNat_le.1 hdigit.2⟩

/-- A digit is neither white space nor a sign. -/
theorem isSpace_of_digit {c : Char} (h : (digit? c).isSome = true) : Text.isSpace c = false := by
  obtain ⟨hlo, hhi⟩ := digit?_isSome_iff.1 h
  unfold Text.isSpace
  simp only [Bool.or_eq_false_iff, Bool.and_eq_false_iff, decide_eq_false_iff_not, beq_eq_false_iff_ne]
  omega

theorem ne_of_digit {c d : Char} (h : (digit? c).isSome = true) (hd : digit? d = none) : c ≠ d := by
  rintro rfl
  simp [hd] at h

-- ---------------------------------------------------------------------------
-- What digits stand for
-- ---------------------------------------------------------------------------

/-- The digits that follow count below those that have been read. -/
theorem value_foldl (cs : List Char) (acc : Nat) :
    cs.foldl (fun acc c => acc * 10 + (digit? c).getD 0) acc = acc * 10 ^ cs.length + value cs := by
  induction cs generalizing acc with
  | nil => simp [value]
  | cons c cs ih =>
    rw [value, List.foldl_cons, List.foldl_cons, ih, ih (0 * 10 + _), List.length_cons]
    ring

/-- The front of a number counts as many tens more as there are digits behind it. -/
theorem value_append (a b : List Char) : value (a ++ b) = value a * 10 ^ b.length + value b := by
  rw [value, List.foldl_append, value_foldl]
  rfl

/-- The first digit counts as many tens more as there are digits behind it. -/
theorem value_cons (c : Char) (cs : List Char) :
    value (c :: cs) = (digit? c).getD 0 * 10 ^ cs.length + value cs := by
  rw [value, List.foldl_cons, value_foldl]
  simp

theorem value_zeros (k : Nat) : value (List.replicate k '0') = 0 := by
  induction k with
  | zero => rfl
  | succ k ih =>
    rw [List.replicate_succ, value_cons, ih]
    simp [digit?]

/-- The digits of a number have its value. -/
theorem value_digits (n : Nat) : value (digits n) = n := by
  induction n using Nat.strongRecOn with
  | ind n ih =>
    rw [digits, Nat.toDigits_eq_if (by decide)]
    split
    next hlt => simp [value, digit?_digitChar hlt]
    next hge =>
      have hdiv := ih (n / 10) (by omega)
      rw [value_append, show Nat.toDigits 10 (n / 10) = digits (n / 10) from rfl, hdiv]
      simp only [List.length_singleton, value_cons, digit?_digitChar (Nat.mod_lt n (by decide))]
      simp [value]
      omega

-- ---------------------------------------------------------------------------
-- Reading
-- ---------------------------------------------------------------------------

/-- Digits are read exactly if what they stand for stays in the range. -/
theorem readUp_eq_ok_iff {hi : Nat} {cs : List Char} (hcs : AllDigits cs) {acc n : Nat}
    (hacc : acc ≤ hi) :
    readUp hi acc cs = .ok n ↔ n = acc * 10 ^ cs.length + value cs ∧ n ≤ hi := by
  induction cs generalizing acc with
  | nil =>
    simp only [readUp, value, List.foldl_nil, List.length_nil, Nat.pow_zero, Nat.mul_one,
      Nat.add_zero, Except.ok.injEq]
    omega
  | cons c cs ih =>
    obtain ⟨hc, hrest⟩ := List.forall_mem_cons.1 hcs
    obtain ⟨d, hd⟩ := Option.isSome_iff_exists.1 hc
    -- one more digit is ten times what was read so far and the digit
    have hshift : acc * 10 ^ (c :: cs).length + value (c :: cs) =
        (acc * 10 + d) * 10 ^ cs.length + value cs := by
      rw [value_cons, hd, List.length_cons, Option.getD_some]
      ring
    simp only [readUp, hd, hshift]
    by_cases hfirst : acc * 10 + d ≤ hi
    · rw [if_pos hfirst]
      exact ih hrest hfirst
    · -- what follows makes the number no smaller
      have := Nat.le_mul_of_pos_right (acc * 10 + d) (Nat.pos_of_ne_zero (by simp) : 0 < 10 ^ cs.length)
      rw [if_neg hfirst]
      exact ⟨nofun, fun ⟨hn, hle⟩ => by omega⟩

/-- Digits are read as their value, as long as it fits. -/
theorem readUp_of_allDigits {hi : Nat} {cs : List Char} (hcs : AllDigits cs) {acc : Nat}
    (hle : acc * 10 ^ cs.length + value cs ≤ hi) :
    readUp hi acc cs = .ok (acc * 10 ^ cs.length + value cs) := by
  have := Nat.le_mul_of_pos_right acc (Nat.pos_of_ne_zero (by simp) : 0 < 10 ^ cs.length)
  exact (readUp_eq_ok_iff hcs (by omega)).2 ⟨rfl, hle⟩

/-- The digits of a number that fits are read as it. -/
theorem readUp_digits {hi n : Nat} (hn : n ≤ hi) : readUp hi 0 (digits n) = .ok n := by
  rw [readUp_of_allDigits (allDigits_digits n) (by simpa [value_digits] using hn)]
  simp [value_digits]

/-- The digits of a number begin with one. -/
theorem digits_eq_cons (n : Nat) : ∃ c cs, digits n = c :: cs ∧ (digit? c).isSome = true := by
  cases h : digits n with
  | nil => exact absurd h Nat.toDigits_ne_nil
  | cons c cs => exact ⟨c, cs, rfl, allDigits_digits n c (by simp [h])⟩

/-- An unsigned number that fits is read as what it was. -/
theorem readUnsigned_digits {hi n : Nat} (hn : n ≤ hi) : readUnsigned hi (digits n) = .ok n := by
  obtain ⟨c, cs, heq, hc⟩ := digits_eq_cons n
  have hplus : c ≠ '+' := ne_of_digit hc (by decide)
  have hread := readUp_digits hn
  rw [heq] at hread ⊢
  unfold readUnsigned
  split <;> simp_all

/-- A signed number that fits is read as what it was. -/
theorem readSigned_ofInt {lo hi : Nat} {n : Int} (hlo : -(lo : Int) ≤ n) (hhi : n ≤ hi) :
    readSigned lo hi (ofInt n) = .ok n := by
  cases n with
  | ofNat n =>
    obtain ⟨c, cs, heq, hc⟩ := digits_eq_cons n
    have hplus : c ≠ '+' := ne_of_digit hc (by decide)
    have hminus : c ≠ '-' := ne_of_digit hc (by decide)
    have hread := readUp_digits (Int.ofNat_le.1 hhi)
    rw [ofInt, heq] at *
    unfold readSigned
    split <;> simp_all [Except.map]
  | negSucc n =>
    obtain ⟨c, cs, heq, -⟩ := digits_eq_cons (n + 1)
    have hread : readUp lo 0 (digits (n + 1)) = .ok (n + 1) := readUp_digits (by omega)
    simp only [ofInt]
    rw [heq] at hread ⊢
    simp [readSigned, readDown, hread, Except.map]
    omega

-- ---------------------------------------------------------------------------
-- Fixed width
-- ---------------------------------------------------------------------------

/-- A number below a power of ten has no more digits than that. -/
theorem length_digits_le {width n : Nat} (hw : 0 < width) (hn : n < 10 ^ width) :
    (digits n).length ≤ width := (Nat.length_toDigits_le_iff (by decide) hw).2 hn

theorem allDigits_padded (width n : Nat) : AllDigits (padded width n) := by
  intro c hc
  rcases List.mem_append.1 hc with hzero | hdigit
  · rw [List.eq_of_mem_replicate hzero]
    decide
  · exact allDigits_digits n c hdigit

/-- A number that fits is padded to its width. -/
theorem length_padded {width n : Nat} (hw : 0 < width) (hn : n < 10 ^ width) :
    (padded width n).length = width := by
  have := length_digits_le hw hn
  simp [padded]
  omega

/-- Zeros in front do not change the value. -/
theorem value_padded (width n : Nat) : value (padded width n) = n := by
  simp [padded, value_append, value_zeros, value_digits]

/-- A number with zeros in front is read back from the front of a text. -/
theorem takeDigits?_padded {width n : Nat} (hw : 0 < width) (hn : n < 10 ^ width)
    (rest : List Char) : takeDigits? width (padded width n ++ rest) = some (n, rest) := by
  have hlen := length_padded hw hn
  have hall : (padded width n).all (fun c => (digit? c).isSome) = true :=
    List.all_eq_true.2 (allDigits_padded width n)
  unfold takeDigits?
  rw [List.take_append_of_le_length (by omega), List.drop_append_of_le_length (by omega)]
  simp [List.take_of_length_le (Nat.le_of_eq hlen), List.drop_of_length_le (Nat.le_of_eq hlen), hlen, hall,
    value_padded]

end TreeScript.Numeral
