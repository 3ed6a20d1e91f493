import Mathlib.Data.List.TakeWhile
import TreeScript.Proofs.Scalar.Numeral
import TreeScript.Scalar.Binary64

/-!
# TreeScript — double-precision numbers are read back

The text of a number has the digits of a decimal that reads back, or of the number
itself. Writing the digits out moves the decimal point and drops zeros, which does
not change the number that is nearest.

* `nearest_scale`, `ofDecimal_shift` — zeros at the end of a decimal do not matter;
* `nearest_exact` — a number is the nearest one to itself;
* `ofDecimal_shortest` — the digits that are written read back;
* `read_text` — every number is read back from its text.
-/

namespace TreeScript.Binary64

open Numeral

-- ---------------------------------------------------------------------------
-- Rounding
-- ---------------------------------------------------------------------------

/-- Rounding depends on the quotient only. -/
theorem roundHalfEven_scale (num den : Nat) {k : Nat} (hk : 0 < k) :
    roundHalfEven (num * k) (den * k) = roundHalfEven num den := by
  unfold roundHalfEven
  simp only
  rw [Nat.mul_div_mul_right _ _ hk, Nat.mul_mod_mul_right, ← Nat.mul_assoc]
  simp only [Nat.mul_lt_mul_right hk, Nat.mul_left_inj (Nat.ne_of_gt hk)]

/-- The nearest number depends on the fraction alone. -/
theorem nearest_scale (negative : Bool) (num den : Nat) {k : Nat} (hk : 0 < k) :
    nearest negative (num * k) (den * k) = nearest negative num den := by
  have hscale : scaleOf (num * k) (den * k) = scaleOf num den := by
    unfold scaleOf
    rw [Nat.mul_div_mul_right _ _ hk]
  simp only [nearest, hscale]
  rw [Nat.mul_right_comm, roundHalfEven_scale _ _ hk]

/-- A canonical number is made of its parts. -/
theorem ofParts_canonical (negative : Bool) {mantissa scale : Nat} (h : Canonical mantissa scale) :
    ofParts negative mantissa scale = .finite negative mantissa scale h := dif_pos h

/-- The power of two in a number that uses all its bits. -/
theorem scaleOf_canonical {mantissa scale : Nat} (h : Canonical mantissa scale) :
    scaleOf (mantissa * 2 ^ scale) 1 = scale := by
  obtain ⟨hlt, -, hfull | rfl⟩ := h
  · have hpos : mantissa * 2 ^ scale ≠ 0 := by
      have : 0 < Nat.pow 2 52 := Nat.pow_pos (by decide)
      exact Nat.mul_ne_zero (by omega) (by simp)
    have hlog : Nat.log2 (mantissa * 2 ^ scale) = 52 + scale := by
      rw [Nat.log2_eq_iff hpos, Nat.pow_add, show 52 + scale + 1 = 53 + scale by omega, Nat.pow_add]
      exact ⟨Nat.mul_le_mul_right _ hfull, Nat.mul_lt_mul_of_pos_right hlt (Nat.pow_pos (by decide))⟩
    simp only [scaleOf, Nat.div_one, hlog]
    split
    next hsmall =>
      by_contra hscale
      have h1 : 2 ^ 1 ≤ 2 ^ scale := Nat.pow_le_pow_right (by decide) (by omega)
      have h2 : Nat.pow 2 52 * 2 ^ 1 ≤ mantissa * 2 ^ scale := Nat.mul_le_mul hfull h1
      have h3 : Nat.pow 2 52 * 2 ^ 1 = Nat.pow 2 53 := rfl
      omega
    next => omega
  · unfold scaleOf
    rw [Nat.pow_zero, Nat.mul_one, Nat.div_one, if_pos hlt]

/-- A number is the nearest one to itself. -/
theorem nearest_exact (negative : Bool) {mantissa scale : Nat} (h : Canonical mantissa scale) :
    nearest negative (mantissa * 2 ^ scale) 1 = .finite negative mantissa scale h := by
  have hround : roundHalfEven (mantissa * 2 ^ scale) (1 * Nat.pow 2 scale) = mantissa := by
    have hpos : 0 < 2 ^ scale := Nat.pow_pos (by decide)
    have hpow : Nat.pow 2 scale = 2 ^ scale := rfl
    rw [hpow]
    have hscale := roundHalfEven_scale mantissa 1 hpos
    rw [hscale]
    simp [roundHalfEven, Nat.mod_one]
  simp only [nearest, scaleOf_canonical h, hround]
  exact ofParts_canonical negative h

-- ---------------------------------------------------------------------------
-- Decimals
-- ---------------------------------------------------------------------------

/-- Ten times a number has one digit more. -/
theorem length_digits_mul_ten {n : Nat} (hn : n ≠ 0) :
    (digits (n * 10)).length = (digits n).length + 1 := by
  have hsplit := Nat.toDigits_append_toDigits (b := 10) (n := n) (d := 0) (by decide) (by omega) (by decide)
  rw [Nat.add_zero, Nat.mul_comm] at hsplit
  rw [digits, ← hsplit, List.length_append, Nat.toDigits_zero]
  rfl

/-- No digits make zero, whatever the power. -/
theorem ofDecimal_zero (negative : Bool) (power : Int) :
    ofDecimal negative 0 power = zero negative := by
  simp only [ofDecimal, true_or, if_true]

/-- A zero at the end of a decimal does not matter. -/
theorem ofDecimal_mul_ten (negative : Bool) {n : Nat} (hn : n ≠ 0) (power : Int) :
    ofDecimal negative (n * 10) (power - 1) = ofDecimal negative n power := by
  -- ten times the digits and one power less is a number of the same size
  have hsize : power - 1 + ((digits (n * 10)).length : Int) = power + (digits n).length := by
    rw [length_digits_mul_ten hn]
    push_cast
    omega
  have hn' : n * 10 ≠ 0 := by omega
  unfold ofDecimal
  simp only [hsize, hn, hn', false_or]
  generalize Nat.pow 2 1074 = unit
  split
  · rfl
  · split
    · rfl
    -- the power becomes negative, stays positive or stays negative
    · rcases power with (_ | p) | p
      · show nearest negative (n * 10 * unit) (Nat.pow 10 1) = nearest negative (n * Nat.pow 10 0 * unit) 1
        have := nearest_scale negative (n * unit) 1 (k := 10) (by decide)
        rw [Nat.mul_right_comm, show Nat.pow 10 1 = 1 * 10 from rfl, this]
        congr 1
        exact congrArg (· * unit) (Nat.mul_one n).symm
      · have hpower : Int.ofNat (p + 1) - 1 = Int.ofNat p := by simp
        rw [hpower]
        show nearest negative (n * 10 * 10 ^ p * unit) 1 = nearest negative (n * 10 ^ (p + 1) * unit) 1
        rw [Nat.pow_succ, Nat.mul_assoc n 10, Nat.mul_comm 10]
      · have hpower : Int.negSucc p - 1 = Int.negSucc (p + 1) := by omega
        rw [hpower]
        show nearest negative (n * 10 * unit) (10 ^ (p + 1 + 1)) = nearest negative (n * unit) (10 ^ (p + 1))
        rw [Nat.mul_right_comm, Nat.pow_succ 10 (p + 1), nearest_scale _ _ _ (by decide)]

/-- Zeros at the end of a decimal do not matter. -/
theorem ofDecimal_shift (negative : Bool) {n : Nat} (hn : n ≠ 0) (power : Int) (k : Nat) :
    ofDecimal negative (n * 10 ^ k) (power - k) = ofDecimal negative n power := by
  induction k with
  | zero => simp
  | succ k ih =>
    have hpos : n * 10 ^ k ≠ 0 := Nat.mul_ne_zero hn (by simp)
    have hstep := ofDecimal_mul_ten negative hpos (power - k)
    rw [ih] at hstep
    rw [Nat.pow_succ, ← Nat.mul_assoc, ← hstep]
    congr 1
    push_cast
    omega

/-- The same number with another sign. -/
def withSign (negative : Bool) : Binary64 → Binary64
  | .nan => .nan
  | .infinite _ => .infinite negative
  | .finite _ mantissa scale h => .finite negative mantissa scale h

theorem nearest_withSign (negative : Bool) (num den : Nat) :
    nearest negative num den = (nearest false num den).withSign negative := by
  simp only [nearest, ofParts]
  split
  · rfl
  · split <;> rfl

/-- The sign of a decimal is the sign of its number. -/
theorem ofDecimal_withSign (negative : Bool) (n : Nat) (power : Int) :
    ofDecimal negative n power = (ofDecimal false n power).withSign negative := by
  unfold ofDecimal
  simp only
  split
  · rfl
  · split
    · rfl
    · split
      · exact nearest_withSign _ _ _
      · exact nearest_withSign _ _ _

-- ---------------------------------------------------------------------------
-- The digits that are written
-- ---------------------------------------------------------------------------

theorem pow_five_mul_pow_two (n k : Nat) :
    n * Nat.pow 5 k * Nat.pow 2 k = n * Nat.pow 10 k := by
  show n * 5 ^ k * 2 ^ k = n * (5 * 2) ^ k
  rw [Nat.mul_pow, Nat.mul_assoc]

theorem pow_two_le {a b : Nat} (h : a ≤ b) : Nat.pow 2 a ≤ Nat.pow 2 b :=
  Nat.pow_le_pow_right (by decide) h

/-- No finite number leaves the range within which decimals are computed. -/
theorem size_scaledUp {mantissa scale : Nat} (h : Canonical mantissa scale) (hpos : mantissa ≠ 0) :
    744 < (digits (scaledUp mantissa scale)).length ∧
      (digits (scaledUp mantissa scale)).length ≤ 1404 := by
  have hlow : 10 ^ 744 ≤ Nat.pow 5 1074 := by decide +kernel
  have hhigh : Nat.pow 2 53 * Nat.pow 2 2045 * Nat.pow 5 1074 < 10 ^ 1404 := by decide +kernel
  have hone : 1 ≤ mantissa * Nat.pow 2 scale :=
    Nat.mul_pos (Nat.pos_of_ne_zero hpos) (Nat.pow_pos (by decide))
  have hmantissa : mantissa ≤ Nat.pow 2 53 := Nat.le_of_lt h.1
  have hscale : Nat.pow 2 scale ≤ Nat.pow 2 2045 := pow_two_le h.2.1
  unfold scaledUp digits
  generalize Nat.pow 5 1074 = fives at *
  generalize Nat.pow 2 2045 = twos at *
  constructor
  · rw [← Nat.not_le, Nat.length_toDigits_le_iff (by decide) (by decide), Nat.not_lt]
    calc 10 ^ 744 ≤ 1 * fives := (Nat.one_mul fives).symm ▸ hlow
      _ ≤ mantissa * Nat.pow 2 scale * fives := Nat.mul_le_mul_right _ hone
  · rw [Nat.length_toDigits_le_iff (by decide) (by decide)]
    exact Nat.lt_of_le_of_lt (Nat.mul_le_mul_right _ (Nat.mul_le_mul hmantissa hscale)) hhigh

/-- A decimal of moderate size with a fraction is rounded as a fraction. -/
theorem ofDecimal_negSucc {n p : Nat} (hn : n ≠ 0) (hlow : p + 1 ≤ (digits n).length + 330)
    (hhigh : (digits n).length ≤ p + 331) :
    ofDecimal false n (Int.negSucc p) = nearest false (n * Nat.pow 2 1074) (Nat.pow 10 (p + 1)) := by
  simp only [ofDecimal]
  rw [if_neg (by omega), if_neg (by omega)]

/-- The exact decimal of a number reads back. -/
theorem ofDecimal_scaledUp {mantissa scale : Nat} (h : Canonical mantissa scale)
    (hpos : mantissa ≠ 0) :
    ofDecimal false (scaledUp mantissa scale) (Int.negSucc 1073) =
      .finite false mantissa scale h := by
  obtain ⟨hlow, hhigh⟩ := size_scaledUp h hpos
  have hne : scaledUp mantissa scale ≠ 0 := by
    intro hzero
    rw [hzero] at hlow
    simp [digits] at hlow
  rw [ofDecimal_negSucc hne (by omega) (by omega), scaledUp, pow_five_mul_pow_two,
    ← nearest_exact false h]
  have hscale := nearest_scale false (mantissa * 2 ^ scale) 1 (k := Nat.pow 10 (1073 + 1))
    (Nat.pow_pos (by decide))
  rw [Nat.one_mul] at hscale
  exact hscale

/-- Digits that have been found for a number are those of it. -/
theorem ofDecimal_of_withDigits? {x : Binary64} {whole size count digits : Nat} {power : Int}
    (h : withDigits? x whole size count = some (digits, power)) :
    ofDecimal false digits power = x := by
  unfold withDigits? at h
  simp only [decide_eq_true_eq] at h
  split at h
  next hfits =>
    obtain ⟨rfl, rfl⟩ := Prod.mk.inj (Option.some.inj h)
    exact hfits.1
  next =>
    split at h
    next hfits =>
      obtain ⟨rfl, rfl⟩ := Prod.mk.inj (Option.some.inj h)
      exact hfits
    next => simp at h

/-- The digits that are written for a number read back. -/
theorem ofDecimal_shortest {mantissa scale : Nat} (h : Canonical mantissa scale)
    (hpos : mantissa ≠ 0) :
    ofDecimal false (shortest mantissa scale).1 (shortest mantissa scale).2 =
      .finite false mantissa scale h := by
  simp only [shortest]
  cases hfound : (List.range 17).findSome? fun i => withDigits? (ofParts false mantissa scale)
      (scaledUp mantissa scale) (digits (scaledUp mantissa scale)).length (i + 1) with
  | some decimal =>
    obtain ⟨i, -, hi⟩ := List.exists_of_findSome?_eq_some hfound
    rw [Option.getD_some, ofDecimal_of_withDigits? hi, ofParts_canonical false h]
  | none =>
    have hpower : (-1074 : Int) = Int.negSucc 1073 := rfl
    rw [Option.getD_none, hpower]
    exact ofDecimal_scaledUp h hpos

theorem shortest_ne_zero {mantissa scale : Nat} (h : Canonical mantissa scale)
    (hpos : mantissa ≠ 0) : (shortest mantissa scale).1 ≠ 0 := by
  intro hzero
  have hback := ofDecimal_shortest h hpos
  rw [hzero, ofDecimal_zero, zero] at hback
  exact hpos (Binary64.finite.inj hback).2.1.symm

-- ---------------------------------------------------------------------------
-- Decimals written out
-- ---------------------------------------------------------------------------

/-- A decimal without exponent: digits, and behind a point a fraction if it has one. -/
def decimalText (whole fraction : List Char) : List Char :=
  if fraction = [] then whole else whole ++ '.' :: fraction

/-- What is written begins with its first digit. -/
theorem decimalText_cons (c : Char) (cs fraction : List Char) :
    ∃ rest, decimalText (c :: cs) fraction = c :: rest := by
  unfold decimalText
  split
  · exact ⟨_, rfl⟩
  · exact ⟨_, rfl⟩

theorem spanDigits_append {ds rest : List Char} (hds : AllDigits ds)
    (hrest : ∀ c ∈ rest.head?, (digit? c).isSome = false) : spanDigits (ds ++ rest) = (ds, rest) :=
  Text.splitWhile_append hds hrest

theorem spanDigits_self {ds : List Char} (hds : AllDigits ds) : spanDigits ds = (ds, []) := by
  have h : spanDigits (ds ++ []) = (ds, []) := spanDigits_append hds (by simp)
  rwa [List.append_nil] at h

/-- A decimal without exponent is read by its digits and the length of its fraction. -/
theorem readMagnitude?_decimalText (negative : Bool) {whole fraction : List Char}
    (hwhole : AllDigits whole) (hfraction : AllDigits fraction) (hne : whole ≠ []) :
    readMagnitude? negative (decimalText whole fraction) =
      some (ofDecimal negative (value (whole ++ fraction)) (0 - (fraction.length : Int))) := by
  unfold decimalText
  split
  next hnil =>
    subst hnil
    simp [readMagnitude?, spanDigits_self hwhole, hne, readExponent?]
  next =>
    have hspan : spanDigits (whole ++ '.' :: fraction) = (whole, '.' :: fraction) :=
      spanDigits_append hwhole (by simp [digit?])
    simp [readMagnitude?, hspan, spanDigits_self hfraction, hne, readExponent?]

theorem dropZeros_append (cs : List Char) :
    ∃ k, cs = dropZeros cs ++ List.replicate k '0' := by
  refine ⟨(cs.reverse.takeWhile (· == '0')).length, ?_⟩
  have hzeros : (cs.reverse.takeWhile (· == '0')).reverse =
      List.replicate (cs.reverse.takeWhile (· == '0')).length '0' := by
    rw [List.eq_replicate_iff]
    refine ⟨List.length_reverse, fun c hc => ?_⟩
    simpa using List.mem_takeWhile_imp (List.mem_reverse.1 hc)
  rw [← hzeros, dropZeros, ← List.reverse_append, List.takeWhile_append_dropWhile,
    List.reverse_reverse]

/-- A decimal that is written out reads as the decimal. -/
theorem positional_eq (negative : Bool) {n : Nat} (hn : n ≠ 0) (power : Int) :
    ∃ whole fraction, positional n power = decimalText whole fraction ∧ AllDigits whole ∧
      AllDigits fraction ∧ whole ≠ [] ∧
      ofDecimal negative (value (whole ++ fraction)) (0 - (fraction.length : Int)) =
        ofDecimal negative n power := by
  have hzeros : ∀ k, AllDigits (List.replicate k '0') := by
    intro k c hc
    rw [List.eq_of_mem_replicate hc]
    decide
  cases power with
  -- zeros are added behind the digits
  | ofNat p =>
    refine ⟨digits n ++ List.replicate p '0', [], rfl, ?_, by simp [AllDigits], by simp [digits], ?_⟩
    · exact List.forall_mem_append.2 ⟨allDigits_digits n, hzeros p⟩
    · have hshift := ofDecimal_shift negative hn (Int.ofNat p) p
      simp only [List.append_nil, value_append, value_zeros, value_digits, List.length_replicate,
        Nat.add_zero, List.length_nil]
      rw [← hshift]
      simp
  -- zeros are added in front, then the digits are cut at the point
  | negSucc p =>
    set full := List.replicate (p + 1 + 1 - (digits n).length) '0' ++ digits n with hfull
    have hall : AllDigits full := List.forall_mem_append.2 ⟨hzeros _, allDigits_digits n⟩
    have hlen : p + 2 ≤ full.length := by
      simp only [hfull, List.length_append, List.length_replicate]
      omega
    have hvalue : value full = n := by simp [hfull, value_append, value_zeros, value_digits]
    obtain ⟨k, hk⟩ := dropZeros_append (full.drop (full.length - (p + 1)))
    set whole := full.take (full.length - (p + 1)) with hwhole
    set fraction := dropZeros (full.drop (full.length - (p + 1))) with hfraction
    -- the zeros at the end of the fraction are dropped
    have hsplit : full = whole ++ fraction ++ List.replicate k '0' := by
      rw [List.append_assoc, ← hk, hwhole, List.take_append_drop]
    have hplaces : p + 1 = fraction.length + k := by
      have := congrArg List.length hk
      simp only [List.length_drop, List.length_append, List.length_replicate] at this
      omega
    -- so the number is a power of ten away from what is written
    have hdigits : n = value (whole ++ fraction) * 10 ^ k := by
      rw [← hvalue, hsplit, value_append _ (List.replicate k '0'), value_zeros,
        List.length_replicate, Nat.add_zero]
    refine ⟨whole, fraction, rfl, fun c hc => hall c (List.mem_of_mem_take hc), ?_, ?_, ?_⟩
    · intro c hc
      refine hall c ?_
      rw [hsplit]
      simp [hc]
    · exact List.ne_nil_of_length_pos (by
        rw [hwhole, List.length_take]
        omega)
    · have hne : value (whole ++ fraction) ≠ 0 := fun hzero => by simp [hzero] at hdigits; omega
      have hshift := ofDecimal_shift negative hne (0 - (fraction.length : Int)) k
      rw [← hdigits] at hshift
      rw [← hshift]
      congr 1
      omega

-- ---------------------------------------------------------------------------
-- Texts
-- ---------------------------------------------------------------------------

/-- A decimal begins with a digit, so it is no name. -/
theorem readUnsigned_decimalText (negative : Bool) {whole fraction : List Char}
    (hwhole : AllDigits whole) (hfraction : AllDigits fraction) (hne : whole ≠ []) :
    readUnsigned negative (decimalText whole fraction) =
      .ok (ofDecimal negative (value (whole ++ fraction)) (0 - (fraction.length : Int))) := by
  obtain ⟨c, cs, rfl⟩ : ∃ c cs, whole = c :: cs := List.exists_cons_of_ne_nil hne
  have hc : (digit? c).isSome = true := hwhole c (by simp)
  obtain ⟨rest, htext⟩ := decimalText_cons c cs fraction
  have hlower : c.toLower = c := by
    obtain ⟨-, hhi⟩ := digit?_isSome_iff.1 hc
    have hupper : ¬ (c.val ≥ 65 ∧ c.val ≤ 90) := fun h => by
      have := UInt32.le_iff_toNat_le.1 h.1
      change 65 ≤ c.toNat at this
      omega
    exact dif_neg hupper
  -- a text that begins with a digit is none of the words for special numbers
  have hname : ∀ d ds, (digit? d).isSome = false →
      String.ofList (Text.foldCase (decimalText (c :: cs) fraction)) ≠ String.ofList (d :: ds) := by
    intro d ds hd heq
    rw [htext, Text.foldCase, List.map_cons, hlower] at heq
    have hcd : c = d := (List.cons.inj (String.ofList_injective heq)).1
    rw [hcd, hd] at hc
    exact Bool.false_ne_true hc
  unfold readUnsigned
  simp only
  rw [if_neg (hname 'n' ['a', 'n'] (by decide)), if_neg (fun h => h.elim
    (hname 'i' ['n', 'f'] (by decide)) (hname 'i' ['n', 'f', 'i', 'n', 'i', 't', 'y'] (by decide))),
    readMagnitude?_decimalText negative hwhole hfraction hne]

/-- The text of a finite number without its sign is a decimal that reads back. -/
theorem exists_decimalText {mantissa scale : Nat} (h : Canonical mantissa scale) (negative : Bool) :
    ∃ whole fraction,
      (if mantissa = 0 then ['0']
        else positional (shortest mantissa scale).1 (shortest mantissa scale).2) =
        decimalText whole fraction ∧ AllDigits whole ∧ AllDigits fraction ∧ whole ≠ [] ∧
      ofDecimal negative (value (whole ++ fraction)) (0 - (fraction.length : Int)) =
        .finite negative mantissa scale h := by
  by_cases hzero : mantissa = 0
  · subst hzero
    obtain rfl : scale = 0 := by
      rcases h.2.2 with hfull | hscale
      · exact absurd hfull (by decide)
      · exact hscale
    refine ⟨['0'], [], by simp [decimalText], by simp [AllDigits, digit?], by simp [AllDigits], by simp, ?_⟩
    rw [show value (['0'] ++ []) = 0 from rfl, ofDecimal_zero]
    rfl
  · obtain ⟨whole, fraction, htext, hwhole, hfraction, hne, hback⟩ :=
      positional_eq negative (shortest_ne_zero h hzero) (shortest mantissa scale).2
    refine ⟨whole, fraction, by rw [if_neg hzero, htext], hwhole, hfraction, hne, ?_⟩
    rw [hback, ofDecimal_withSign, ofDecimal_shortest h hzero]
    rfl

/-- Every number is read back from its text. -/
theorem read_text (x : Binary64) : read x.text = .ok x := by
  cases x with
  | nan => decide
  | infinite negative => cases negative <;> decide
  | finite negative mantissa scale h =>
    obtain ⟨whole, fraction, htext, hwhole, hfraction, hne, hback⟩ := exists_decimalText h negative
    have hread := readUnsigned_decimalText negative hwhole hfraction hne
    rw [hback] at hread
    simp only [text, htext]
    cases negative with
    | true => exact hread
    | false =>
      obtain ⟨c, cs, rfl⟩ : ∃ c cs, whole = c :: cs := List.exists_cons_of_ne_nil hne
      have hc : (digit? c).isSome = true := hwhole c (by simp)
      have hplus : c ≠ '+' := ne_of_digit hc (by decide)
      have hminus : c ≠ '-' := ne_of_digit hc (by decide)
      obtain ⟨rest, hcons⟩ := decimalText_cons c cs fraction
      rw [if_neg Bool.false_ne_true, hcons]
      rw [hcons] at hread
      unfold read
      split <;> simp_all

theorem isSpace_of_mem_text {x : Binary64} {c : Char} (hc : c ∈ x.text) : Text.isSpace c = false := by
  cases x with
  | nan =>
    have hall : (text .nan).all (fun c => !Text.isSpace c) = true := by decide
    simpa using List.all_eq_true.1 hall c hc
  | infinite negative =>
    have hall : (text (.infinite negative)).all (fun c => !Text.isSpace c) = true := by
      cases negative <;> decide
    simpa using List.all_eq_true.1 hall c hc
  | finite negative mantissa scale h =>
    obtain ⟨whole, fraction, htext, hwhole, hfraction, -, -⟩ := exists_decimalText h negative
    -- digits and the point
    have hbody : ∀ c ∈ decimalText whole fraction, Text.isSpace c = false := by
      intro c hc
      unfold decimalText at hc
      split at hc
      · exact isSpace_of_digit (hwhole c hc)
      · rcases List.mem_append.1 hc with hc | hc
        · exact isSpace_of_digit (hwhole c hc)
        · rcases List.mem_cons.1 hc with rfl | hc
          · decide
          · exact isSpace_of_digit (hfraction c hc)
    simp only [text, htext] at hc
    split at hc
    · rcases List.mem_cons.1 hc with rfl | hc
      · decide
      · exact hbody c hc
    · exact hbody c hc

end TreeScript.Binary64
