import Mathlib.Tactic
import TreeScript.Text.Utf8

/-!
# TreeScript — characters are read back from their bytes

The bytes of a character are its number in groups of six bits. The first byte tells how many
groups there are, and the bounds on the second one leave out the numbers that fewer bytes hold
and those that no character has.

* `isTail_iff`, `isSecond_iff` — which bytes may come next, in numbers;
* `scan_encodeChar` — the bytes of a character are one piece;
* `decodeLossy_encode` — so a text is read back from its bytes.
-/

namespace TreeScript.Utf8

-- ---------------------------------------------------------------------------
-- Single bytes
-- ---------------------------------------------------------------------------

/-- A continuation byte is one between two bounds. -/
theorem isTail_iff {b : UInt8} : isTail b = true ↔ 0x80 ≤ b.toNat ∧ b.toNat ≤ 0xBF := by
  simp [isTail, UInt8.le_iff_toNat_le]

/-- A second byte continues the character, and is not out of bounds behind its leading byte. -/
theorem isSecond_iff {lead b : UInt8} :
    isSecond lead b = true ↔ (0x80 ≤ b.toNat ∧ b.toNat ≤ 0xBF) ∧
      (lead.toNat = 0xE0 → 0xA0 ≤ b.toNat) ∧ (lead.toNat = 0xED → b.toNat ≤ 0x9F) ∧
      (lead.toNat = 0xF0 → 0x90 ≤ b.toNat) ∧ (lead.toNat = 0xF4 → b.toNat ≤ 0x8F) := by
  have htail := isTail_iff (b := b)
  simp only [isSecond, beq_iff_eq, ← UInt8.toNat_inj, UInt8.reduceToNat]
  split
  · simp only [Bool.and_eq_true, decide_eq_true_eq, UInt8.le_iff_toNat_le, UInt8.reduceToNat]
    omega
  · split
    · simp only [Bool.and_eq_true, decide_eq_true_eq, UInt8.le_iff_toNat_le, UInt8.reduceToNat]
      omega
    · split
      · simp only [Bool.and_eq_true, decide_eq_true_eq, UInt8.le_iff_toNat_le, UInt8.reduceToNat]
        omega
      · split
        · simp only [Bool.and_eq_true, decide_eq_true_eq, UInt8.le_iff_toNat_le, UInt8.reduceToNat]
          omega
        · rw [htail]
          omega

-- ---------------------------------------------------------------------------
-- Pieces
-- ---------------------------------------------------------------------------

/-- One byte for the first 128 characters. -/
theorem scan_one {lead : UInt8} (hlead : lead.toNat < 0x80) (rest : List UInt8) :
    scan lead rest = .char (Char.ofNat lead.toNat) rest := by
  simp [scan, UInt8.lt_iff_toNat_lt, hlead]

/-- Two bytes; the first two leads would be longer forms of one byte. -/
theorem scan_two {lead b : UInt8} (hlo : 0xC2 ≤ lead.toNat) (hhi : lead.toNat ≤ 0xDF)
    (hb : isTail b = true) (rest : List UInt8) :
    scan lead (b :: rest) = .char (Char.ofNat (lead.toNat % 32 * 64 + low b)) rest := by
  have h1 : ¬ lead.toNat < 0x80 := by omega
  simp [scan, UInt8.lt_iff_toNat_lt, UInt8.le_iff_toNat_le, h1, hlo, hhi, hb]

/-- Three bytes; what the second may be depends on the first. -/
theorem scan_three {lead b c : UInt8} (hlo : 0xE0 ≤ lead.toNat) (hhi : lead.toNat ≤ 0xEF)
    (hb : isSecond lead b = true) (hc : isTail c = true) (rest : List UInt8) :
    scan lead (b :: c :: rest) =
      .char (Char.ofNat (lead.toNat % 16 * 4096 + low b * 64 + low c)) rest := by
  have h1 : ¬ lead.toNat < 0x80 := by omega
  have h2 : ¬ lead.toNat ≤ 0xDF := by omega
  simp [scan, UInt8.lt_iff_toNat_lt, UInt8.le_iff_toNat_le, h1, h2, hlo, hhi, hb, hc]

/-- Four bytes, up to the last character that there is. -/
theorem scan_four {lead b c d : UInt8} (hlo : 0xF0 ≤ lead.toNat) (hhi : lead.toNat ≤ 0xF4)
    (hb : isSecond lead b = true) (hc : isTail c = true) (hd : isTail d = true)
    (rest : List UInt8) :
    scan lead (b :: c :: d :: rest) =
      .char (Char.ofNat (lead.toNat % 8 * 262144 + low b * 4096 + low c * 64 + low d)) rest := by
  have h1 : ¬ lead.toNat < 0x80 := by omega
  have h2 : ¬ lead.toNat ≤ 0xDF := by omega
  have h3 : ¬ lead.toNat ≤ 0xEF := by omega
  simp [scan, UInt8.lt_iff_toNat_lt, UInt8.le_iff_toNat_le, h1, h2, h3, hlo, hhi, hb, hc, hd]

/-- The bytes of a character are one piece, whatever comes after them. -/
theorem scan_encodeChar (c : Char) (rest : List UInt8) :
    ∃ lead tail, encodeChar c = lead :: tail ∧ scan lead (tail ++ rest) = .char c rest := by
  have hvalid : c.toNat < 0xD800 ∨ 0xDFFF < c.toNat ∧ c.toNat < 0x110000 := c.valid
  have hback : ∀ n, n = c.toNat → Piece.char (Char.ofNat n) rest = .char c rest := by
    rintro _ rfl
    rw [Char.ofNat_toNat]
  -- a byte behind the first carries six bits
  have htail : ∀ {n}, n < 64 → isTail (UInt8.ofNat (0x80 + n)) = true := fun hn => by
    rw [isTail_iff, UInt8.toNat_ofNat_of_lt' (show _ < 256 by omega)]
    omega
  have hlow : ∀ {n}, n < 64 → low (UInt8.ofNat (0x80 + n)) = n := fun hn => by
    rw [low, UInt8.toNat_ofNat_of_lt' (show _ < 256 by omega)]
    omega
  simp only [encodeChar]
  split
  -- one byte, then two, three and four
  next hone =>
    refine ⟨_, _, rfl, ?_⟩
    have hlead := UInt8.toNat_ofNat_of_lt' (show c.toNat < 256 by omega)
    rw [List.nil_append, scan_one (by rwa [hlead]), hlead]
    exact hback _ rfl
  next hone =>
    split
    next htwo =>
      refine ⟨_, _, rfl, ?_⟩
      have hlead := UInt8.toNat_ofNat_of_lt' (show 0xC0 + c.toNat / 64 < 256 by omega)
      rw [List.singleton_append, scan_two (by omega) (by omega) (htail (by omega)), hlead,
        hlow (by omega)]
      exact hback _ (by omega)
    next htwo =>
      split
      next hthree =>
        refine ⟨_, _, rfl, ?_⟩
        have hlead := UInt8.toNat_ofNat_of_lt' (show 0xE0 + c.toNat / 4096 < 256 by omega)
        have hsecond := UInt8.toNat_ofNat_of_lt' (show 0x80 + c.toNat / 64 % 64 < 256 by omega)
        rw [List.cons_append, List.singleton_append,
          scan_three (by omega) (by omega) (isSecond_iff.2 (by omega)) (htail (by omega)), hlead,
          hlow (by omega), hlow (by omega)]
        exact hback _ (by omega)
      next hthree =>
        refine ⟨_, _, rfl, ?_⟩
        have hlead := UInt8.toNat_ofNat_of_lt' (show 0xF0 + c.toNat / 262144 < 256 by omega)
        have hsecond := UInt8.toNat_ofNat_of_lt' (show 0x80 + c.toNat / 4096 % 64 < 256 by omega)
        rw [List.cons_append, List.cons_append, List.singleton_append,
          scan_four (by omega) (by omega) (isSecond_iff.2 (by omega)) (htail (by omega))
            (htail (by omega)), hlead, hlow (by omega), hlow (by omega), hlow (by omega)]
        exact hback _ (by omega)

-- ---------------------------------------------------------------------------
-- Texts
-- ---------------------------------------------------------------------------

/-- A text is read back from its bytes, and nothing in it is taken for a bad piece. -/
theorem decodeLossy_encode (cs : List Char) : decodeLossy (encode cs) = cs := by
  induction cs with
  | nil => simp [encode, decodeLossy]
  | cons c cs ih =>
    obtain ⟨lead, tail, hbytes, hscan⟩ := scan_encodeChar c (encode cs)
    have hencode : encode (c :: cs) = lead :: (tail ++ encode cs) := by
      rw [encode, List.flatMap_cons, hbytes]
      rfl
    rw [hencode, decodeLossy]
    split
    next rest' h => simp [hscan] at h
    next c' rest' h =>
      obtain ⟨rfl, rfl⟩ : c = c' ∧ encode cs = rest' := by simpa [hscan] using h
      rw [ih]

end TreeScript.Utf8
