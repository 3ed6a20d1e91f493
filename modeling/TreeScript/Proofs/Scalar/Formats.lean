import TreeScript.Proofs.Scalar.Binary64
import TreeScript.Scalar.Basic

/-!
# TreeScript — scalar values are read back

The texts of bytes in base 64, of identifiers and of points in time with a year of
four digits are read back as what they were written for, and so are all other
scalar values.

* `Base64.decode?_encode`, `Guid.read?_text`, `Instant.read?_text` — three formats;
* `Scalar.Readable`, `Scalar.read_chars` — all scalar values.
-/

namespace TreeScript

namespace Base64

/-- A symbol is read as the six bits that it stands for. -/
theorem sextet?_symbol {n : Nat} (hn : n < 64) : sextet? (symbol n) = some n := by
  have hall : ∀ n : Fin 64, sextet? (symbol n) = some n.val := by decide
  exact hall ⟨n, hn⟩

theorem symbol_ne_pad {n : Nat} (hn : n < 64) : symbol n ≠ '=' := by
  have hall : ∀ n : Fin 64, symbol n ≠ '=' := by decide
  exact hall ⟨n, hn⟩

theorem isSpace_symbol {n : Nat} (hn : n < 64) : Text.isSpace (symbol n) = false := by
  have hall : ∀ n : Fin 64, Text.isSpace (symbol n) = false := by decide
  exact hall ⟨n, hn⟩

/-- Four characters without filling are a full group, wherever they stand. -/
theorem decode?_cons {w x y z : Char} (hz : z ≠ '=') (rest : List Char) :
    decode? (w :: x :: y :: z :: rest) =
      (group? w x y z).bind fun front => (decode? rest).map (front ++ ·) := by
  cases rest with
  | nil =>
    simp only [decode?, last?, if_neg hz, Option.map_some, List.append_nil]
    cases group? w x y z <;> rfl
  | cons v rest =>
    simp only [decode?]
    cases group? w x y z with
    | none => rfl
    | some front => cases decode? (v :: rest) <;> rfl

/-- Bytes are read back from their text. -/
theorem decode?_encode (bytes : List UInt8) : decode? (encode bytes) = some bytes := by
  fun_induction encode bytes with
  | case1 => rfl
  -- one byte is left: two symbols, whose last four bits are zero
  | case2 a n =>
    have ha := a.toNat_lt
    simp only [decode?, last?, if_pos]
    rw [sextet?_symbol (by omega), sextet?_symbol (by omega)]
    simp only [Option.bind_eq_bind, Option.bind_some]
    rw [show n / 64 * 64 + n % 64 = a.toNat * 16 by omega, if_pos (by omega)]
    simp
  -- two bytes are left: three symbols, whose last two bits are zero
  | case3 a b n =>
    have ha := a.toNat_lt
    have hb := b.toNat_lt
    have hy : symbol (n % 64) ≠ '=' := symbol_ne_pad (Nat.mod_lt _ (by decide))
    simp only [decode?, last?, if_pos, if_neg hy]
    rw [sextet?_symbol (by omega), sextet?_symbol (by omega), sextet?_symbol (by omega)]
    simp only [Option.bind_eq_bind, Option.bind_some]
    rw [show n / 4096 * 4096 + n / 64 % 64 * 64 + n % 64 = (a.toNat * 256 + b.toNat) * 4 by omega,
      if_pos (by omega), show (a.toNat * 256 + b.toNat) * 4 / 1024 = a.toNat by omega,
      show (a.toNat * 256 + b.toNat) * 4 / 4 % 256 = b.toNat by omega]
    simp
  -- three bytes are four symbols
  | case4 a b c rest n ih =>
    have ha := a.toNat_lt
    have hb := b.toNat_lt
    have hc := c.toNat_lt
    rw [decode?_cons (symbol_ne_pad (Nat.mod_lt _ (by decide))), ih, group?]
    rw [sextet?_symbol (by omega), sextet?_symbol (by omega), sextet?_symbol (by omega),
      sextet?_symbol (by omega)]
    simp only [Option.bind_eq_bind, Option.bind_some, Option.map_some]
    rw [show n / 262144 * 262144 + n / 4096 % 64 * 4096 + n / 64 % 64 * 64 + n % 64 =
        a.toNat * 65536 + b.toNat * 256 + c.toNat by omega,
      show (a.toNat * 65536 + b.toNat * 256 + c.toNat) / 65536 = a.toNat by omega,
      show (a.toNat * 65536 + b.toNat * 256 + c.toNat) / 256 % 256 = b.toNat by omega,
      show (a.toNat * 65536 + b.toNat * 256 + c.toNat) % 256 = c.toNat by omega]
    simp

theorem isSpace_of_mem_encode {bytes : List UInt8} {c : Char} (hc : c ∈ encode bytes) :
    Text.isSpace c = false := by
  -- symbols and the padding
  have hpad : Text.isSpace '=' = false := by decide
  fun_induction encode bytes with
  | case1 => simp at hc
  | case2 a n =>
    have ha := a.toNat_lt
    simp only [List.mem_cons, List.not_mem_nil, or_false] at hc
    rcases hc with rfl | rfl | rfl | rfl
    · exact isSpace_symbol (by omega)
    · exact isSpace_symbol (by omega)
    · exact hpad
    · exact hpad
  | case3 a b n =>
    have ha := a.toNat_lt
    have hb := b.toNat_lt
    simp only [List.mem_cons, List.not_mem_nil, or_false] at hc
    rcases hc with rfl | rfl | rfl | rfl
    · exact isSpace_symbol (by omega)
    · exact isSpace_symbol (by omega)
    · exact isSpace_symbol (by omega)
    · exact hpad
  | case4 a b c' rest n ih =>
    have ha := a.toNat_lt
    have hb := b.toNat_lt
    have hc' := c'.toNat_lt
    simp only [List.mem_cons] at hc
    rcases hc with rfl | rfl | rfl | rfl | hc
    · exact isSpace_symbol (by omega)
    · exact isSpace_symbol (by omega)
    · exact isSpace_symbol (by omega)
    · exact isSpace_symbol (by omega)
    · exact ih hc

end Base64

-- ---------------------------------------------------------------------------
-- Identifiers
-- ---------------------------------------------------------------------------

namespace Guid

/-- The digits of the last `k` groups of four bits of a number. -/
theorem hexValue?_digits (n k acc : Nat) :
    hexValue? acc ((List.range k).map fun i => Nat.digitChar (n / 16 ^ (k - 1 - i) % 16)) =
      some (acc * 16 ^ k + n % 16 ^ k) := by
  have hdigit : ∀ d < 16, hexDigit? (Nat.digitChar d) = some d := by decide
  induction k generalizing acc with
  | zero => simp [hexValue?, Nat.mod_one]
  | succ k ih =>
    have hshift : ((List.range k).map Nat.succ).map
          (fun i => Nat.digitChar (n / 16 ^ (k + 1 - 1 - i) % 16)) =
        (List.range k).map fun i => Nat.digitChar (n / 16 ^ (k - 1 - i) % 16) := by
      rw [List.map_map]
      refine List.map_congr_left fun i hi => ?_
      simp only [Function.comp_apply]
      rw [show k + 1 - 1 - i.succ = k - 1 - i by omega]
    rw [List.range_succ_eq_map, List.map_cons, hshift, hexValue?,
      hdigit _ (Nat.mod_lt _ (by decide))]
    simp only
    rw [ih, Nat.pow_succ, Nat.mod_mul, show k + 1 - 1 - 0 = k by omega]
    congr 1
    ring

/-- A digit of an identifier: neither a mark of its forms nor white space. -/
theorem of_mem_digits {g : Guid} {c : Char} (hc : c ∈ g.digits) :
    c ≠ '-' ∧ c ≠ '\x7b' ∧ c.toLower ≠ 'u' ∧ Text.isSpace c = false := by
  obtain ⟨i, -, rfl⟩ := List.mem_map.1 hc
  have hall : ∀ d < 16, Nat.digitChar d ≠ '-' ∧ Nat.digitChar d ≠ '\x7b' ∧
      (Nat.digitChar d).toLower ≠ 'u' ∧ Text.isSpace (Nat.digitChar d) = false := by decide
  exact hall _ (Nat.mod_lt _ (by decide))

theorem length_digits (g : Guid) : g.digits.length = 32 := by simp [digits]

/-- The digits are what is left between the hyphens. -/
theorem filter_hyphenate {ds : List Char} (hds : ∀ c ∈ ds, c ≠ '-') :
    (hyphenate ds).filter (· != '-') = ds := by
  have hpart : ∀ part : List Char, part.Sublist ds → part.filter (· != '-') = part := by
    intro part hpart
    refine List.filter_eq_self.2 fun c hc => ?_
    simpa using hds c (hpart.subset hc)
  have hgroup : ∀ k m, (ds.drop k).take m ++ ds.drop (k + m) = ds.drop k := by
    intro k m
    rw [← List.drop_drop, List.take_append_drop]
  have hsub : ∀ k m, ((ds.drop k).take m).Sublist ds := fun k m =>
    (List.take_sublist _ _).trans (List.drop_sublist _ _)
  simp only [hyphenate, List.filter_append, List.filter_cons, bne_self_eq_false, if_false,
    Bool.false_eq_true]
  rw [hpart _ (List.take_sublist _ _), hpart _ (hsub 8 4), hpart _ (hsub 12 4), hpart _ (hsub 16 4),
    hpart _ (List.drop_sublist _ _), hgroup 16 4, hgroup 12 4, hgroup 8 4, List.take_append_drop]

/-- An identifier is read back from its text. -/
theorem read?_text (g : Guid) : read? g.text = some g := by
  have hhyphen : ∀ c ∈ g.digits, c ≠ '-' := fun c hc => (of_mem_digits hc).1
  have hlen := length_digits g
  have hvalue : hexValue? 0 g.digits = some g.bits.toNat := by
    have h : hexValue? 0 g.digits = some (0 * 16 ^ 32 + g.bits.toNat % 16 ^ 32) :=
      hexValue?_digits g.bits.toNat 32 0
    have hlt : g.bits.toNat < 16 ^ 32 := g.bits.isLt
    rw [h, Nat.zero_mul, Nat.zero_add, Nat.mod_eq_of_lt hlt]
  have hback : ofHyphenated? g.text = some g := by
    simp [ofHyphenated?, text, filter_hyphenate hhyphen, ofDigits?, hlen, hvalue]
  -- the text begins with a digit, so it is neither in braces nor behind a scheme
  obtain ⟨c, cs, hcs⟩ : ∃ c cs, g.digits = c :: cs := by
    cases h : g.digits with
    | nil => simp [h] at hlen
    | cons c cs => exact ⟨c, cs, rfl⟩
  obtain ⟨-, hbrace, hscheme, -⟩ := of_mem_digits (g := g) (c := c) (by simp [hcs])
  obtain ⟨rest, htext⟩ : ∃ rest, g.text = c :: rest := ⟨_, by rw [text, hyphenate, hcs]; rfl⟩
  have hlength : g.text.length ≠ 32 := by
    simp [text, hyphenate, hlen]
  have hnobrace : inBraces? g.text = none := by
    rw [htext, inBraces?]
    intro rest' heq
    exact hbrace (List.cons.inj heq).1
  have hnoscheme : afterScheme? g.text = none := by
    have : Text.sameFolded (g.text.take 9) "urn:uuid:".toList = false := by
      rw [htext, Text.sameFolded, Text.foldCase, Text.foldCase, beq_eq_false_iff_ne]
      intro heq
      exact hscheme (List.cons.inj heq).1
    rw [afterScheme?, this, if_neg Bool.false_ne_true]
  rw [read?, if_neg hlength, hnobrace, hnoscheme]
  exact hback

theorem isSpace_of_mem_text {g : Guid} {c : Char} (hc : c ∈ g.text) : Text.isSpace c = false := by
  have hdigit : ∀ c ∈ g.digits, Text.isSpace c = false := fun c hc => (of_mem_digits hc).2.2.2
  by_cases hhyphen : c = '-'
  · rw [hhyphen]
    decide
  · have hmem : c ∈ g.text.filter (· != '-') := List.mem_filter.2 ⟨hc, by simpa using hhyphen⟩
    rw [text, filter_hyphenate fun c hc => (of_mem_digits hc).1] at hmem
    exact hdigit c hmem

end Guid

-- ---------------------------------------------------------------------------
-- Points in time
-- ---------------------------------------------------------------------------

namespace Instant

open Numeral

/-- A fraction with digits filled up to nine. -/
theorem readFraction?_digits {ds rest : List Char} (hds : AllDigits ds) (hne : ds ≠ [])
    (hlen : ds.length ≤ 9) (hrest : ∀ c ∈ rest.head?, (digit? c).isSome = false) :
    readFraction? ('.' :: (ds ++ rest)) = some (value ds * 10 ^ (9 - ds.length), rest) := by
  have hsplit := Text.splitWhile_append hds hrest
  have htake : (ds ++ rest).takeWhile (fun c => (digit? c).isSome) = ds := congrArg Prod.fst hsplit
  simp only [readFraction?, htake, if_neg hne, List.drop_left]
  rw [List.take_append, List.take_of_length_le hlen, List.take_replicate,
    Nat.min_eq_left (by omega), value_append, value_zeros, List.length_replicate, Nat.add_zero]

/-- A fraction is read back from its text. -/
theorem readFraction?_fractionText {nano : Nat} (hn : nano < nanosPerSecond) {rest : List Char}
    (hdigit : ∀ c ∈ rest.head?, (digit? c).isSome = false) (hpoint : rest.head? ≠ some '.') :
    readFraction? (fractionText nano ++ rest) = some (nano, rest) := by
  -- a padded number of up to nine digits is read at its place behind the point
  have hpadded : ∀ {width n : Nat}, 0 < width → n < 10 ^ width → width ≤ 9 →
      readFraction? ('.' :: (padded width n ++ rest)) = some (n * 10 ^ (9 - width), rest) := by
    intro width n hw hlt hle
    have hlen := length_padded hw hlt
    rw [readFraction?_digits (allDigits_padded width n) (List.ne_nil_of_length_pos (by omega))
      (by omega) hdigit, value_padded, hlen]
  have hn' : nano < 1000000000 := hn
  unfold fractionText
  split
  -- nothing is written for zero, otherwise three, six or nine digits
  next hzero =>
    subst hzero
    cases rest with
    | nil => rfl
    | cons c rest =>
      have hc : c ≠ '.' := by simpa using hpoint
      simp [readFraction?, hc]
  next =>
    split
    next =>
      rw [List.cons_append, hpadded (by decide) (by omega) (by decide)]
      congr 2
      omega
    next =>
      split
      next =>
        rw [List.cons_append, hpadded (by decide) (by omega) (by decide)]
        congr 2
        omega
      next =>
        rw [List.cons_append, hpadded (by decide) (by omega) (by decide)]
        congr 2
        omega

theorem ofParts?_self (t : Instant) : ofParts? t.day t.second t.nano = some t := by
  simp only [ofParts?, t.second_lt, t.nano_lt, and_self, dif_pos]

theorem ofDayParts?_self (d : Day) : Day.ofParts? d.year d.month d.day = some d := by
  simp only [Day.ofParts?, d.month_pos, d.month_le, d.day_pos, d.day_le, and_self, dif_pos]

theorem after?_self (c : Char) (rest : List Char) : after? c (c :: rest) = some rest := if_pos rfl

/-- The clock of a point in time: a leap second is written as second 60 and stands
for the second before with a billion nanoseconds more. -/
theorem ofClock?_text (t : Instant) :
    (if t.second / 3600 ≤ 23 ∧ t.second / 60 % 60 ≤ 59 ∧
        t.second % 60 + (if nanosPerSecond ≤ t.nano then 1 else 0) ≤ 60 then
      ofLocal? t.day
        (t.second / 3600 * 3600 + t.second / 60 % 60 * 60 +
          if t.second % 60 + (if nanosPerSecond ≤ t.nano then 1 else 0) = 60 then 59
          else t.second % 60 + if nanosPerSecond ≤ t.nano then 1 else 0)
        (if t.second % 60 + (if nanosPerSecond ≤ t.nano then 1 else 0) = 60 then
          t.nano % nanosPerSecond + nanosPerSecond else t.nano % nanosPerSecond) 0
    else none) = some t := by
  have hsecond := t.second_lt
  have hback : ofLocal? t.day t.second t.nano 0 = some t := by
    simp [ofLocal?, hsecond, ofParts?_self]
  -- a leap second is written as second 60 and kept as a whole second more of nanoseconds
  by_cases hleap : nanosPerSecond ≤ t.nano
  · have hlast : t.second % 60 = 59 ∧ t.nano < 2 * nanosPerSecond := by
      rcases t.nano_lt with h | h
      · omega
      · exact h
    simp only [if_pos hleap, hlast.1]
    rw [if_pos (by omega)]
    simp only [if_true]
    convert hback using 2
    · omega
    · rw [Nat.mod_eq_sub_mod hleap, Nat.mod_eq_of_lt (by omega)]
      omega
  · simp only [if_neg hleap, Nat.add_zero]
    rw [if_pos (by omega), if_neg (by omega), if_neg (by omega)]
    convert hback using 2
    · omega
    · exact Nat.mod_eq_of_lt (by omega)

/-- A point in time with a year of four digits is read back from its text. -/
theorem read?_text {t : Instant} (hlo : 0 ≤ t.day.year) (hhi : t.day.year ≤ 9999) :
    read? t.text = some t := by
  have hyear : ((t.day.year.toNat : Nat) : Int) = t.day.year := Int.toNat_of_nonneg hlo
  have hsecond := t.second_lt
  have hmonth := t.day.month_le
  have hday : t.day.day < 10 ^ 2 := by
    have hle := t.day.day_le
    unfold daysIn at hle
    split at hle
    · split at hle <;> omega
    · split at hle <;> omega
  have hclock : t.second % 60 + (if nanosPerSecond ≤ t.nano then 1 else 0) < 10 ^ 2 := by
    split <;> omega
  have hfraction : readFraction? (fractionText (t.nano % nanosPerSecond) ++ "+00:00".toList) =
      some (t.nano % nanosPerSecond, "+00:00".toList) :=
    readFraction?_fractionText (Nat.mod_lt _ (by decide)) (by simp [digit?]) (by decide)
  have hoffset : readOffset? "+00:00".toList = some 0 := by decide
  rw [text, yearText, if_pos ⟨hlo, hhi⟩, read?]
  -- one step of reading for each part of the text
  refine Option.bind_eq_some_iff.2 ⟨_, takeDigits?_padded (by decide) (by omega) _, ?_⟩
  refine Option.bind_eq_some_iff.2 ⟨_, after?_self '-' _, ?_⟩
  refine Option.bind_eq_some_iff.2 ⟨_, takeDigits?_padded (by decide) (by omega) _, ?_⟩
  refine Option.bind_eq_some_iff.2 ⟨_, after?_self '-' _, ?_⟩
  refine Option.bind_eq_some_iff.2 ⟨_, takeDigits?_padded (by decide) hday _, ?_⟩
  refine Option.bind_eq_some_iff.2 ⟨_, takeDigits?_padded (by decide) (by omega) _, ?_⟩
  refine Option.bind_eq_some_iff.2 ⟨_, after?_self ':' _, ?_⟩
  refine Option.bind_eq_some_iff.2 ⟨_, takeDigits?_padded (by decide) (by omega) _, ?_⟩
  refine Option.bind_eq_some_iff.2 ⟨_, after?_self ':' _, ?_⟩
  refine Option.bind_eq_some_iff.2 ⟨_, takeDigits?_padded (by decide) hclock _, ?_⟩
  refine Option.bind_eq_some_iff.2 ⟨_, hfraction, ?_⟩
  refine Option.bind_eq_some_iff.2 ⟨_, hoffset, ?_⟩
  refine Option.bind_eq_some_iff.2 ⟨t.day, by rw [hyear, ofDayParts?_self], ?_⟩
  exact ofClock?_text t

theorem isSpace_of_mem_padded {width n : Nat} {c : Char} (hc : c ∈ padded width n) :
    Text.isSpace c = false := isSpace_of_digit (allDigits_padded width n c hc)

theorem isSpace_of_mem_fractionText {nano : Nat} {c : Char} (hc : c ∈ fractionText nano) :
    Text.isSpace c = false := by
  have hpoint : Text.isSpace '.' = false := by decide
  unfold fractionText at hc
  split at hc
  · simp at hc
  · split at hc
    · rcases List.mem_cons.1 hc with rfl | hc
      · exact hpoint
      · exact isSpace_of_mem_padded hc
    · split at hc
      · rcases List.mem_cons.1 hc with rfl | hc
        · exact hpoint
        · exact isSpace_of_mem_padded hc
      · rcases List.mem_cons.1 hc with rfl | hc
        · exact hpoint
        · exact isSpace_of_mem_padded hc

theorem isSpace_of_mem_yearText {year : Int} {c : Char} (hc : c ∈ yearText year) :
    Text.isSpace c = false := by
  unfold yearText at hc
  split at hc
  · exact isSpace_of_mem_padded hc
  · rcases List.mem_cons.1 hc with rfl | hc
    · split <;> decide
    · exact isSpace_of_mem_padded hc

theorem isSpace_of_mem_text {t : Instant} {c : Char} (hc : c ∈ t.text) :
    Text.isSpace c = false := by
  rw [text] at hc
  simp only [List.mem_append, List.mem_cons] at hc
  rcases hc with hc | rfl | hc | rfl | hc | rfl | hc | rfl | hc | rfl | hc | hc | hc
  · exact isSpace_of_mem_yearText hc
  · decide
  · exact isSpace_of_mem_padded hc
  · decide
  · exact isSpace_of_mem_padded hc
  · decide
  · exact isSpace_of_mem_padded hc
  · decide
  · exact isSpace_of_mem_padded hc
  · decide
  · exact isSpace_of_mem_padded hc
  · exact isSpace_of_mem_fractionText hc
  · have hall : "+00:00".toList.all (fun c => !Text.isSpace c) = true := by decide
    simpa using List.all_eq_true.1 hall c hc

/-- A year that takes more than four digits has a sign, which no date may begin with. -/
theorem read?_text_eq_none {t : Instant} (hyear : ¬ (0 ≤ t.day.year ∧ t.day.year ≤ 9999)) :
    read? t.text = none := by
  obtain ⟨sign, rest, hsign, htext⟩ :
      ∃ sign rest, Numeral.digit? sign = none ∧ t.text = sign :: rest := by
    rw [text, yearText, if_neg hyear, List.cons_append]
    exact ⟨_, _, by split <;> decide, rfl⟩
  have hdigits : Numeral.takeDigits? 4 (sign :: rest) = none := by
    simp [Numeral.takeDigits?, hsign]
  rw [read?, htext, hdigits]
  rfl

end Instant

-- ---------------------------------------------------------------------------
-- All scalar values
-- ---------------------------------------------------------------------------

namespace Scalar

/-- A value that its text stands for: dates need a year of four digits. -/
def Readable : Scalar → Prop
  | .date t => 0 ≤ t.day.year ∧ t.day.year ≤ 9999
  | _ => True

theorem isSpace_of_mem_ofInt {n : Int} {c : Char} (hc : c ∈ Numeral.ofInt n) :
    Text.isSpace c = false := by
  cases n with
  | ofNat n => exact Numeral.isSpace_of_digit (Numeral.allDigits_digits n c hc)
  | negSucc n =>
    rcases List.mem_cons.1 hc with rfl | hc
    · decide
    · exact Numeral.isSpace_of_digit (Numeral.allDigits_digits _ c hc)

/-- A value is read back from its text. -/
theorem ofText_chars {v : Scalar} (hv : v.Readable) :
    ofText true (String.ofList (v.chars true)) v.kind = .ok v := by
  cases v with
  | string s => simp [ofText, kind, chars]
  -- a number in its range is read back, each width with its own bounds
  | int n =>
    have hlo := n.minValue_le_toInt
    have hhi := n.toInt_lt
    simp only [ofText, kind, chars, Text.trimmed_ofList fun c hc => isSpace_of_mem_ofInt hc]
    rw [Numeral.readSigned_ofInt (by simpa [Numeral.span] using hlo) (by
      simp only [Numeral.span]
      norm_num
      omega)]
    simp [Except.mapError, Except.map]
  | float x =>
    simp only [ofText, kind, chars, Text.trimmed_ofList fun c hc => Binary64.isSpace_of_mem_text hc,
      Binary64.read_text]
    rfl
  | bool b =>
    have htext : ∀ b : Bool, readBool (Text.trimmed (String.ofList
        (if b then "true" else "false").toList)) = .ok b := by decide
    simp only [ofText, kind, chars, htext]
    rfl
  | byte b =>
    have hle : b.toNat ≤ 255 := Nat.le_of_lt_succ b.toNat_lt
    simp only [ofText, kind, chars, Text.trimmed_ofList fun c hc =>
      Numeral.isSpace_of_digit (Numeral.allDigits_digits _ c hc), Numeral.readUnsigned_digits hle]
    simp [Except.mapError, Except.map]
  | sbyte b =>
    have hlo := b.minValue_le_toInt
    have hhi := b.toInt_lt
    simp only [ofText, kind, chars, Text.trimmed_ofList fun c hc => isSpace_of_mem_ofInt hc]
    rw [Numeral.readSigned_ofInt (by simpa using hlo) (by
      norm_num at hhi ⊢
      omega)]
    simp [Except.mapError, Except.map]
  | char c => simp [ofText, kind, chars]
  | blob bytes =>
    simp [ofText, kind, chars, Text.trimmed_ofList fun c hc => Base64.isSpace_of_mem_encode hc,
      Base64.decode?_encode]
  | date t =>
    simp [ofText, kind, chars, Text.trimmed_ofList fun c hc => Instant.isSpace_of_mem_text hc,
      Instant.read?_text hv.1 hv.2]
  | guid g =>
    simp [ofText, kind, chars, Text.trimmed_ofList fun c hc => Guid.isSpace_of_mem_text hc,
      Guid.read?_text]
  | expr s => simp [ofText, kind, chars]

theorem ofName?_name (k : Kind) : Kind.ofName? k.name = some k := by
  cases k <;> decide

theorem read_chars {v : Scalar} (hv : v.Readable) :
    read v.kind.name (String.ofList (v.chars true)) true = .ok v := by
  rw [read, ofName?_name]
  simp only [ofText_chars hv]
  rfl

/-- Whatever is read from the text of a value is that value. -/
theorem read_chars_eq_ok {v v' : Scalar}
    (hok : read v.kind.name (String.ofList (v.chars true)) true = .ok v') : v.Readable ∧ v' = v := by
  have hread : v.Readable := by
    by_contra hv
    cases v with
    | date t =>
      rw [read, ofName?_name] at hok
      simp [ofText, kind, chars, Text.trimmed_ofList fun c hc => Instant.isSpace_of_mem_text hc,
        Instant.read?_text_eq_none hv, Except.mapError] at hok
    | _ => exact hv trivial
  rw [read_chars hread] at hok
  exact ⟨hread, (Except.ok.inj hok).symm⟩

end Scalar

end TreeScript
