import Mathlib.Tactic
import TreeScript.Text.Utf8

/-!
# TreeScript — the order of texts is the order of their bytes

The first byte of a character grows with the number of bytes, and from the first byte on the groups
of bits follow each other from the highest one down. So of two characters the one that comes first
has the smaller byte where their bytes differ first, and texts are in the same order as their bytes.

* `byte_cons_lt` — one byte in front, in numbers;
* `encodeChar_append_lt` — the bytes of two characters, whatever follows;
* `encode_lt_encode_iff` — the bytes of two texts.
-/

namespace TreeScript.Utf8

/-- A smaller byte in front decides, and behind equal ones the rest does. -/
theorem byte_cons_lt {m n : Nat} {xs ys : List UInt8} (hn : n < 256) (hle : m ≤ n)
    (hrest : m = n → xs < ys) : UInt8.ofNat m :: xs < UInt8.ofNat n :: ys := by
  rw [List.cons_lt_cons_iff, UInt8.lt_iff_toNat_lt, UInt8.toNat_ofNat_of_lt' (by omega : m < 256),
    UInt8.toNat_ofNat_of_lt' hn]
  rcases Nat.lt_or_eq_of_le hle with hlt | rfl
  · exact Or.inl hlt
  · exact Or.inr ⟨rfl, hrest rfl⟩

theorem append_lt_append_iff (front : List UInt8) {xs ys : List UInt8} :
    front ++ xs < front ++ ys ↔ xs < ys := by
  induction front with
  | nil => rfl
  | cons b front ih => simp [ih]

/-- The bytes of two different characters are in their order, whatever follows. -/
theorem encodeChar_append_lt {c d : Char} (hcd : c < d) (xs ys : List UInt8) :
    encodeChar c ++ xs < encodeChar d ++ ys := by
  have hlt : c.toNat < d.toNat := hcd
  have hvalid : d.toNat < 0xD800 ∨ 0xDFFF < d.toNat ∧ d.toNat < 0x110000 := d.valid
  have hmax : d.toNat < 0x110000 := by omega
  clear hvalid
  -- the cases in which the first bytes differ come first, then those with as many bytes
  simp only [encodeChar]
  split
  next hc =>
    split
    next => exact byte_cons_lt (by omega) (by omega) (by omega)
    next =>
      split
      next => exact byte_cons_lt (by omega) (by omega) (by omega)
      next =>
        split
        next => exact byte_cons_lt (by omega) (by omega) (by omega)
        next => exact byte_cons_lt (by omega) (by omega) (by omega)
  next hc =>
    rw [if_neg (by omega : ¬ d.toNat < 0x80)]
    split
    next hc =>
      split
      next =>
        exact byte_cons_lt (by omega) (by omega) fun _ =>
          byte_cons_lt (by omega) (by omega) (by omega)
      next =>
        split
        next => exact byte_cons_lt (by omega) (by omega) (by omega)
        next => exact byte_cons_lt (by omega) (by omega) (by omega)
    next hc =>
      rw [if_neg (by omega : ¬ d.toNat < 0x800)]
      split
      next hc =>
        split
        next =>
          exact byte_cons_lt (by omega) (by omega) fun _ =>
            byte_cons_lt (by omega) (by omega) fun _ =>
              byte_cons_lt (by omega) (by omega) (by omega)
        next => exact byte_cons_lt (by omega) (by omega) (by omega)
      next hc =>
        rw [if_neg (by omega : ¬ d.toNat < 0x10000)]
        exact byte_cons_lt (by omega) (by omega) fun _ =>
          byte_cons_lt (by omega) (by omega) fun _ =>
            byte_cons_lt (by omega) (by omega) fun _ =>
              byte_cons_lt (by omega) (by omega) (by omega)

theorem nil_lt_encodeChar_append (c : Char) (xs : List UInt8) : [] < encodeChar c ++ xs := by
  simp only [encodeChar]
  split
  · exact List.nil_lt_cons _ _
  · split
    · exact List.nil_lt_cons _ _
    · split
      · exact List.nil_lt_cons _ _
      · exact List.nil_lt_cons _ _

/-- Texts are in the same order as their bytes. -/
theorem encode_lt_encode_iff {cs ds : List Char} : encode cs < encode ds ↔ cs < ds := by
  have hcut : ∀ x xs, encode (x :: xs) = encodeChar x ++ encode xs := fun _ _ => List.flatMap_cons
  induction cs generalizing ds with
  | nil =>
    cases ds with
    | nil => simp [encode]
    | cons d ds =>
      rw [hcut]
      exact iff_of_true (nil_lt_encodeChar_append d _) (List.nil_lt_cons d ds)
  | cons c cs ih =>
    cases ds with
    | nil => simp [encode]
    | cons d ds =>
      rw [hcut, hcut, List.cons_lt_cons_iff]
      rcases Nat.lt_trichotomy c.toNat d.toNat with hlt | heq | hgt
      · exact iff_of_true (encodeChar_append_lt hlt _ _) (Or.inl hlt)
      · obtain rfl := Char.toNat_inj.1 heq
        refine (append_lt_append_iff _).trans
          (ih.trans ⟨fun hlt => Or.inr ⟨rfl, hlt⟩, fun hlt => ?_⟩)
        exact (hlt.resolve_left (Char.lt_irrefl c)).2
      · refine iff_of_false (List.lt_asymm (encodeChar_append_lt hgt _ _)) ?_
        rintro (hlt | ⟨rfl, -⟩)
        · exact Nat.lt_asymm hgt hlt
        · exact Nat.lt_irrefl _ hgt

end TreeScript.Utf8
