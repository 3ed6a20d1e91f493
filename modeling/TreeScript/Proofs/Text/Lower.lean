import Mathlib.Data.Char
import Mathlib.Data.List.Lex
import Mathlib.Tactic
import TreeScript.Text.Lower
import TreeScript.Text.Space

/-!
# TreeScript — lower case and the order of texts

Two texts that differ in the case of the letters `A`–`Z` only have one lower case. And a text
stands before all texts that it is a proper beginning of, in lower case too: what is appended can
change the form of a sigma, but only to the one that stands later.

* `lowerCase_foldCase` — the case of `A`–`Z` does not matter;
* `lowerCase_lt_append` — a proper beginning comes first;
* `foldCase_eq_iff_length`, `lowerCase_lt_iff_length` — beginnings of one text are ordered by their
  lengths.
-/

namespace TreeScript.Text

-- ---------------------------------------------------------------------------
-- The letters A–Z
-- ---------------------------------------------------------------------------

/-- What is the same for the capital and the small letter of each pair does not see the case. -/
theorem apply_toLower {α : Type} {f : Char → α}
    (hpairs : ∀ n : Fin 26, f (Char.ofNat (n + 97)) = f (Char.ofNat (n + 65))) (c : Char) :
    f c.toLower = f c := by
  have hsmall : ∀ n : Fin 26, (Char.ofNat (n + 65)).toLower = Char.ofNat (n + 97) := by decide
  by_cases hupper : 65 ≤ c.toNat ∧ c.toNat ≤ 90
  · obtain ⟨n, rfl⟩ : ∃ n : Fin 26, c = Char.ofNat (n + 65) :=
      ⟨⟨c.toNat - 65, by omega⟩, by rw [Nat.sub_add_cancel hupper.1, Char.ofNat_toNat]⟩
    rw [hsmall, hpairs]
  · have hsame : c.toLower = c := by
      unfold Char.toLower
      split
      next h =>
        exact absurd ⟨UInt32.le_iff_toNat_le.1 h.1, UInt32.le_iff_toNat_le.1 h.2⟩ hupper
      next => rfl
    rw [hsame]

/-- The case of a letter does not matter to its lower case. -/
theorem lowerChar_toLower (c : Char) : lowerChar c.toLower = lowerChar c :=
  apply_toLower (by decide) c

/-- The case of a letter does not matter to whether it has one. -/
theorem isCased_toLower (c : Char) : isCased c.toLower = isCased c :=
  apply_toLower (by decide) c

/-- The case of a letter does not matter to whether it is passed over. -/
theorem isCaseIgnorable_toLower (c : Char) : isCaseIgnorable c.toLower = isCaseIgnorable c :=
  apply_toLower (by decide +kernel) c

/-- No other letter becomes a capital sigma. -/
theorem toLower_eq_sigma_iff (c : Char) : c.toLower = 'Σ' ↔ c = 'Σ' :=
  iff_of_eq (apply_toLower (f := fun c => c = 'Σ') (by decide) c)

/-- The case of letters does not matter to whether a cased one is met. -/
theorem meetsCased_foldCase (cs : List Char) : meetsCased (foldCase cs) = meetsCased cs := by
  induction cs with
  | nil => rfl
  | cons c cs ih =>
    rw [meetsCased, meetsCased] at ih
    rw [foldCase, meetsCased, meetsCased, List.map_cons, List.dropWhile_cons, List.dropWhile_cons,
      isCaseIgnorable_toLower]
    split
    · exact ih
    · simp [isCased_toLower]

/-- The case of letters does not matter, neither of those in front nor of those that follow. -/
theorem lowerAfter_foldCase (before cs : List Char) :
    lowerAfter (foldCase before) (foldCase cs) = lowerAfter before cs := by
  induction cs generalizing before with
  | nil => rfl
  | cons c cs ih =>
    have hcons : ∀ cs, foldCase (c :: cs) = c.toLower :: foldCase cs := fun _ => rfl
    rw [hcons, lowerAfter, lowerAfter, meetsCased_foldCase, meetsCased_foldCase, lowerChar_toLower,
      ← hcons, ih]
    simp only [toLower_eq_sigma_iff]

/-- The case of the letters `A`–`Z` does not matter for the lower case of a text. -/
theorem lowerCase_foldCase (cs : List Char) : lowerCase (foldCase cs) = lowerCase cs :=
  lowerAfter_foldCase [] cs

-- ---------------------------------------------------------------------------
-- The order of texts
-- ---------------------------------------------------------------------------

/-- A letter that is met is also met if something is appended. -/
theorem meetsCased_append {cs : List Char} (h : meetsCased cs = true) (more : List Char) :
    meetsCased (cs ++ more) = true := by
  induction cs with
  | nil => simp [meetsCased] at h
  | cons c cs ih =>
    rw [meetsCased, List.dropWhile_cons] at h
    rw [List.cons_append, meetsCased, List.dropWhile_cons]
    by_cases hc : isCaseIgnorable c = true
    · rw [if_pos hc] at h ⊢
      exact ih h
    · rw [if_neg hc] at h ⊢
      exact h

/-- Every character has a lower case. -/
theorem lowerChar_ne_nil (c : Char) : lowerChar c ≠ [] := by
  unfold lowerChar
  dsimp only
  split
  · simp
  · split <;> simp

/-- Something has something as its lower case. -/
theorem lowerAfter_ne_nil (before : List Char) {cs : List Char} (hcs : cs ≠ []) :
    lowerAfter before cs ≠ [] := by
  cases cs with
  | nil => exact absurd rfl hcs
  | cons c cs =>
    rw [lowerAfter]
    split <;> simp [lowerChar_ne_nil]

/-- The same text in front does not change the order. -/
theorem append_lt_append_left {as bs : List Char} (front : List Char) (h : as < bs) :
    front ++ as < front ++ bs := by
  induction front with
  | nil => exact h
  | cons c front ih => exact List.cons_lt_cons_iff.2 (Or.inr ⟨rfl, ih⟩)

/-- A text stands before those that go on after it, in lower case too. -/
theorem lowerAfter_lt_append (before cs : List Char) {more : List Char} (hmore : more ≠ []) :
    lowerAfter before cs < lowerAfter before (cs ++ more) := by
  induction cs generalizing before with
  | nil =>
    obtain ⟨c, rest, hlower⟩ := List.exists_cons_of_ne_nil (lowerAfter_ne_nil before hmore)
    rw [List.nil_append, hlower]
    exact List.nil_lt_cons c rest
  | cons c cs ih =>
    rw [List.cons_append, lowerAfter, lowerAfter]
    by_cases hc : c = 'Σ'
    · rw [if_pos hc, if_pos hc]
      -- the end of the word can only move away
      by_cases hmeets : meetsCased (cs ++ more) = meetsCased cs
      · rw [hmeets]
        exact append_lt_append_left _ (ih (c :: before))
      · obtain ⟨hno, hyes⟩ : meetsCased cs = false ∧ meetsCased (cs ++ more) = true := by
          have happend := fun h : meetsCased cs = true => meetsCased_append h more
          cases hcs : meetsCased cs <;> cases hcsm : meetsCased (cs ++ more) <;> simp_all
        cases hbefore : meetsCased before with
        | true =>
          rw [hno, hyes]
          exact List.cons_lt_cons_iff.2 (Or.inl (by decide))
        | false => exact append_lt_append_left _ (ih (c :: before))
    · rw [if_neg hc, if_neg hc]
      exact append_lt_append_left _ (ih (c :: before))

/-- A proper beginning comes first in lower case. -/
theorem lowerCase_lt_append (cs : List Char) {more : List Char} (hmore : more ≠ []) :
    lowerCase cs < lowerCase (cs ++ more) :=
  lowerAfter_lt_append [] cs hmore

-- ---------------------------------------------------------------------------
-- Beginnings of one text
-- ---------------------------------------------------------------------------

/-- To drop the case of letters keeps the length. -/
theorem length_foldCase (cs : List Char) : (foldCase cs).length = cs.length := List.length_map _

section

variable {a b cs : List Char}

/-- Beginnings of one text agree if they are of one length. -/
theorem foldCase_eq_iff_length (ha : foldCase a <+: foldCase cs) (hb : foldCase b <+: foldCase cs) :
    foldCase a = foldCase b ↔ a.length = b.length := by
  constructor
  · intro h
    rw [← length_foldCase a, h, length_foldCase]
  · intro h
    have hlen : (foldCase a).length = (foldCase b).length := by
      rw [length_foldCase, length_foldCase, h]
    exact (List.prefix_of_prefix_length_le ha hb hlen.le).eq_of_length hlen

/-- Of two beginnings of one text the shorter comes first. -/
theorem lowerCase_lt_of_length (ha : foldCase a <+: foldCase cs) (hb : foldCase b <+: foldCase cs)
    (hlt : a.length < b.length) : lowerCase a < lowerCase b := by
  have hle : (foldCase a).length ≤ (foldCase b).length := by
    rw [length_foldCase, length_foldCase]
    exact hlt.le
  obtain ⟨more, hmore⟩ := List.prefix_of_prefix_length_le ha hb hle
  have hne : more ≠ [] := by
    rintro rfl
    have h := congrArg List.length hmore
    rw [List.append_nil, length_foldCase, length_foldCase] at h
    omega
  rw [← lowerCase_foldCase a, ← lowerCase_foldCase b, ← hmore]
  exact lowerCase_lt_append _ hne

/-- Of two beginnings of one text, the shorter one comes first. -/
theorem lowerCase_lt_iff_length (ha : foldCase a <+: foldCase cs)
    (hb : foldCase b <+: foldCase cs) : lowerCase a < lowerCase b ↔ a.length < b.length := by
  refine ⟨fun hlt => ?_, lowerCase_lt_of_length ha hb⟩
  rcases lt_trichotomy a.length b.length with h | h | h
  · exact h
  · rw [← lowerCase_foldCase a, (foldCase_eq_iff_length ha hb).2 h, lowerCase_foldCase] at hlt
    exact absurd hlt (lt_irrefl _)
  · exact absurd (lowerCase_lt_of_length hb ha h) hlt.asymm

end

end TreeScript.Text
