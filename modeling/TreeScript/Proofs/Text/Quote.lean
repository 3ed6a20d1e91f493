import Mathlib.Data.List.TakeWhile
import Mathlib.Tactic
import TreeScript.Text.Quote

/-!
# TreeScript — written texts are read back

A quoted and a verbatim text are read back as they were, whatever follows them;
only a verbatim text must not be followed by a double quote. Cutting and trimming
leave alone what has nothing to be cut off.

* `scanQuoted_quoted`, `scanVerbatim_verbatim` — the two ways of quoting;
* `splitWhile_append` — cutting a text where it was put together;
* `trimEnd_eq_self`, `trim_eq_self` — trimming without white space at the ends.
-/

namespace TreeScript.Text

/-- What follows in a text is the end of a line or of the text. -/
def LineEnds (rest : List Char) : Prop := ∀ c ∈ rest.head?, isLineEnd c = true

@[simp] theorem lineEnds_nil : LineEnds [] := by simp [LineEnds]

@[simp] theorem lineEnds_newline (rest : List Char) : LineEnds ('\n' :: rest) := by
  simp [LineEnds, isLineEnd]

/-- Where a line ends nothing stands that is not a line end. -/
theorem LineEnds.head?_ne {rest : List Char} (h : LineEnds rest) {c : Char}
    (hc : isLineEnd c = false) : rest.head? ≠ some c := by
  intro heq
  simp [h c heq] at hc

-- ---------------------------------------------------------------------------
-- Quotes
-- ---------------------------------------------------------------------------

/-- A quoted text is read up to its closing quote. -/
theorem scanQuoted_quoted (cs rest : List Char) :
    scanQuoted (cs.flatMap escapeChar ++ '"' :: rest) = some (cs, rest) := by
  induction cs with
  | nil =>
    unfold scanQuoted
    simp
  | cons c cs ih =>
    rw [List.flatMap_cons, List.append_assoc]
    by_cases hquote : c = '"'
    · subst hquote
      simp [escapeChar, scanQuoted, unescape?, ih]
    by_cases hslash : c = '\\'
    · subst hslash
      simp [escapeChar, scanQuoted, unescape?, ih]
    by_cases htab : c = '\t'
    · subst htab
      simp [escapeChar, scanQuoted, unescape?, ih]
    by_cases hfeed : c = '\n'
    · subst hfeed
      simp [escapeChar, scanQuoted, unescape?, ih]
    by_cases hreturn : c = '\r'
    · subst hreturn
      simp [escapeChar, scanQuoted, unescape?, ih]
    have hend : isLineEnd c = false := by simp [isLineEnd, hfeed, hreturn]
    -- any other character stands for itself
    have hsingle : escapeChar c = [c] := by
      simp [escapeChar, hquote, hslash, htab, hfeed, hreturn]
    rw [hsingle, List.singleton_append]
    unfold scanQuoted
    simp [hquote, hslash, hend, ih]

/-- A verbatim text is read up to its closing quote. -/
theorem scanVerbatim_verbatim (cs : List Char) {rest : List Char} (hrest : rest.head? ≠ some '"') :
    scanVerbatim (cs.flatMap (fun c => if c = '"' then ['"', '"'] else [c]) ++ '"' :: rest) =
      some (cs, rest) := by
  induction cs with
  | nil =>
    cases rest with
    | nil => rfl
    | cons c rest =>
      have hc : c ≠ '"' := by simpa using hrest
      simp [scanVerbatim, hc]
  | cons c cs ih =>
    rw [List.flatMap_cons, List.append_assoc]
    by_cases hquote : c = '"'
    · subst hquote
      simp [scanVerbatim, ih]
    · rw [if_neg hquote, List.singleton_append]
      unfold scanVerbatim
      simp [hquote, ih]

/-- A text between quotes is longer than the text. -/
theorem length_verbatim (cs : List Char) : cs.length < (verbatim cs).length := by
  have hle : cs.length ≤ (cs.flatMap fun c => if c = '"' then ['"', '"'] else [c]).length := by
    induction cs with
    | nil => simp
    | cons c cs ih =>
      rw [List.flatMap_cons, List.length_append, List.length_cons]
      split <;> simp only [List.length_cons, List.length_nil] <;> omega
  simp only [verbatim, List.length_cons, List.length_append]
  omega

-- ---------------------------------------------------------------------------
-- Cutting and trimming
-- ---------------------------------------------------------------------------

/-- A text is cut where the first character stands that does not belong to its front. -/
theorem splitWhile_append {p : Char → Bool} {cs rest : List Char} (hcs : ∀ c ∈ cs, p c = true)
    (hrest : ∀ c ∈ rest.head?, p c = false) : splitWhile p (cs ++ rest) = (cs, rest) := by
  unfold splitWhile
  rw [List.takeWhile_append_of_pos hcs, List.dropWhile_append_of_pos hcs]
  cases rest with
  | nil => simp
  | cons c rest =>
    have hc : p c = false := hrest c rfl
    simp [hc]

theorem trimStart_eq_self {cs : List Char} (h : cs.head?.any isSpace = false) :
    trimStart cs = cs := by
  cases cs with
  | nil => rfl
  | cons c cs =>
    have hc : isSpace c = false := by simpa using h
    simp [trimStart, hc]

theorem trimEnd_eq_self {cs : List Char} (h : cs.getLast?.any isSpace = false) :
    trimEnd cs = cs := by
  have hstart : trimStart cs.reverse = cs.reverse :=
    trimStart_eq_self (by rwa [List.head?_reverse])
  rw [trimStart] at hstart
  rw [trimEnd, hstart, List.reverse_reverse]

/-- What is left is the front of the text. -/
theorem trimEnd_prefix (cs : List Char) : trimEnd cs <+: cs := by
  rw [trimEnd, ← List.reverse_suffix, List.reverse_reverse]
  exact List.dropWhile_suffix _

theorem getLast?_trimEnd (cs : List Char) : (trimEnd cs).getLast?.any isSpace = false := by
  rw [trimEnd, List.getLast?_reverse]
  have hnot := List.head?_dropWhile_not isSpace cs.reverse
  cases hhead : (cs.reverse.dropWhile isSpace).head? with
  | none => rfl
  | some c =>
    rw [hhead] at hnot
    simpa using hnot

/-- Nothing is cut off exactly where no white space stands at the end. -/
theorem trimEnd_eq_self_iff {cs : List Char} :
    trimEnd cs = cs ↔ cs.getLast?.any isSpace = false :=
  ⟨fun h => h ▸ getLast?_trimEnd cs, trimEnd_eq_self⟩

theorem trimEnd_eq_nil_iff {cs : List Char} :
    trimEnd cs = [] ↔ ∀ c ∈ cs, isSpace c = true := by
  simp [trimEnd, List.dropWhile_eq_nil_iff]

theorem trim_eq_nil_iff {cs : List Char} : trim cs = [] ↔ ∀ c ∈ cs, isSpace c = true := by
  rw [trim, trimEnd_eq_nil_iff, trimStart]
  constructor
  · intro hall
    have hnot := List.head?_dropWhile_not isSpace cs
    cases hback : cs.dropWhile isSpace with
    | nil => exact List.dropWhile_eq_nil_iff.1 hback
    | cons c back => simp [hback, hall c (by simp [hback])] at hnot
  · exact fun hall c hc => hall c ((List.dropWhile_sublist isSpace).subset hc)

/-- A text without any white space is left as it is. -/
theorem trim_eq_self {cs : List Char} (h : ∀ c ∈ cs, isSpace c = false) : trim cs = cs := by
  have hany : ∀ x : Option Char, (∀ c ∈ x, c ∈ cs) → x.any isSpace = false := by
    intro x hx
    cases x with
    | none => rfl
    | some c => simpa using h c (hx c rfl)
  rw [trim, trimStart_eq_self (hany _ fun c hc => List.mem_of_head? hc),
    trimEnd_eq_self (hany _ fun c hc => List.mem_of_getLast? hc)]

/-- A text without white space stays as it is. -/
theorem trimmed_ofList {cs : List Char} (h : ∀ c ∈ cs, isSpace c = false) :
    trimmed (String.ofList cs) = cs := by
  rw [trimmed, String.toList_ofList, trim_eq_self h]

end TreeScript.Text
