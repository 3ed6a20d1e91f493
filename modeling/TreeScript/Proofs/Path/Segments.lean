import Mathlib.Data.List.Forall2
import Mathlib.Tactic.MkIffOfInductiveProp
import TreeScript.Path.Grammar
import TreeScript.Proofs.Outcome
import TreeScript.Proofs.Scalar.Numeral
import TreeScript.Proofs.Text.Peg

/-!
# TreeScript — the segments of a path expression

What a text between slashes is read as depends on the whole of it and on nothing around it: no
kind of step takes a text from another one, so the order in which the grammar tries them does not
matter. A text is an expression if its first question mark, where it has one, is followed by a
word that can be asked for, if there is something behind every slash in front of it, and if 64
bits hold the numbers.

* `Path.Marked`, `Path.Reads` — what a segment is read as;
* `Path.Segmented`, `Path.Cut`, `Path.Asks` — a path in segments, and what is asked for behind it;
* `Path.Grammar.run_iterator_eq_some_iff` — the kind of a step depends on its segment alone;
* `PathExpr.parse_eq_ok_iff` — the texts that are expressions, and what they stand for.
-/

namespace TreeScript

namespace Path

-- ---------------------------------------------------------------------------
-- Segments
-- ---------------------------------------------------------------------------

/-- The segments that are fixed signs. -/
def signs : List (List Char × Step) :=
  [(['.', '.'], .root), (['.'], .parent), (['*', '*'], .descendants), (['*'], .children),
    (['#'], .reference), (['-'], .previous), (['+'], .next)]

/-- Decimal digits, at least one, and nothing else. -/
def IsNumber (cs : List Char) : Prop := cs ≠ [] ∧ Numeral.AllDigits cs

/-- The segments that are more than a name. -/
@[mk_iff]
inductive Marked : List Char → Raw → Prop
  | sign {segment : List Char} {step : Step} (h : (segment, step) ∈ signs) :
      Marked segment (.ready step)
  | range {first last : List Char} (hfirst : IsNumber first) (hlast : IsNumber last) :
      Marked ('[' :: (first ++ ',' :: (last ++ [']']))) (.range first last)
  | index {digits : List Char} (h : IsNumber digits) : Marked digits (.index digits)
  | valueEquals (text : List Char) :
      Marked ('=' :: text) (.ready (.valueEquals (String.ofList text)))

/-- What a segment is read as: anything that is not more than a name is a name. -/
inductive Reads (segment : List Char) : Raw → Prop
  | marked {raw : Raw} (h : Marked segment raw) : Reads segment raw
  | name (h : ∀ raw, ¬ Marked segment raw) : Reads segment (.ready (.named (String.ofList segment)))

/-- The step that is meant, however large its numbers are. -/
def Raw.meant : Raw → Step
  | .ready step => step
  | .index digits => .index (Numeral.value digits)
  | .range first last => .range (Numeral.value first) (Numeral.value last)

/-- Whether 64 bits hold the numbers of a step. -/
def Raw.Fits : Raw → Prop
  | .ready _ => True
  | .index digits => Numeral.value digits < 2 ^ 64
  | .range first last => Numeral.value first < 2 ^ 64 ∧ Numeral.value last < 2 ^ 64

/-- What is more than a name is not empty. -/
theorem Marked.ne_nil {segment : List Char} {raw : Raw} (h : Marked segment raw) :
    segment ≠ [] := by
  cases h with
  | sign h =>
    rintro rfl
    simp [signs] at h
  | range _ _ => exact List.cons_ne_nil _ _
  | index h => exact h.1
  | valueEquals _ => exact List.cons_ne_nil _ _

theorem signs_unique : ∀ sign ∈ signs, ∀ other ∈ signs, sign.1 = other.1 → sign.2 = other.2 := by
  decide

/-- No sign has a digit in it, or another character that something else begins or ends with. -/
theorem of_mem_signs {segment : List Char} {step : Step} (h : (segment, step) ∈ signs) {c : Char}
    (hc : c ∈ segment) : Numeral.digit? c = none ∧ c ≠ '[' ∧ c ≠ '=' ∧ c ≠ '/' ∧ c ≠ '?' := by
  have hall : ∀ sign ∈ signs, (sign.1.all fun c =>
      (Numeral.digit? c).isNone && c != '[' && c != '=' && c != '/' && c != '?') = true := by
    decide
  simpa [and_assoc] using List.all_eq_true.1 (hall _ h) c hc

/-- No sign begins like a number, a range or a value. -/
theorem head_of_mem_signs {segment : List Char} {step : Step} (h : (segment, step) ∈ signs) :
    ∃ c rest, segment = c :: rest ∧ Numeral.digit? c = none ∧ c ≠ '[' ∧ c ≠ '=' := by
  obtain ⟨c, rest, rfl⟩ := List.exists_cons_of_ne_nil (Marked.sign h).ne_nil
  obtain ⟨hdigit, hrange, hvalue, -⟩ := of_mem_signs h List.mem_cons_self
  exact ⟨c, rest, rfl, hdigit, hrange, hvalue⟩

theorem IsNumber.head {digits : List Char} (h : IsNumber digits) :
    ∃ c rest, digits = c :: rest ∧ (Numeral.digit? c).isSome = true := by
  obtain ⟨c, rest, rfl⟩ := List.exists_cons_of_ne_nil h.1
  exact ⟨c, rest, rfl, h.2 c List.mem_cons_self⟩

/-- A number ends in front of what is no digit. -/
theorem IsNumber.unique {a b x y : List Char} {c : Char} (ha : IsNumber a) (hb : IsNumber b)
    (hc : Numeral.digit? c = none) (h : a ++ c :: x = b ++ c :: y) : a = b ∧ x = y := by
  have hcut : ∀ {front back : List Char}, IsNumber front →
      ((front ++ c :: back).takeWhile (fun d => (Numeral.digit? d).isSome),
        (front ++ c :: back).dropWhile (fun d => (Numeral.digit? d).isSome)) = (front, c :: back) :=
    fun hfront => Peg.takeWhile_eq_iff.2 ⟨rfl, hfront.2, by simpa using hc⟩
  have hsame := (hcut ha).symm.trans (h ▸ hcut hb)
  simpa using hsame

/-- No segment is more than a name in two ways. -/
theorem Marked.unique {segment : List Char} {raw raw' : Raw} (h : Marked segment raw)
    (h' : Marked segment raw') : raw = raw' := by
  have hopen : Numeral.digit? '[' = none := rfl
  have hequals : Numeral.digit? '=' = none := rfl
  rw [marked_iff] at h h'
  -- the kinds differ in their first character, those of one kind in what they name
  rcases h with ⟨step, hsign, rfl⟩ | ⟨first, last, hfirst, hlast, rfl, rfl⟩ | ⟨hnumber, rfl⟩ |
    ⟨text, rfl, rfl⟩
  · obtain ⟨c, rest, rfl, hc, hrange, hvalue⟩ := head_of_mem_signs hsign
    rcases h' with ⟨step', hsign', rfl⟩ | ⟨_, _, -, -, heq, -⟩ | ⟨hnumber', -⟩ | ⟨_, heq, -⟩
    · exact congrArg Raw.ready (signs_unique _ hsign _ hsign' rfl)
    · exact absurd (List.cons.inj heq).1 hrange
    · exact absurd (hnumber'.2 c List.mem_cons_self) (by simp [hc])
    · exact absurd (List.cons.inj heq).1 hvalue
  · rcases h' with ⟨step', hsign', rfl⟩ | ⟨first', last', hfirst', -, heq, rfl⟩ | ⟨hnumber', -⟩ |
      ⟨_, heq, -⟩
    · obtain ⟨_, _, heq, -, hrange, -⟩ := head_of_mem_signs hsign'
      exact absurd (List.cons.inj heq).1.symm hrange
    · obtain ⟨rfl, hlast⟩ := hfirst.unique hfirst' rfl (List.cons.inj heq).2
      rw [List.append_cancel_right hlast]
    · simpa [hopen] using hnumber'.2 '[' List.mem_cons_self
    · exact absurd (List.cons.inj heq).1 (by decide)
  · obtain ⟨c, rest, rfl, hc⟩ := hnumber.head
    rcases h' with ⟨step', hsign', rfl⟩ | ⟨_, _, -, -, heq, -⟩ | ⟨hnumber', rfl⟩ | ⟨_, heq, -⟩
    · obtain ⟨_, _, heq, hdigit, -⟩ := head_of_mem_signs hsign'
      simp [(List.cons.inj heq).1, hdigit] at hc
    · simp [(List.cons.inj heq).1, hopen] at hc
    · rfl
    · simp [(List.cons.inj heq).1, hequals] at hc
  · rcases h' with ⟨step', hsign', rfl⟩ | ⟨_, _, -, -, heq, -⟩ | ⟨hnumber', -⟩ | ⟨_, heq, rfl⟩
    · obtain ⟨_, _, heq, -, -, hvalue⟩ := head_of_mem_signs hsign'
      exact absurd (List.cons.inj heq).1.symm hvalue
    · exact absurd (List.cons.inj heq).1 (by decide)
    · simpa [hequals] using hnumber'.2 '=' List.mem_cons_self
    · rw [(List.cons.inj heq).2]

/-- Every segment is read as one thing. -/
theorem exists_reads (segment : List Char) : ∃ raw, Reads segment raw := by
  by_cases h : ∃ raw, Marked segment raw
  · exact h.imp fun _ => .marked
  · exact ⟨_, .name (not_exists.1 h)⟩

-- ---------------------------------------------------------------------------
-- What is cut off a text
-- ---------------------------------------------------------------------------

/-- A text up to the next slash or question mark, and what follows. -/
structure UpTo (cs segment rest : List Char) : Prop where
  text : cs = segment ++ rest
  plain : ∀ c ∈ segment, c ≠ '/' ∧ c ≠ '?'
  boundary : ∀ c ∈ rest.head?, c = '/' ∨ c = '?'

/-- To cut at the next slash or question mark is to take as many other characters as there are. -/
theorem upTo_iff {cs segment rest : List Char} : UpTo cs segment rest ↔
    (cs.takeWhile (fun c => c != '/' && c != '?'), cs.dropWhile (fun c => c != '/' && c != '?')) =
      (segment, rest) := by
  rw [Peg.takeWhile_eq_iff]
  constructor
  · rintro ⟨htext, hplain, hboundary⟩
    refine ⟨htext, fun c hc => by simpa using hplain c hc, fun c hc => ?_⟩
    rcases hboundary c hc with rfl | rfl <;> decide
  · rintro ⟨htext, hplain, hboundary⟩
    refine ⟨htext, fun c hc => by simpa using hplain c hc, fun c hc => ?_⟩
    have := hboundary c hc
    by_cases hslash : c = '/'
    · exact .inl hslash
    · exact .inr (by simpa [hslash] using this)

theorem UpTo.unique {cs segment segment' rest rest' : List Char} (h : UpTo cs segment rest)
    (h' : UpTo cs segment' rest') : segment = segment' ∧ rest = rest' :=
  Prod.mk.inj ((upTo_iff.1 h).symm.trans (upTo_iff.1 h'))

theorem exists_upTo (cs : List Char) : ∃ segment rest, UpTo cs segment rest :=
  ⟨_, _, upTo_iff.2 rfl⟩

namespace Grammar

open Peg

variable {cs rest : List Char} {raw : Raw}

/-- A segment ends at a slash, a question mark or the end of the text. -/
theorem isSome_run_boundary :
    (boundary.run cs).isSome = true ↔ ∀ c ∈ cs.head?, c = '/' ∨ c = '?' := by
  rw [← Option.ne_none_iff_isSome, ne_eq, boundary, run_orElse_eq_none_iff, run_orElse_eq_none_iff,
    run_lit_eq_none_iff, run_lit_eq_none_iff]
  cases cs with
  | nil =>
    have hends : ends.run [] = some ((), []) := rfl
    simp [hends]
  | cons c cs =>
    have hends : ends.run (c :: cs) = none := rfl
    simp [hends, @eq_comm _ c, or_iff_not_imp_left]

/-- The rule for segments takes everything up to the next slash or question mark, if that is
something. -/
theorem run_segment_eq_some_iff {segment : List Char} :
    Grammar.segment.run cs = some (segment, rest) ↔ segment ≠ [] ∧ UpTo cs segment rest := by
  have hchar : (do notAhead (lit "/" <|> lit "?"); any) =
      satisfy fun c => c != '/' && c != '?' := by
    refine notAhead_any_eq_satisfy fun c rest => ?_
    rw [run_orElse_eq_none_iff, run_lit_eq_none_iff, run_lit_eq_none_iff]
    simp [@eq_comm _ c]
  rw [Grammar.segment, hchar, run_many1_satisfy_eq_some_iff, ← takeWhile_eq_iff, ← upTo_iff]

/-- The rule for segments fails where nothing stands in front of the next slash or question mark. -/
theorem run_segment_eq_none_iff : Grammar.segment.run cs = none ↔ UpTo cs [] cs := by
  obtain ⟨segment, rest, h⟩ := exists_upTo cs
  constructor
  · intro hnone
    have hempty : segment = [] := by
      by_contra hne
      simp [run_segment_eq_some_iff.2 ⟨hne, h⟩] at hnone
    subst hempty
    exact h.text ▸ h
  · intro hempty
    refine Option.eq_none_iff_forall_not_mem.2 fun found hfound => ?_
    obtain ⟨hne, hfound⟩ := run_segment_eq_some_iff.1 hfound
    exact hne (hfound.unique hempty).1

/-- The rule for numbers takes all digits that there are. -/
theorem run_number_eq_some_iff {digits : List Char} :
    number.run cs = some (digits, rest) ↔
      IsNumber digits ∧ cs = digits ++ rest ∧ ∀ c ∈ rest.head?, Numeral.digit? c = none := by
  rw [number, run_many1_satisfy_eq_some_iff]
  simp only [IsNumber, Numeral.AllDigits, Option.isSome_eq_false_iff, Option.isNone_iff_eq_none]
  tauto

/-- A sign takes the segment that it is. -/
theorem run_sign_eq_some_iff {segment : List Char} {step : Step} (h : (segment, step) ∈ signs) :
    (sign (String.ofList segment) step).run cs = some (raw, rest) ↔
      UpTo cs segment rest ∧ raw = .ready step := by
  have hplain : ∀ c ∈ segment, c ≠ '/' ∧ c ≠ '?' := fun c hc => (of_mem_signs h hc).2.2.2
  simp only [sign, run_bind_eq_some_iff, run_lit_eq_some_iff, run_ahead_eq_some_iff,
    run_pure_eq_some_iff, isSome_run_boundary, String.toList_ofList]
  constructor
  · rintro ⟨-, mid, rfl, -, mid', ⟨rfl, hboundary⟩, rfl, rfl⟩
    exact ⟨⟨rfl, hplain, hboundary⟩, rfl⟩
  · rintro ⟨⟨rfl, -, hboundary⟩, rfl⟩
    exact ⟨(), rest, rfl, (), rest, ⟨rfl, hboundary⟩, rfl, rfl⟩

/-- A number has neither slashes nor question marks. -/
theorem IsNumber.plain {digits : List Char} (h : IsNumber digits) :
    ∀ c ∈ digits, c ≠ '/' ∧ c ≠ '?' :=
  fun c hc => ⟨Numeral.ne_of_digit (h.2 c hc) rfl, Numeral.ne_of_digit (h.2 c hc) rfl⟩

/-- The rule for indices takes a segment that is a number. -/
theorem run_index_eq_some_iff :
    index.run cs = some (raw, rest) ↔
      ∃ digits, UpTo cs digits rest ∧ IsNumber digits ∧ raw = .index digits := by
  simp only [index, run_bind_eq_some_iff, run_number_eq_some_iff, run_ahead_eq_some_iff,
    run_pure_eq_some_iff, isSome_run_boundary]
  constructor
  · rintro ⟨digits, mid, ⟨hdigits, rfl, -⟩, -, mid', ⟨rfl, hboundary⟩, rfl, rfl⟩
    exact ⟨digits, ⟨rfl, IsNumber.plain hdigits, hboundary⟩, hdigits, rfl⟩
  · rintro ⟨digits, ⟨rfl, -, hboundary⟩, hdigits, rfl⟩
    refine ⟨digits, rest, ⟨hdigits, rfl, fun c hc => ?_⟩, (), rest, ⟨rfl, hboundary⟩, rfl, rfl⟩
    rcases hboundary c hc with rfl | rfl <;> rfl

/-- The rule for ranges takes a segment of two numbers in brackets. -/
theorem run_range_eq_some_iff :
    range.run cs = some (raw, rest) ↔
      ∃ segment, UpTo cs segment rest ∧ ∃ first last, IsNumber first ∧ IsNumber last ∧
        segment = '[' :: (first ++ ',' :: (last ++ [']'])) ∧ raw = .range first last := by
  simp only [range, run_bind_eq_some_iff, run_lit_eq_some_iff, run_number_eq_some_iff,
    run_ahead_eq_some_iff, run_pure_eq_some_iff, isSome_run_boundary]
  constructor
  · rintro ⟨-, _, rfl, first, _, ⟨hfirst, rfl, -⟩, -, _, rfl, last, _, ⟨hlast, rfl, -⟩, -, mid, rfl,
      -, mid', ⟨rfl, hboundary⟩, rfl, rfl⟩
    -- a range has no sign in it that would end the segment
    refine ⟨_, ⟨by simp, ?_, hboundary⟩, first, last, hfirst, hlast, rfl, rfl⟩
    have hfirst := IsNumber.plain hfirst
    have hlast := IsNumber.plain hlast
    simp only [List.mem_cons, List.mem_append]
    rintro c (rfl | hc | rfl | hc | rfl | hc)
    · decide
    · exact hfirst c hc
    · decide
    · exact hlast c hc
    · decide
    · simp at hc
  · rintro ⟨_, ⟨rfl, -, hboundary⟩, first, last, hfirst, hlast, rfl, rfl⟩
    exact ⟨(), first ++ ',' :: (last ++ ']' :: rest), by simp, first, ',' :: (last ++ ']' :: rest),
      ⟨hfirst, rfl, by simp; rfl⟩, (), last ++ ']' :: rest, rfl, last, ']' :: rest,
      ⟨hlast, rfl, by simp; rfl⟩, (), rest, rfl, (), rest, ⟨rfl, hboundary⟩, rfl, rfl⟩

/-- The rule for values takes a segment behind an equals sign, however empty the text behind it. -/
theorem run_valueEquals_eq_some_iff :
    valueEquals.run cs = some (raw, rest) ↔
      ∃ segment, UpTo cs segment rest ∧
        ∃ text, segment = '=' :: text ∧ raw = .ready (.valueEquals (String.ofList text)) := by
  simp only [valueEquals, run_bind_eq_some_iff, run_lit_eq_some_iff, run_optional_eq_some_iff,
    run_segment_eq_some_iff, run_pure_eq_some_iff]
  constructor
  · rintro ⟨-, mid, rfl, o, mid', (⟨text, rfl, -, htext⟩ | ⟨rfl, rfl, hnone⟩), rfl, rfl⟩
    · refine ⟨_, ⟨by rw [htext.text]; rfl, ?_, htext.boundary⟩, text, rfl, rfl⟩
      exact List.forall_mem_cons.2 ⟨by decide, htext.plain⟩
    · exact ⟨['='], ⟨rfl, by simp, (run_segment_eq_none_iff.1 hnone).boundary⟩, [], rfl, rfl⟩
  · rintro ⟨_, ⟨rfl, hplain, hboundary⟩, text, rfl, rfl⟩
    have htext : UpTo (text ++ rest) text rest :=
      ⟨rfl, (List.forall_mem_cons.1 hplain).2, hboundary⟩
    refine ⟨(), text ++ rest, rfl, ?_⟩
    by_cases hempty : text = []
    · subst hempty
      exact ⟨none, rest, .inr ⟨rfl, rfl, run_segment_eq_none_iff.2 htext⟩, rfl, rfl⟩
    · exact ⟨some text, rest, .inl ⟨text, rfl, hempty, htext⟩, rfl, rfl⟩

theorem run_named_eq_some_iff :
    named.run cs = some (raw, rest) ↔
      ∃ name, name ≠ [] ∧ UpTo cs name rest ∧ raw = .ready (.named (String.ofList name)) := by
  simp only [named, run_bind_eq_some_iff, run_segment_eq_some_iff, run_pure_eq_some_iff]
  constructor
  · rintro ⟨name, mid, ⟨hne, hname⟩, rfl, rfl⟩
    exact ⟨name, hne, hname, rfl⟩
  · rintro ⟨name, hne, hname, rfl⟩
    exact ⟨name, rest, ⟨hne, hname⟩, rfl, rfl⟩

/-- The kinds of step that come before a name. -/
def marks : List (Peg Raw) :=
  signs.map (fun (text, step) => sign (String.ofList text) step) ++ [range, index, valueEquals]

/-- The kinds of step are tried one after another, names last. -/
theorem iterator_eq : iterator = marks.foldr (fun p q => p <|> q) named := rfl

/-- One of the kinds takes a text just if its segment is more than a name. -/
theorem exists_marks_iff :
    (∃ p ∈ marks, p.run cs = some (raw, rest)) ↔
      ∃ segment, UpTo cs segment rest ∧ Marked segment raw := by
  have hsigns : (∃ p ∈ signs.map fun (text, step) => sign (String.ofList text) step,
      p.run cs = some (raw, rest)) ↔
      ∃ segment, UpTo cs segment rest ∧ ∃ step, (segment, step) ∈ signs ∧ raw = .ready step := by
    simp only [List.mem_map, exists_exists_and_eq_and]
    constructor
    · rintro ⟨⟨segment, step⟩, hsign, hrun⟩
      obtain ⟨hsegment, hraw⟩ := (run_sign_eq_some_iff hsign).1 hrun
      exact ⟨segment, hsegment, step, hsign, hraw⟩
    · rintro ⟨segment, hsegment, step, hsign, hraw⟩
      exact ⟨(segment, step), hsign, (run_sign_eq_some_iff hsign).2 ⟨hsegment, hraw⟩⟩
  simp only [marks, List.mem_append, or_and_right, exists_or, hsigns, marked_iff, and_or_left,
    List.mem_cons, List.not_mem_nil, or_false, exists_eq_left, run_range_eq_some_iff,
    run_index_eq_some_iff, run_valueEquals_eq_some_iff]

/-- What stands behind a slash is taken up to the next slash or question mark, and read as what it
is read as alone. -/
theorem run_iterator_eq_some_iff :
    iterator.run cs = some (raw, rest) ↔
      ∃ segment, segment ≠ [] ∧ UpTo cs segment rest ∧ Reads segment raw := by
  -- two marks that match have read the same segment, so their order does not matter
  have hagree : ∀ p ∈ marks, ∀ q ∈ marks, ∀ x y, p.run cs = some x → q.run cs = some y → x = y := by
    rintro p hp q hq ⟨raw, rest⟩ ⟨raw', rest'⟩ hx hy
    obtain ⟨segment, hsegment, hmarked⟩ := exists_marks_iff.1 ⟨p, hp, hx⟩
    obtain ⟨segment', hsegment', hmarked'⟩ := exists_marks_iff.1 ⟨q, hq, hy⟩
    obtain ⟨rfl, rfl⟩ := hsegment.unique hsegment'
    rw [hmarked.unique hmarked']
  rw [iterator_eq, run_choice_eq_some_iff hagree, exists_marks_iff, run_named_eq_some_iff]
  constructor
  -- a name is what no mark has matched
  · rintro (⟨segment, hsegment, hmarked⟩ | ⟨hnone, name, hne, hname, rfl⟩)
    · exact ⟨segment, hmarked.ne_nil, hsegment, .marked hmarked⟩
    · refine ⟨name, hne, hname, .name fun raw hmarked => ?_⟩
      obtain ⟨p, hp, hrun⟩ := exists_marks_iff.2 ⟨name, hname, hmarked⟩
      simp [hnone p hp] at hrun
  · rintro ⟨segment, hne, hsegment, hmarked | hname⟩
    · exact .inl ⟨segment, hsegment, hmarked⟩
    · refine .inr ⟨fun p hp => Option.eq_none_iff_forall_not_mem.2 fun found hrun => ?_,
        segment, hne, hsegment, rfl⟩
      obtain ⟨segment', hsegment', hmarked⟩ := exists_marks_iff.1 ⟨p, hp, hrun⟩
      exact hname _ ((hsegment'.unique hsegment).1 ▸ hmarked)

theorem run_step_eq_some_iff :
    step.run cs = some (raw, rest) ↔
      ∃ segment tail, cs = '/' :: tail ∧ segment ≠ [] ∧ UpTo tail segment rest ∧
        Reads segment raw := by
  simp only [step, run_bind_eq_some_iff, run_lit_eq_some_iff, run_iterator_eq_some_iff]
  constructor
  · rintro ⟨-, tail, rfl, segment, hne, hsegment, hreads⟩
    exact ⟨segment, tail, rfl, hne, hsegment, hreads⟩
  · rintro ⟨segment, tail, rfl, hne, hsegment, hreads⟩
    exact ⟨(), tail, rfl, segment, hne, hsegment, hreads⟩

end Grammar

-- ---------------------------------------------------------------------------
-- Numbers
-- ---------------------------------------------------------------------------

theorem readIndex_eq_ok_iff {digits : List Char} (h : IsNumber digits) {n : Nat} :
    readIndex digits = .ok n ↔ Numeral.value digits < 2 ^ 64 ∧ Numeral.value digits = n := by
  have hread := Numeral.readUp_eq_ok_iff (n := n) h.2 (Nat.zero_le (Numeral.span 64 - 1))
  have hspan : Numeral.span 64 = 2 ^ 64 := rfl
  rw [Nat.zero_mul, Nat.zero_add] at hread
  rw [show readIndex digits = .ok n ↔ Numeral.readUp (Numeral.span 64 - 1) 0 digits = .ok n from ?_,
    hread, hspan]
  · omega
  · unfold readIndex
    split <;> simp_all

/-- A step is what is meant, if 64 bits hold its numbers. -/
theorem Reads.step_eq_ok_iff {segment : List Char} {raw : Raw} (h : Reads segment raw)
    {step : Step} :
    raw.step = .ok step ↔ raw.Fits ∧ raw.meant = step := by
  cases h with
  | marked h =>
    cases h with
    | sign _ => simp [Raw.step, Raw.Fits, Raw.meant]
    -- only numbers may be too large to fit
    | range hfirst hlast =>
      simp only [Raw.step, bind_eq_ok_iff, readIndex_eq_ok_iff hfirst, readIndex_eq_ok_iff hlast,
        Raw.Fits, Raw.meant, Except.ok.injEq]
      constructor
      · rintro ⟨_, ⟨hf, rfl⟩, _, ⟨hl, rfl⟩, rfl⟩
        exact ⟨⟨hf, hl⟩, rfl⟩
      · rintro ⟨⟨hf, hl⟩, rfl⟩
        exact ⟨_, ⟨hf, rfl⟩, _, ⟨hl, rfl⟩, rfl⟩
    | index h =>
      simp only [Raw.step, bind_eq_ok_iff, readIndex_eq_ok_iff h, Raw.Fits, Raw.meant,
        Except.ok.injEq]
      constructor
      · rintro ⟨_, ⟨hf, rfl⟩, rfl⟩
        exact ⟨hf, rfl⟩
      · rintro ⟨hf, rfl⟩
        exact ⟨_, ⟨hf, rfl⟩, rfl⟩
    | valueEquals _ => simp [Raw.step, Raw.Fits, Raw.meant]
  | name _ => simp [Raw.step, Raw.Fits, Raw.meant]

theorem Reads.unique {segment : List Char} {raw raw' : Raw} (h : Reads segment raw)
    (h' : Reads segment raw') : raw = raw' := by
  cases h with
  | marked h =>
    cases h' with
    | marked h' => exact h.unique h'
    | name h' => exact absurd h (h' _)
  | name h =>
    cases h' with
    | marked h' => exact absurd h' (h _)
    | name _ => rfl

/-- A segment stands for a step if it is read as it and 64 bits hold the numbers. -/
def Spells (segment : List Char) (step : Step) : Prop :=
  ∃ raw, Reads segment raw ∧ raw.Fits ∧ raw.meant = step

/-- A segment stands for a step just if its numbers fit. -/
theorem exists_spells_iff {segment : List Char} :
    (∃ step, Spells segment step) ↔ ∀ raw, Reads segment raw → raw.Fits := by
  obtain ⟨raw, hraw⟩ := exists_reads segment
  constructor
  · rintro ⟨_, raw, hreads, hfits, rfl⟩ raw' hreads'
    exact hreads.unique hreads' ▸ hfits
  · exact fun hfits => ⟨raw.meant, raw, hraw, hfits raw hraw, rfl⟩

/-- Segments stand for steps if they are read one by one and all their numbers fit. -/
theorem forall₂_spells_iff {segments : List (List Char)} {steps : List Step} :
    List.Forall₂ Spells segments steps ↔
      ∃ raws, List.Forall₂ Reads segments raws ∧ raws.mapM Raw.step = .ok steps := by
  simp only [mapM_eq_ok_iff]
  constructor
  · intro h
    induction h with
    | nil => exact ⟨[], .nil, .nil⟩
    | cons hfirst _ ih =>
      obtain ⟨raw, hreads, hfits⟩ := hfirst
      obtain ⟨raws, hraws, hsteps⟩ := ih
      exact ⟨raw :: raws, .cons hreads hraws, .cons (hreads.step_eq_ok_iff.2 hfits) hsteps⟩
  · rintro ⟨raws, hraws, hsteps⟩
    induction hraws generalizing steps with
    | nil =>
      cases hsteps
      exact .nil
    | @cons segment raw segments raws hreads _ ih =>
      cases hsteps with
      | cons hstep hsteps => exact .cons ⟨raw, hreads, hreads.step_eq_ok_iff.1 hstep⟩ (ih hsteps)

-- ---------------------------------------------------------------------------
-- Paths
-- ---------------------------------------------------------------------------

/-- Segments that may stand between slashes. -/
def Plain (segments : List (List Char)) : Prop :=
  ∀ segment ∈ segments, segment ≠ [] ∧ ∀ c ∈ segment, c ≠ '/' ∧ c ≠ '?'

/-- A slash in front of each segment. -/
def joined (segments : List (List Char)) : List Char :=
  segments.flatMap fun segment => '/' :: segment

/-- A text cut at its first question mark: the path, and the word behind the mark if there is
one. -/
structure Cut (cs path : List Char) (word : Option (List Char)) : Prop where
  text : cs = path ++ word.elim [] fun word => '?' :: word
  first : '?' ∉ path

/-- A path in segments: it is empty or begins with a slash, and there is something behind every
slash. -/
structure Segmented (path : List Char) (segments : List (List Char)) : Prop where
  text : path = joined segments
  ne_nil : ∀ segment ∈ segments, segment ≠ []
  no_slash : ∀ segment ∈ segments, '/' ∉ segment

/-- What a word asks for; without one the nodes are asked for. -/
inductive Asks : Option (List Char) → Yield → Prop
  | nodes : Asks none .node
  | word (asked : Yield) : Asks (some asked.word.toList) asked

/-- A path without question marks is in segments just if it is what is put between slashes. -/
theorem segmented_iff {path : List Char} {segments : List (List Char)} :
    Segmented path segments ∧ '?' ∉ path ↔ path = joined segments ∧ Plain segments := by
  have hmark : '?' ∉ joined segments ↔ ∀ segment ∈ segments, '?' ∉ segment := by
    simp [joined]
  constructor
  · rintro ⟨⟨rfl, hne, hslash⟩, hpath⟩
    refine ⟨rfl, fun segment hsegment => ⟨hne segment hsegment, fun c hc => ⟨?_, ?_⟩⟩⟩
    · exact fun heq => hslash segment hsegment (heq ▸ hc)
    · exact fun heq => hmark.1 hpath segment hsegment (heq ▸ hc)
  · rintro ⟨rfl, hplain⟩
    exact ⟨⟨rfl, fun segment hsegment => (hplain segment hsegment).1,
      fun segment hsegment hc => ((hplain segment hsegment).2 _ hc).1 rfl⟩,
      hmark.2 fun segment hsegment hc => ((hplain segment hsegment).2 _ hc).2 rfl⟩

namespace Grammar

open Peg

variable {cs rest : List Char}

/-- As many steps as there are: some segments with what they are read as. -/
theorem reads_of_repeated {raws : List Raw} (h : repeated step cs = (raws, rest)) :
    ∃ segments, Plain segments ∧ cs = joined segments ++ rest ∧
      List.Forall₂ Reads segments raws := by
  induction cs using repeated.induct step generalizing raws rest with
  | case1 cs hnone =>
    rw [repeated_of_none hnone] at h
    cases h
    exact ⟨[], by simp [Plain], rfl, .nil⟩
  | case2 cs raw mid hrun hlt _ _ _ ih =>
    rw [repeated_of_some hrun hlt] at h
    cases h
    obtain ⟨segments, hplain, hmid, hreads⟩ := ih rfl
    obtain ⟨segment, _, rfl, hne, ⟨rfl, hsegment, -⟩, hraw⟩ := run_step_eq_some_iff.1 hrun
    refine ⟨segment :: segments, List.forall_mem_cons.2 ⟨⟨hne, hsegment⟩, hplain⟩, ?_,
      .cons hraw hreads⟩
    conv_lhs => rw [hmid]
    simp [joined]
  | case3 cs raw mid hrun hlt =>
    obtain ⟨segment, _, rfl, -, hsegment, -⟩ := run_step_eq_some_iff.1 hrun
    simp [hsegment.text] at hlt

/-- All segments are taken in front of the question mark or the end. -/
theorem repeated_of_reads {segments : List (List Char)} {raws : List Raw} (hplain : Plain segments)
    (hreads : List.Forall₂ Reads segments raws) (hrest : ∀ c ∈ rest.head?, c = '?') :
    repeated step (joined segments ++ rest) = (raws, rest) := by
  induction hreads with
  | nil =>
    refine repeated_of_none (Option.eq_none_iff_forall_not_mem.2 fun found hrun => ?_)
    obtain ⟨_, _, hcs, -⟩ := run_step_eq_some_iff.1 hrun
    exact absurd (hrest '/' (by rw [show rest = _ from hcs]; rfl)) (by decide)
  | @cons segment raw segments raws hraw _ ih =>
    obtain ⟨⟨hne, hsegment⟩, hplain⟩ := List.forall_mem_cons.1 hplain
    have hnext : ∀ c ∈ (joined segments ++ rest).head?, c = '/' ∨ c = '?' := by
      cases segments with
      | nil => exact fun c hc => .inr (hrest c hc)
      | cons _ _ => simp [joined]
    have hrun : step.run (joined (segment :: segments) ++ rest) =
        some (raw, joined segments ++ rest) :=
      run_step_eq_some_iff.2 ⟨segment, segment ++ (joined segments ++ rest), by simp [joined], hne,
        ⟨rfl, hsegment, hnext⟩, hraw⟩
    rw [repeated_of_some hrun (by simp [joined]), ih hplain]

/-- The rule for one word takes that word. -/
theorem run_yieldWord_eq_some_iff {y asked : Yield} :
    (yieldWord y).run cs = some (asked, rest) ↔ asked = y ∧ cs = y.word.toList ++ rest := by
  simp only [yieldWord, run_bind_eq_some_iff, run_lit_eq_some_iff, run_pure_eq_some_iff]
  constructor
  · rintro ⟨-, mid, rfl, rfl, rfl⟩
    exact ⟨rfl, rfl⟩
  · rintro ⟨rfl, rfl⟩
    exact ⟨(), rest, rfl, rfl, rfl⟩

/-- What is asked for is a word behind a question mark. No word begins another, so it does not
matter which is tried first. -/
theorem run_yield_eq_some_iff {asked : Yield} :
    «yield».run cs = some (asked, rest) ↔ cs = '?' :: (asked.word.toList ++ rest) := by
  simp only [«yield», run_bind_eq_some_iff, run_lit_eq_some_iff, run_orElse_eq_some_iff,
    run_yieldWord_eq_some_iff]
  constructor
  · rintro ⟨-, mid, rfl, ⟨rfl, rfl⟩ | ⟨-, ⟨rfl, rfl⟩ | ⟨-, ⟨rfl, rfl⟩ | ⟨-, rfl, rfl⟩⟩⟩⟩ <;> rfl
  · rintro rfl
    refine ⟨(), asked.word.toList ++ rest, rfl, ?_⟩
    cases asked with
    | value => exact .inl ⟨rfl, rfl⟩
    | name => exact .inr ⟨rfl, .inl ⟨rfl, rfl⟩⟩
    | count => exact .inr ⟨rfl, .inr ⟨rfl, .inl ⟨rfl, rfl⟩⟩⟩
    | node => exact .inr ⟨rfl, .inr ⟨rfl, .inr ⟨rfl, rfl, rfl⟩⟩⟩

/-- A whole expression: a path in segments with what they are read as, and what is asked for. -/
theorem run_expression_eq_some_iff {raws : List Raw} {asked : Yield} :
    expression.run cs = some ((raws, asked), rest) ↔
      rest = [] ∧ ∃ path word segments, Cut cs path word ∧ Segmented path segments ∧
        List.Forall₂ Reads segments raws ∧ Asks word asked := by
  simp only [expression, run_bind_eq_some_iff, run_many_eq_some_iff, run_optional_eq_some_iff,
    run_yield_eq_some_iff, run_ends_eq_some_iff, run_pure_eq_some_iff]
  constructor
  -- the segments come up to the word that asks, or to the end
  · rintro ⟨raws, mid, hmany, o, _, hasked, -, _, ⟨rfl, rfl⟩, heq, rfl⟩
    cases heq
    obtain ⟨segments, hplain, rfl, hreads⟩ := reads_of_repeated hmany
    obtain ⟨hsegmented, hfirst⟩ := segmented_iff.2 ⟨rfl, hplain⟩
    rcases hasked with ⟨asked, rfl, rfl⟩ | ⟨rfl, rfl, -⟩
    · exact ⟨rfl, _, _, segments, ⟨by simp, hfirst⟩, hsegmented, hreads, .word asked⟩
    · exact ⟨rfl, _, _, segments, ⟨rfl, hfirst⟩, hsegmented, hreads, .nodes⟩
  -- a path cut like that is read to its end, as no segment holds the word
  · rintro ⟨rfl, path, word, segments, ⟨rfl, hfirst⟩, hsegmented, hreads, hasked⟩
    obtain ⟨rfl, hplain⟩ := segmented_iff.1 ⟨hsegmented, hfirst⟩
    refine ⟨raws, _, repeated_of_reads hplain hreads ?_, ?_⟩
    · cases hasked <;> simp
    · cases hasked with
      | nodes =>
        refine ⟨none, [], .inr ⟨rfl, rfl, Option.eq_none_iff_forall_not_mem.2 fun found hrun => ?_⟩,
          (), [], ⟨rfl, rfl⟩, rfl, rfl⟩
        exact absurd (run_yield_eq_some_iff.1 hrun) (List.cons_ne_nil _ _).symm
      | word asked =>
        exact ⟨some asked, [], .inl ⟨asked, rfl, by simp⟩, (), [], ⟨rfl, rfl⟩, rfl, rfl⟩

end Grammar

end Path

namespace PathExpr

open TreeScript.Path

/-- A text is an expression if the grammar takes the whole of it and the numbers fit. -/
theorem parse_eq_ok_iff_run {text : String} {e : PathExpr} :
    parse text = .ok e ↔ ∃ raws rest,
      Grammar.expression.run text.toList = some ((raws, e.yield), rest) ∧
      raws.mapM Raw.step = .ok e.steps := by
  unfold parse
  cases hrun : Grammar.expression.run text.toList with
  | none => simp
  | some found =>
    obtain ⟨⟨raws, asked⟩, rest⟩ := found
    simp only [bind_eq_ok_iff, Except.ok.injEq, Option.some.injEq, Prod.mk.injEq]
    constructor
    · rintro ⟨steps, hsteps, rfl⟩
      exact ⟨raws, rest, ⟨⟨rfl, rfl⟩, rfl⟩, hsteps⟩
    · rintro ⟨_, _, ⟨⟨rfl, rfl⟩, rfl⟩, hsteps⟩
      exact ⟨e.steps, hsteps, rfl⟩

/-- A text is an expression if its first question mark is followed by a word that can be asked
for, if the path in front of it is a path in segments, and if 64 bits hold the numbers of all
segments. It has one step for each of them, which depends on this segment alone. -/
theorem parse_eq_ok_iff (text : String) :
    (∀ e, parse text = .ok e ↔ ∃ path word segments, Cut text.toList path word ∧
      Segmented path segments ∧ List.Forall₂ Spells segments e.steps ∧ Asks word e.yield) ∧
    ((∃ e, parse text = .ok e) ↔ ∃ path word segments, Cut text.toList path word ∧
      Segmented path segments ∧ (∀ segment ∈ segments, ∀ raw, Reads segment raw → raw.Fits) ∧
      ∃ asked, Asks word asked) := by
  -- the grammar cuts the text, and each raw segment has to make a step
  have hparse : ∀ e, parse text = .ok e ↔ ∃ path word segments, Cut text.toList path word ∧
      Segmented path segments ∧ List.Forall₂ Spells segments e.steps ∧ Asks word e.yield := by
    intro e
    simp only [parse_eq_ok_iff_run, Grammar.run_expression_eq_some_iff, forall₂_spells_iff]
    constructor
    · rintro ⟨raws, _, ⟨rfl, path, word, segments, hcut, hsegmented, hreads, hasked⟩, hsteps⟩
      exact ⟨path, word, segments, hcut, hsegmented, ⟨raws, hreads, hsteps⟩, hasked⟩
    · rintro ⟨path, word, segments, hcut, hsegmented, ⟨raws, hreads, hsteps⟩, hasked⟩
      exact ⟨raws, [], ⟨rfl, path, word, segments, hcut, hsegmented, hreads, hasked⟩, hsteps⟩
  refine ⟨hparse, ?_⟩
  simp only [hparse]
  constructor
  · rintro ⟨e, path, word, segments, hcut, hsegmented, hspells, hasked⟩
    refine ⟨path, word, segments, hcut, hsegmented, fun segment hsegment => ?_, e.yield, hasked⟩
    exact exists_spells_iff.1 (exists_forall₂_iff.1 ⟨e.steps, hspells⟩ segment hsegment)
  · rintro ⟨path, word, segments, hcut, hsegmented, hfits, asked, hasked⟩
    obtain ⟨steps, hspells⟩ := exists_forall₂_iff.2 fun segment hsegment =>
      exists_spells_iff.2 (hfits segment hsegment)
    exact ⟨⟨steps, asked⟩, path, word, segments, hcut, hsegmented, hspells, hasked⟩

/-- What begins like a range and is none is a name. -/
example : parse "/../[1,2?value" = .ok ⟨[.root, .named "[1,2"], .value⟩ := by cbv

end PathExpr

end TreeScript
