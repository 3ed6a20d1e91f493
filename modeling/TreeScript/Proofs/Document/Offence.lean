import TreeScript.Proofs.Document.Grammar
import TreeScript.Store.Load

/-!
# TreeScript — the texts that are refused

What is read on a line is told by the tokens that stand on it. A quoted text has only escapes that
there are, and ends on its line; a verbatim text ends at a quote that is not doubled, on whatever
line. A name or value that does not begin with one of them is bare text, also where it begins like
one. Bare text goes on up to the end of its line, or up to the colon behind a name, so nothing can
be wrong behind it. But behind a closing quote nothing may follow except spaces and tabs, or the
colon behind a name. A text is refused for the first character that does, and for nothing else.

* `Text.BeginsQuoted`, `Text.BeginsVerbatim` — the tokens;
* `Line.NameTo`, `Line.TextTo`, `Line.ValueTo`, `Line.EntryTo`, `Line.LineTo` — what stands on a
  line, whether it ends with a closing quote, and what follows;
* `Document.Lines`, `Document.FirstOffence` — the lines of a text, or what is wrong with them;
* `Store.load_refused_iff` — the texts that are refused, and where.
-/

namespace TreeScript

-- ---------------------------------------------------------------------------
-- Tokens
-- ---------------------------------------------------------------------------

namespace Text

/-- What is written inside quotes for a text. -/
inductive Escaped : List Char → List Char → Prop
  | nil : Escaped [] []
  | char {c : Char} {raw text : List Char} (hquote : c ≠ '"') (hslash : c ≠ '\\')
      (hend : isLineEnd c = false) (h : Escaped raw text) : Escaped (c :: raw) (c :: text)
  | escape {e c : Char} {raw text : List Char} (he : unescape? e = some c) (h : Escaped raw text) :
      Escaped ('\\' :: e :: raw) (c :: text)

/-- What is written inside a verbatim text. -/
inductive Doubled : List Char → List Char → Prop
  | nil : Doubled [] []
  | char {c : Char} {raw text : List Char} (hquote : c ≠ '"') (h : Doubled raw text) :
      Doubled (c :: raw) (c :: text)
  | quote {raw text : List Char} (h : Doubled raw text) : Doubled ('"' :: '"' :: raw) ('"' :: text)

/-- A text begins with a well-formed quoted text. -/
def BeginsQuoted (cs text rest : List Char) : Prop :=
  ∃ raw, cs = '"' :: (raw ++ '"' :: rest) ∧ Escaped raw text

/-- A text begins with a well-formed verbatim text. -/
def BeginsVerbatim (cs text rest : List Char) : Prop :=
  ∃ raw, cs = '@' :: '"' :: (raw ++ '"' :: rest) ∧ Doubled raw text ∧ rest.head? ≠ some '"'

/-- What is well written inside quotes is read up to the closing one. -/
theorem scanQuoted_of_escaped {raw text : List Char} (h : Escaped raw text) (rest : List Char) :
    scanQuoted (raw ++ '"' :: rest) = some (text, rest) := by
  induction h with
  | nil =>
    unfold scanQuoted
    simp
  | char hquote hslash hend _ ih =>
    rw [List.cons_append]
    unfold scanQuoted
    simp [hquote, hslash, hend, ih]
  | escape he _ ih => simp [scanQuoted, he, ih]

/-- Whatever is read inside quotes is well written. -/
theorem escaped_of_scanQuoted {cs text rest : List Char} (h : scanQuoted cs = some (text, rest)) :
    ∃ raw, cs = raw ++ '"' :: rest ∧ Escaped raw text := by
  fun_induction scanQuoted cs generalizing text with
  | case1 => simp at h
  | case2 =>
    obtain ⟨rfl, rfl⟩ := Prod.mk.inj (Option.some.inj h)
    exact ⟨[], rfl, .nil⟩
  | case3 => simp at h
  | case4 => simp at h
  | case5 e tail c he _ ih =>
    obtain ⟨⟨text, _⟩, hscan, heq⟩ := Option.map_eq_some_iff.1 h
    obtain ⟨rfl, rfl⟩ := Prod.mk.inj heq
    obtain ⟨raw, rfl, hraw⟩ := ih hscan
    exact ⟨_, rfl, .escape he hraw⟩
  | case6 => simp at h
  | case7 c tail hquote hslash hend ih =>
    obtain ⟨⟨text, _⟩, hscan, heq⟩ := Option.map_eq_some_iff.1 h
    obtain ⟨rfl, rfl⟩ := Prod.mk.inj heq
    obtain ⟨raw, rfl, hraw⟩ := ih hscan
    exact ⟨_, rfl, .char hquote hslash (Bool.eq_false_iff.2 hend) hraw⟩

/-- What is well written verbatim is read up to the first quote that is not doubled. -/
theorem scanVerbatim_of_doubled {raw text : List Char} (h : Doubled raw text) {rest : List Char}
    (hrest : rest.head? ≠ some '"') : scanVerbatim (raw ++ '"' :: rest) = some (text, rest) := by
  induction h with
  | nil =>
    rw [List.nil_append, scanVerbatim, if_pos rfl]
    rintro back rfl
    simp at hrest
  | char hquote _ ih =>
    rw [List.cons_append]
    unfold scanVerbatim
    simp [hquote, ih]
  | quote _ ih => simp [scanVerbatim, ih]

/-- Whatever is read verbatim is well written, and no further quote follows. -/
theorem doubled_of_scanVerbatim {cs text rest : List Char}
    (h : scanVerbatim cs = some (text, rest)) :
    ∃ raw, cs = raw ++ '"' :: rest ∧ Doubled raw text ∧ rest.head? ≠ some '"' := by
  fun_induction scanVerbatim cs generalizing text with
  | case1 => simp at h
  | case2 tail ih =>
    obtain ⟨⟨text, _⟩, hscan, heq⟩ := Option.map_eq_some_iff.1 h
    obtain ⟨rfl, rfl⟩ := Prod.mk.inj heq
    obtain ⟨raw, rfl, hraw, hrest⟩ := ih hscan
    exact ⟨_, rfl, .quote hraw, hrest⟩
  | case3 tail halone =>
    obtain ⟨rfl, rfl⟩ := Prod.mk.inj (Option.some.inj h)
    refine ⟨[], rfl, .nil, fun hhead => ?_⟩
    obtain ⟨back, rfl⟩ := List.head?_eq_some_iff.1 hhead
    exact halone back rfl
  | case4 c tail hquote ih =>
    obtain ⟨⟨text, _⟩, hscan, heq⟩ := Option.map_eq_some_iff.1 h
    obtain ⟨rfl, rfl⟩ := Prod.mk.inj heq
    obtain ⟨raw, rfl, hraw, hrest⟩ := ih hscan
    exact ⟨_, rfl, .char hquote hraw, hrest⟩

end Text

namespace Line

open Text Grammar

variable {cs text name rest : List Char} {value : Value} {isQuoted isClosed : Bool}

/-- The rule for quoted texts takes the well-formed ones. -/
theorem run_quoted_eq_some_iff : quoted.run cs = some (text, rest) ↔ BeginsQuoted cs text rest := by
  rw [run_quoted]
  constructor
  · intro h
    split at h
    next tail =>
      obtain ⟨raw, rfl, hraw⟩ := escaped_of_scanQuoted h
      exact ⟨raw, rfl, hraw⟩
    next => simp at h
  · rintro ⟨raw, rfl, hraw⟩
    exact scanQuoted_of_escaped hraw rest

/-- The rule for verbatim texts takes the well-formed ones. -/
theorem run_verbatim_eq_some_iff :
    verbatim.run cs = some (text, rest) ↔ BeginsVerbatim cs text rest := by
  rw [run_verbatim]
  constructor
  · intro h
    split at h
    next tail =>
      obtain ⟨raw, rfl, hraw⟩ := doubled_of_scanVerbatim h
      exact ⟨raw, rfl, hraw⟩
    next => simp at h
  · rintro ⟨raw, rfl, hraw, hrest⟩
    exact scanVerbatim_of_doubled hraw hrest

-- ---------------------------------------------------------------------------
-- What stands on a line
-- ---------------------------------------------------------------------------

/-- A name in front of a text, whether it is quoted, and what follows it. -/
inductive NameTo (cs : List Char) : (name : List Char) → Bool → (rest : List Char) → Prop
  | quoted {name rest : List Char} (h : BeginsQuoted cs name rest) : NameTo cs name true rest
  | bare {front rest : List Char} (hnot : ∀ name rest, ¬ BeginsQuoted cs name rest)
      (hcs : cs = front ++ rest) (hfront : ∀ c ∈ front, c ≠ ':' ∧ isLineEnd c = false)
      (hrest : NameEnds rest) : NameTo cs (trimEnd front) false rest

/-- The text of a value in front of a text, whether it is quoted or verbatim, and what follows. -/
inductive TextTo (cs : List Char) : (text : List Char) → Bool → (rest : List Char) → Prop
  | verbatim {text rest : List Char} (h : BeginsVerbatim cs text rest) : TextTo cs text true rest
  | quoted {text rest : List Char} (h : BeginsQuoted cs text rest) : TextTo cs text true rest
  | bare {front rest : List Char} (hverbatim : ∀ text rest, ¬ BeginsVerbatim cs text rest)
      (hquoted : ∀ text rest, ¬ BeginsQuoted cs text rest) (hcs : cs = front ++ rest)
      (hfront : ∀ c ∈ front, isLineEnd c = false) (hrest : LineEnds rest) :
      TextTo cs (trimEnd front) false rest

/-- A value behind the colon of its name; the word for a type may stand in front of it. -/
inductive ValueTo (cs : List Char) : Value → Bool → (rest : List Char) → Prop
  | typed {word back text rest : List Char} {isClosed : Bool} (hword : word ∈ Doc.typeWords)
      (hcs : cs = word ++ ':' :: back) (h : TextTo back text isClosed rest) :
      ValueTo cs (.typed word text) isClosed rest
  | untyped {text rest : List Char} {isClosed : Bool}
      (hnot : ∀ word ∈ Doc.typeWords, ∀ back, cs ≠ word ++ ':' :: back)
      (h : TextTo cs text isClosed rest) : ValueTo cs (.untyped text) isClosed rest

/-- What stands on a line behind its spaces, whether it ends with a closing quote, and what
follows. A bare name of white space only is no node. -/
inductive EntryTo (cs : List Char) : Option Node → Bool → (rest : List Char) → Prop
  | comment {front rest : List Char} (hcs : cs = '/' :: '/' :: (front ++ rest))
      (hfront : ∀ c ∈ front, isLineEnd c = false) (hrest : LineEnds rest) :
      EntryTo cs none false rest
  | name {name rest : List Char} {isClosed : Bool} (hnot : ¬ ['/', '/'] <+: cs)
      (h : NameTo cs name isClosed rest) (hrest : rest.head? ≠ some ':') :
      EntryTo cs (if isClosed = false ∧ name = [] then none else some ⟨name, .absent⟩) isClosed rest
  | value {name back rest : List Char} {value : Value} {isQuoted isClosed : Bool}
      (hnot : ¬ ['/', '/'] <+: cs) (hname : NameTo cs name isQuoted (':' :: back))
      (h : ValueTo back value isClosed rest) : EntryTo cs (some ⟨name, value⟩) isClosed rest

/-- A line, whether it ends with a closing quote, and what follows. -/
def LineTo (cs : List Char) (line : Line) (isClosed : Bool) (rest : List Char) : Prop :=
  ∃ node, EntryTo (cs.dropWhile (· == ' ')) node isClosed rest ∧
    line = ⟨cs, (cs.takeWhile (· == ' ')).length, node⟩

/-- The rule for quoted texts fails where none is well formed. -/
theorem run_quoted_eq_none_iff :
    quoted.run cs = none ↔ ∀ text rest, ¬ BeginsQuoted cs text rest := by
  simp only [Option.eq_none_iff_forall_ne_some, Prod.forall, ne_eq, run_quoted_eq_some_iff]

/-- The rule for verbatim texts fails where none is well formed. -/
theorem run_verbatim_eq_none_iff :
    verbatim.run cs = none ↔ ∀ text rest, ¬ BeginsVerbatim cs text rest := by
  simp only [Option.eq_none_iff_forall_ne_some, Prod.forall, ne_eq, run_verbatim_eq_some_iff]

/-- A text is cut at the end of a bare name in one way only. -/
theorem split_bareName_iff {front : List Char} :
    (cs.takeWhile (fun c => !(c == ':' || isLineEnd c)),
        cs.dropWhile (fun c => !(c == ':' || isLineEnd c))) = (front, rest) ↔
      cs = front ++ rest ∧ (∀ c ∈ front, c ≠ ':' ∧ isLineEnd c = false) ∧ NameEnds rest := by
  rw [Peg.takeWhile_eq_iff]
  simp [NameEnds, or_iff_not_imp_left]

/-- A text is cut at the end of its line in one way only. -/
theorem split_bareValue_iff {front : List Char} :
    (cs.takeWhile (fun c => !isLineEnd c), cs.dropWhile (fun c => !isLineEnd c)) = (front, rest) ↔
      cs = front ++ rest ∧ (∀ c ∈ front, isLineEnd c = false) ∧ LineEnds rest := by
  rw [Peg.takeWhile_eq_iff]
  simp [LineEnds]

/-- The scanner reads the name that stands there. -/
theorem NameTo.scanName_eq (h : NameTo cs name isQuoted rest) :
    scanName cs = (name, isQuoted, rest) := by
  rw [Grammar.scanName_eq]
  cases h with
  | quoted h => rw [run_quoted_eq_some_iff.2 h]
  | bare hnot hcs hfront hrest =>
    obtain ⟨hfront, hback⟩ := Prod.mk.inj (split_bareName_iff.2 ⟨hcs, hfront, hrest⟩)
    rw [run_quoted_eq_none_iff.2 hnot, hfront, hback]

/-- Whatever name the scanner reads stands there: there always is one, if only a bare one without a
character. -/
theorem nameTo_scanName (cs : List Char) :
    NameTo cs (scanName cs).1 (scanName cs).2.1 (scanName cs).2.2 := by
  rw [Grammar.scanName_eq]
  cases hrun : quoted.run cs with
  | some found => exact .quoted (run_quoted_eq_some_iff.1 hrun)
  | none =>
    obtain ⟨hcs, hfront, hrest⟩ := split_bareName_iff.1 (@rfl _ (cs.takeWhile _, cs.dropWhile _))
    exact .bare (run_quoted_eq_none_iff.1 hrun) hcs hfront hrest

/-- The scanner reads the text that stands there. -/
theorem TextTo.scanText_eq (h : TextTo cs text isClosed rest) : scanText cs = (text, rest) := by
  rw [Grammar.scanText_eq, StateT.run_orElse]
  cases h with
  | verbatim h =>
    rw [run_verbatim_eq_some_iff.2 h]
    rfl
  | quoted h =>
    have hverbatim : ∀ text rest, ¬ BeginsVerbatim cs text rest := by
      rintro text rest ⟨_, hcs, -⟩
      obtain ⟨_, rfl, -⟩ := h
      simp at hcs
    rw [run_verbatim_eq_none_iff.2 hverbatim, run_quoted_eq_some_iff.2 h]
    rfl
  | bare hverbatim hquoted hcs hfront hrest =>
    obtain ⟨hfront, hback⟩ := Prod.mk.inj (split_bareValue_iff.2 ⟨hcs, hfront, hrest⟩)
    rw [run_verbatim_eq_none_iff.2 hverbatim, run_quoted_eq_none_iff.2 hquoted]
    simp [scanBare, splitWhile, hfront, hback]

/-- Whatever text the scanner reads stands there. -/
theorem exists_textTo (cs : List Char) :
    ∃ isClosed, TextTo cs (scanText cs).1 isClosed (scanText cs).2 := by
  rw [Grammar.scanText_eq, StateT.run_orElse]
  cases hverbatim : verbatim.run cs with
  | some found => exact ⟨true, .verbatim (run_verbatim_eq_some_iff.1 hverbatim)⟩
  | none =>
    cases hquoted : quoted.run cs with
    | some found => exact ⟨true, .quoted (run_quoted_eq_some_iff.1 hquoted)⟩
    | none =>
      obtain ⟨hcs, hfront, hrest⟩ := split_bareValue_iff.1 (@rfl _ (cs.takeWhile _, cs.dropWhile _))
      exact ⟨false, .bare (run_verbatim_eq_none_iff.1 hverbatim) (run_quoted_eq_none_iff.1 hquoted)
        hcs hfront hrest⟩

/-- No word for a type stands in front of a colon. -/
theorem splitType?_eq_none_iff : Doc.splitType? cs = none ↔
    ∀ word ∈ Doc.typeWords, ∀ back, cs ≠ word ++ ':' :: back := by
  simp only [Option.eq_none_iff_forall_ne_some, Prod.forall, ne_eq, splitType?_eq_some_iff, not_and]
  exact ⟨fun h word hword back => h word back hword, fun h word back hword => h word hword back⟩

/-- The scanner reads the value that stands there. -/
theorem ValueTo.scanValue_eq (h : ValueTo cs value isClosed rest) :
    scanValue (':' :: cs) = (value, rest) := by
  cases h with
  | typed hword hcs h =>
    rw [scanValue, splitType?_eq_some_iff.2 ⟨hword, hcs⟩]
    simp only [h.scanText_eq]
  | untyped hnot h =>
    rw [scanValue, splitType?_eq_none_iff.2 hnot]
    simp only [h.scanText_eq]

/-- Whatever value the scanner reads behind a colon stands there. -/
theorem exists_valueTo (cs : List Char) :
    ∃ isClosed, ValueTo cs (scanValue (':' :: cs)).1 isClosed (scanValue (':' :: cs)).2 := by
  rw [scanValue]
  cases htype : Doc.splitType? cs with
  | none =>
    obtain ⟨isClosed, htext⟩ := exists_textTo cs
    exact ⟨isClosed, .untyped (splitType?_eq_none_iff.1 htype) htext⟩
  | some found =>
    obtain ⟨word, back⟩ := found
    obtain ⟨hword, hcs⟩ := splitType?_eq_some_iff.1 htype
    obtain ⟨isClosed, htext⟩ := exists_textTo back
    exact ⟨isClosed, .typed hword hcs htext⟩

/-- A line that begins with two slashes has no node. -/
theorem scanBody_of_comment (h : ['/', '/'] <+: cs) :
    scanBody cs = (none, (cs.dropWhile fun c => !isLineEnd c).dropWhile isBlank) := by
  rw [scanBody, if_pos (List.isPrefixOf_iff_prefix.2 h)]

/-- Any other line has what stands on it, and is followed by spaces and tabs. -/
theorem scanBody_of_node (h : ¬ ['/', '/'] <+: cs) :
    scanBody cs = ((scanNode cs).1, (scanNode cs).2.dropWhile isBlank) := by
  rw [scanBody, if_neg (mt List.isPrefixOf_iff_prefix.1 h)]

/-- A node from its name and its value; a bare name without characters and without a value is none.
-/
theorem scanNode_eq {back : List Char} (hname : scanName cs = (name, isQuoted, back))
    (hvalue : scanValue back = (value, rest)) :
    scanNode cs = (if isQuoted = false ∧ name = [] ∧ value = .absent then none
      else some ⟨name, value⟩, rest) := by
  simp only [scanNode, hname, hvalue]
  split
  next hnone => rw [if_pos (by simpa [and_assoc] using hnone)]
  next hsome => rw [if_neg (by simpa [and_assoc] using hsome)]

/-- What stands behind a colon is a value, even if it is empty. -/
theorem ValueTo.ne_absent (h : ValueTo cs value isClosed rest) : value ≠ .absent := by
  cases h <;> exact nofun

/-- The scanner reads the entry that stands there. -/
theorem EntryTo.scanBody_eq {node : Option Node} (h : EntryTo cs node isClosed rest) :
    scanBody cs = (node, rest.dropWhile isBlank) := by
  cases h with
  | @comment front _ hcs hfront hrest =>
    have hdrop := (Prod.mk.inj (split_bareValue_iff.2 ⟨rfl, hfront, hrest⟩)).2
    rw [scanBody_of_comment ⟨front ++ rest, hcs.symm⟩, hcs, List.dropWhile_cons_of_pos (by decide),
      List.dropWhile_cons_of_pos (by decide), hdrop]
  | name hnot h hrest =>
    rw [scanBody_of_node hnot, scanNode_eq h.scanName_eq (Grammar.scanValue_of_ne hrest)]
    simp
  | value hnot hname h =>
    rw [scanBody_of_node hnot, scanNode_eq hname.scanName_eq h.scanValue_eq, if_neg]
    exact fun habsent => h.ne_absent habsent.2.2

/-- On every line there stands something, or nothing in one way. -/
theorem exists_entryTo (cs : List Char) : ∃ node isClosed rest, EntryTo cs node isClosed rest := by
  by_cases hcomment : ['/', '/'] <+: cs
  · obtain ⟨tail, rfl⟩ := hcomment
    obtain ⟨hcs, hfront, hrest⟩ := split_bareValue_iff.1
      (@rfl _ (tail.takeWhile _, tail.dropWhile _))
    refine ⟨none, false, _, .comment ?_ hfront hrest⟩
    exact congrArg (['/', '/'] ++ ·) hcs
  · have hname := nameTo_scanName cs
    by_cases hcolon : (scanName cs).2.2.head? = some ':'
    · obtain ⟨back, hback⟩ := List.head?_eq_some_iff.1 hcolon
      rw [hback] at hname
      obtain ⟨isClosed, hvalue⟩ := exists_valueTo back
      exact ⟨_, isClosed, _, .value hcomment hname hvalue⟩
    · exact ⟨_, _, _, .name hcomment hname hcolon⟩

/-- The scanner reads the line that stands there. -/
theorem LineTo.scan_eq {line : Line} (h : LineTo cs line isClosed rest) :
    scan cs = (line, rest.dropWhile isBlank) := by
  obtain ⟨node, hentry, rfl⟩ := h
  simp only [scan, splitWhile, hentry.scanBody_eq]

theorem exists_lineTo (cs : List Char) : ∃ line isClosed rest, LineTo cs line isClosed rest := by
  obtain ⟨node, isClosed, rest, h⟩ := exists_entryTo (cs.dropWhile (· == ' '))
  exact ⟨_, isClosed, rest, node, h, rfl⟩

theorem NameTo.suffix (h : NameTo cs name isQuoted rest) : rest <:+ cs := by
  cases h with
  | quoted h =>
    obtain ⟨raw, rfl, -⟩ := h
    exact ⟨'"' :: (raw ++ ['"']), by simp⟩
  | @bare front _ _ hcs => exact ⟨front, hcs.symm⟩

theorem TextTo.suffix (h : TextTo cs text isClosed rest) : rest <:+ cs := by
  cases h with
  | verbatim h =>
    obtain ⟨raw, rfl, -⟩ := h
    exact ⟨'@' :: '"' :: (raw ++ ['"']), by simp⟩
  | quoted h => exact (NameTo.quoted h).suffix
  | @bare front _ _ _ hcs => exact ⟨front, hcs.symm⟩

theorem ValueTo.suffix (h : ValueTo cs value isClosed rest) : rest <:+ cs := by
  cases h with
  | @typed word back _ _ _ _ hcs h =>
    have hback : back <:+ cs := ⟨word ++ [':'], by simp [hcs]⟩
    exact h.suffix.trans hback
  | untyped _ h => exact h.suffix

theorem LineTo.suffix {line : Line} (h : LineTo cs line isClosed rest) : rest <:+ cs := by
  obtain ⟨node, hentry, -⟩ := h
  refine List.IsSuffix.trans ?_ (List.dropWhile_suffix (· == ' '))
  cases hentry with
  | @comment front _ hcs => exact ⟨'/' :: '/' :: front, hcs.symm⟩
  | name _ h => exact h.suffix
  | value _ hname h => exact h.suffix.trans ((List.suffix_cons _ _).trans hname.suffix)

/-- Only what ends with a closing quote can be followed by anything but a line end. -/
theorem LineTo.lineEnds {line : Line} (h : LineTo cs line false rest) : LineEnds rest := by
  obtain ⟨node, hentry, -⟩ := h
  cases hentry with
  | comment _ _ hrest => exact hrest
  | name _ h hcolon =>
    cases h with
    | bare _ _ _ hrest => exact fun c hc => (hrest c hc).resolve_left fun heq => hcolon (heq ▸ hc)
  | value _ _ h =>
    cases h with
    | typed _ _ h => cases h with | bare _ _ _ _ hrest => exact hrest
    | untyped _ h => cases h with | bare _ _ _ _ hrest => exact hrest

end Line

-- ---------------------------------------------------------------------------
-- All lines
-- ---------------------------------------------------------------------------

namespace Document

open Text Line

/-- The lines of a text. Each of them is followed by spaces and tabs and a line end, the last one by
spaces and tabs and the end of the text. -/
inductive Lines : List Char → List Line → Prop
  | last {cs rest : List Char} {line : Line} {isClosed : Bool} (h : LineTo cs line isClosed rest)
      (hend : rest.dropWhile isBlank = []) : Lines cs [line]
  | next {cs rest next : List Char} {line : Line} {ls : List Line} {isClosed : Bool}
      (h : LineTo cs line isClosed rest) (hend : afterLineEnd? (rest.dropWhile isBlank) = some next)
      (hnext : Lines next ls) : Lines cs (line :: ls)

/-- A line ends with a closing quote, but behind spaces and tabs `tail` follows, which begins with
something else than a line end. -/
def Offends (cs tail : List Char) : Prop :=
  ∃ line rest, LineTo cs line true rest ∧ rest.dropWhile isBlank = tail ∧
    ∃ c ∈ tail.head?, isLineEnd c = false

/-- The first line that offends is the first one or one behind it. -/
inductive FirstOffence : List Char → List Char → Prop
  | here {cs tail : List Char} (h : Offends cs tail) : FirstOffence cs tail
  | later {cs rest next tail : List Char} {line : Line} {isClosed : Bool}
      (h : LineTo cs line isClosed rest) (hend : afterLineEnd? (rest.dropWhile isBlank) = some next)
      (hnext : FirstOffence next tail) : FirstOffence cs tail

section

variable {cs rest next tail : List Char} {line : Line}

/-- A line with a line end is followed by the other lines. -/
theorem scanAll_of_next (hscan : scan cs = (line, rest)) (hnext : afterLineEnd? rest = some next) :
    scanAll cs = (scanAll next).map (line :: ·) := by
  rw [scanAll, hscan]
  simp only
  split
  next _ h => rw [Option.some.inj (h.symm.trans hnext)]
  next h => simp [h] at hnext

/-- A line up to the end of the text is the last one. -/
theorem scanAll_of_end (hscan : scan cs = (line, [])) : scanAll cs = .ok [line] := by
  rw [scanAll, hscan]
  rfl

/-- A line that something else follows than a line end is where the text is refused. -/
theorem scanAll_of_junk (hscan : scan cs = (line, rest)) (hnext : afterLineEnd? rest = none)
    (hne : rest ≠ []) : scanAll cs = .error rest := by
  rw [scanAll, hscan]
  simp only
  split
  next h => simp [h] at hnext
  next => rw [if_neg hne]

/-- There is something that is no line end. -/
theorem junk_iff :
    afterLineEnd? rest = none ∧ rest ≠ [] ↔ ∃ c ∈ rest.head?, isLineEnd c = false := by
  cases rest with
  | nil => simp
  | cons c rest => simp [Grammar.afterLineEnd?_cons_eq_none_iff]

/-- The scanner stops at the first line that offends. -/
theorem FirstOffence.scanAll_eq (h : FirstOffence cs tail) : scanAll cs = .error tail := by
  induction h with
  | here h =>
    obtain ⟨line, rest, hline, rfl, hjunk⟩ := h
    obtain ⟨hnext, hne⟩ := junk_iff.2 hjunk
    exact scanAll_of_junk hline.scan_eq hnext hne
  | later h hend _ ih => rw [scanAll_of_next h.scan_eq hend, ih, Except.map]

/-- Where the scanner stops a line offends, and none in front of it does. -/
theorem firstOffence_of_scanAll (h : scanAll cs = .error tail) : FirstOffence cs tail := by
  fun_induction scanAll cs with
  | case1 cs line rest hscan next hnext ih =>
    obtain ⟨line', isClosed, rest', hline⟩ := exists_lineTo cs
    obtain ⟨rfl, rfl⟩ := Prod.mk.inj (hline.scan_eq.symm.trans hscan)
    cases hmore : scanAll next with
    | ok ls => simp [hmore, Except.map] at h
    | error tail' =>
      rw [hmore] at h
      exact .later hline hnext (ih (hmore.trans h))
  | case2 => simp at h
  | case3 cs line rest hscan hnext hne =>
    cases h
    obtain ⟨line', isClosed, rest', hline⟩ := exists_lineTo cs
    obtain ⟨rfl, rfl⟩ := Prod.mk.inj (hline.scan_eq.symm.trans hscan)
    obtain ⟨c, hc, hend⟩ := junk_iff.1 ⟨hnext, hne⟩
    -- a text that is not closed runs on to the end of the line, so nothing is left behind it
    have hclosed : isClosed = true := by
      by_contra hopen
      rw [Bool.not_eq_true] at hopen
      subst hopen
      have hends := hline.lineEnds
      rw [dropWhile_isBlank hends] at hc
      simp [hends c hc] at hend
    subst hclosed
    exact .here ⟨line', rest', hline, rfl, c, hc, hend⟩

/-- The scanner reads the lines of a text. -/
theorem Lines.scanAll_eq {ls : List Line} (h : Lines cs ls) : scanAll cs = .ok ls := by
  induction h with
  | last h hend => exact scanAll_of_end (hend ▸ h.scan_eq)
  | next h hend _ ih => rw [scanAll_of_next h.scan_eq hend, ih, Except.map]

/-- Whatever lines the scanner reads are those of the text. -/
theorem lines_of_scanAll {ls : List Line} (h : scanAll cs = .ok ls) : Lines cs ls := by
  fun_induction scanAll cs generalizing ls with
  | case1 cs line rest hscan next hnext ih =>
    obtain ⟨line', isClosed, rest', hline⟩ := exists_lineTo cs
    obtain ⟨rfl, rfl⟩ := Prod.mk.inj (hline.scan_eq.symm.trans hscan)
    cases hmore : scanAll next with
    | ok more =>
      rw [hmore] at h
      cases h
      exact .next hline hnext (ih hmore)
    | error _ => simp [hmore, Except.map] at h
  | case2 cs line hscan hnext =>
    cases h
    obtain ⟨line', isClosed, rest', hline⟩ := exists_lineTo cs
    obtain ⟨rfl, hempty⟩ := Prod.mk.inj (hline.scan_eq.symm.trans hscan)
    exact .last hline hempty
  | case3 => simp at h

theorem afterLineEnd?_suffix (h : afterLineEnd? rest = some next) : next <:+ rest := by
  unfold afterLineEnd? at h
  split at h
  · exact Option.some.inj h ▸ ⟨['\r', '\n'], rfl⟩
  · exact Option.some.inj h ▸ List.suffix_cons _ _
  · exact Option.some.inj h ▸ List.suffix_cons _ _
  · simp at h

/-- What offends is the last part of the text. -/
theorem FirstOffence.suffix (h : FirstOffence cs tail) : tail <:+ cs := by
  induction h with
  | here h =>
    obtain ⟨line, rest, hline, rfl, -⟩ := h
    exact (List.dropWhile_suffix _).trans hline.suffix
  | later hline hend _ ih =>
    exact ih.trans ((afterLineEnd?_suffix hend).trans
      ((List.dropWhile_suffix _).trans hline.suffix))

end

end Document

-- ---------------------------------------------------------------------------
-- Reading
-- ---------------------------------------------------------------------------

namespace Store

open Document

/-- No line is the reason why a text is refused as a whole. -/
theorem isGrammar_of_loadValue {nested : Store → List Char → Except ReadError Handle × Store}
    {place : Position} {s t : Store} {value : Line.Value} {e : ReadError}
    (h : loadValue nested (fun f => f place) s value = (.error e, t)) : e.isGrammar = false := by
  unfold loadValue at h
  split at h
  · simp at h
  · simp at h
  · split at h
    · split at h
      · simp at h
      · obtain ⟨rfl, -⟩ := by simpa using h
        rfl
    · split at h
      · simp at h
      · obtain ⟨rfl, -⟩ := by simpa using h
        rfl

/-- Once a text has been cut into lines, its grammar is not what it is refused for. -/
theorem isGrammar_of_loadLines {nested : Store → List Char → Except ReadError Handle × Store}
    {text : List Char} {parents : List Handle} {lines : List Line} {s t : Store} {e : ReadError}
    (h : loadLines nested text s parents lines = (.error e, t)) : e.isGrammar = false := by
  fun_induction loadLines nested text s parents lines with
  | case1 => simp at h
  | case2 s parents line rest hnode ih => exact ih h
  | case3 s parents line rest node hnode fault hodd =>
    cases h
    rfl
  | case4 s parents line rest node hnode fault hodd hparent =>
    cases h
    rfl
  | case5 s parents line rest node hnode fault hodd parent hparent e' t' hvalue =>
    cases h
    exact isGrammar_of_loadValue hvalue
  | case6 s parents line rest node hnode fault hodd parent hparent v t hvalue new t' hcreate ih =>
    exact ih h

/-- A text is refused as a whole if there is an offence in it, and for the first one. -/
theorem load_eq_grammar_iff {s : Store} {text : String} {place : Position} :
    (∃ t, s.load text = (.error (.grammar place), t)) ↔
      ∃ tail, Line.scanAll text.toList = .error tail ∧
        place = Position.ofTail text.toList tail := by
  rw [load, loadWithin]
  obtain ⟨root, t⟩ := s.create "" none
  cases Line.scanAll text.toList with
  | error tail => simp [eq_comm]
  | ok lines =>
    simp only [reduceCtorEq, false_and, exists_false, iff_false, not_exists]
    intro t' hload
    cases hlines : loadLines (loadWithin text.toList.length) text.toList t [root] lines with
    | mk result u =>
      rw [hlines] at hload
      cases result with
      | ok _ => simp at hload
      | error e =>
        obtain ⟨rfl, -⟩ : e = .grammar place ∧ u.remove root = t' := by simpa using hload
        exact absurd (isGrammar_of_loadLines hlines) (by simp [ReadError.isGrammar])

/-- The texts that are refused, for every store. The grammar reads a text exactly if no line of it
offends, and then as the lines that it has. A text in which a line offends is refused at the first
character that does so. -/
theorem load_refused_iff (s : Store) (text : String) :
    (∀ place, (∃ t, s.load text = (.error (.grammar place), t)) ↔
      ∃ front tail, text.toList = front ++ tail ∧ FirstOffence text.toList tail ∧
        place = Position.advance ⟨0, 0⟩ front) ∧
    (∀ lines rest, Line.Grammar.document.run text.toList = some (lines, rest) ↔
      rest = [] ∧ Lines text.toList lines) ∧
    ((∃ lines, Lines text.toList lines) ↔ ∀ tail, ¬ FirstOffence text.toList tail) := by
  refine ⟨fun place => ?_, fun lines rest => ?_, ?_⟩
  · rw [load_eq_grammar_iff]
    constructor
    -- the place is that of what is left where the scan stops
    · rintro ⟨tail, hscan, rfl⟩
      have hoffence := firstOffence_of_scanAll hscan
      obtain ⟨front, hfront⟩ := hoffence.suffix
      refine ⟨front, tail, hfront.symm, hoffence, ?_⟩
      rw [Position.ofTail, ← hfront]
      simp
    · rintro ⟨front, tail, htext, hoffence, rfl⟩
      refine ⟨tail, hoffence.scanAll_eq, ?_⟩
      rw [Position.ofTail, htext]
      simp
  · rw [Line.Grammar.run_document_eq_some_iff]
    exact and_congr_right fun _ => ⟨lines_of_scanAll, Lines.scanAll_eq⟩
  · constructor
    -- a text either scans or has a first offence, never both
    · rintro ⟨lines, hlines⟩ tail hoffence
      exact absurd (hlines.scanAll_eq.symm.trans hoffence.scanAll_eq) (by simp)
    · intro hnone
      cases hscan : Line.scanAll text.toList with
      | ok lines => exact ⟨lines, lines_of_scanAll hscan⟩
      | error tail => exact absurd (firstOffence_of_scanAll hscan) (hnone tail)

end Store

end TreeScript
