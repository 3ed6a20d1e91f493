import TreeScript.Document.Grammar
import TreeScript.Proofs.Document.Line
import TreeScript.Proofs.Text.Peg

/-!
# TreeScript — lines are cut as the grammar says

The scanner of lines reads every text as the rules of the grammar do.

* `Line.Grammar.run_quoted`, `Line.Grammar.run_verbatim` — quoted and verbatim texts;
* `Line.Grammar.run_line` — one line;
* `Line.Grammar.run_lines` — as many lines as there are, and what is left behind them.
-/

namespace TreeScript.Line.Grammar

open Peg Text

variable {cs rest : List Char}

-- ---------------------------------------------------------------------------
-- Characters
-- ---------------------------------------------------------------------------

/-- The rule of line ends takes the line end in front. -/
theorem run_newline (cs : List Char) :
    newline.run cs = (afterLineEnd? cs).map fun rest => ((), rest) := by
  simp only [newline, StateT.run_orElse, run_lit]
  match cs with
  | [] => rfl
  | c :: cs =>
    by_cases hfeed : c = '\n'
    · subst hfeed
      rfl
    by_cases hreturn : c = '\r'
    · subst hreturn
      match cs with
      | [] => rfl
      | d :: cs =>
        by_cases hd : d = '\n'
        · subst hd
          rfl
        · simp [List.isPrefixOf?, afterLineEnd?, hd, Ne.symm hd]
    · simp [List.isPrefixOf?, afterLineEnd?, hfeed, hreturn, Ne.symm hfeed, Ne.symm hreturn]

/-- There is no line end in front just if the first character is none. -/
theorem afterLineEnd?_cons_eq_none_iff {c : Char} :
    afterLineEnd? (c :: cs) = none ↔ isLineEnd c = false := by
  unfold afterLineEnd?
  split <;> simp_all [isLineEnd]

/-- The rule of line ends fails just if the first character is no line end. -/
theorem run_newline_cons_eq_none_iff {c : Char} :
    newline.run (c :: cs) = none ↔ isLineEnd c = false := by
  rw [run_newline, Option.map_eq_none_iff, afterLineEnd?_cons_eq_none_iff]

-- ---------------------------------------------------------------------------
-- Quoted and verbatim texts
-- ---------------------------------------------------------------------------

/-- A rule for a letter takes the text that stands for it. -/
theorem run_letter (text : String) (c : Char) (cs : List Char) :
    (letter text c).run cs = (text.toList.isPrefixOf? cs).map fun rest => (c, rest) := by
  rw [letter, StateT.run_bind, run_lit]
  cases text.toList.isPrefixOf? cs <;> rfl

/-- Behind a backslash the next character tells what is meant. -/
theorem run_escape (e : Char) (cs : List Char) :
    escape.run ('\\' :: e :: cs) = (unescape? e).map fun c => (c, cs) := by
  have hskip : escape.run ('\\' :: e :: cs) =
      (letter "\"" '"' <|> letter "\\" '\\' <|> letter "n" '\n' <|> letter "r" '\r' <|>
        letter "t" '\t').run (e :: cs) := rfl
  simp only [hskip, StateT.run_orElse, run_letter, unescape?]
  -- one letter after the other, in the order in which they are tried
  by_cases hquote : e = '"'
  · subst hquote
    rfl
  by_cases hslash : e = '\\'
  · subst hslash
    rfl
  by_cases hn : e = 'n'
  · subst hn
    rfl
  by_cases hr : e = 'r'
  · subst hr
    rfl
  by_cases ht : e = 't'
  · subst ht
    rfl
  simp [List.isPrefixOf?, hquote, hslash, hn, hr, ht, Ne.symm hquote, Ne.symm hslash, Ne.symm hn,
    Ne.symm hr, Ne.symm ht]

/-- Without a backslash there is no escape. -/
theorem run_escape_of_ne {c : Char} (hc : c ≠ '\\') (cs : List Char) :
    escape.run (c :: cs) = none := by
  simp [escape, StateT.run_bind, run_lit, List.isPrefixOf?, Ne.symm hc]

/-- One character inside quotes: an escape, or anything but a quote or a line end. -/
theorem run_quotedChar (c : Char) (cs : List Char) :
    quotedChar.run (c :: cs) =
      if c = '\\' then escape.run (c :: cs)
      else if c = '"' ∨ isLineEnd c = true then none else some (c, cs) := by
  have hchar : (do notAhead (lit "\"" <|> lit "\\" <|> newline); any) =
      satisfy fun c => c != '\\' && (c != '"' && !isLineEnd c) := by
    refine notAhead_any_eq_satisfy fun c rest => ?_
    simp [run_lit_eq_none_iff, run_newline_cons_eq_none_iff, @eq_comm _ c, and_left_comm]
  rw [quotedChar, StateT.run_orElse, hchar, run_satisfy_cons]
  by_cases hc : c = '\\'
  · simp [hc]
  · rw [if_neg hc, run_escape_of_ne hc]
    by_cases hquote : c = '"'
    · simp [hquote]
    · cases hend : isLineEnd c <;> simp [hc, hquote]

theorem run_closed (p : Peg Char) (cs : List Char) :
    (closed p).run cs =
      match repeated p cs with
      | (text, '"' :: rest) => some (text, rest)
      | _ => none := by
  rw [closed, StateT.run_bind, run_many]
  obtain ⟨text, rest⟩ := repeated p cs
  match rest with
  | [] => rfl
  | c :: rest =>
    by_cases hc : c = '"'
    · subst hc
      rfl
    · simp [run_lit, List.isPrefixOf?, hc, Ne.symm hc]

/-- At the end of the text there is no closing quote. -/
theorem run_closed_nil {p : Peg Char} (h : p.run [] = none) : (closed p).run [] = none := by
  rw [run_closed, repeated_of_none h]

/-- Where no further character can be taken, the closing quote has to stand. -/
theorem run_closed_of_none {p : Peg Char} {c : Char} (h : p.run (c :: cs) = none) :
    (closed p).run (c :: cs) = if c = '"' then some ([], cs) else none := by
  rw [run_closed, repeated_of_none h]
  by_cases hc : c = '"'
  · subst hc
    rfl
  · simp [hc]

/-- One character, and then those up to the closing quote. -/
theorem run_closed_of_some {p : Peg Char} {c : Char} (h : p.run cs = some (c, rest))
    (hlt : rest.length < cs.length) :
    (closed p).run cs = ((closed p).run rest).map fun (text, rest) => (c :: text, rest) := by
  rw [run_closed, run_closed, repeated_of_some h hlt]
  obtain ⟨text, rest⟩ := repeated p rest
  match rest with
  | [] => rfl
  | d :: rest =>
    by_cases hd : d = '"'
    · subst hd
      rfl
    · simp [hd]

/-- The scanner goes through a quoted text as the rule does, character by character. -/
theorem run_closed_quotedChar (cs : List Char) : (closed quotedChar).run cs = scanQuoted cs := by
  fun_induction scanQuoted cs with
  | case1 => exact run_closed_nil rfl
  | case2 rest =>
    rw [run_closed_of_none (run_quotedChar '"' rest), if_pos rfl]
  | case3 => exact run_closed_of_none rfl
  | case4 e rest hescape =>
    rw [run_closed_of_none, if_neg (by decide)]
    rw [run_quotedChar, if_pos rfl, run_escape, hescape, Option.map_none]
  | case5 e rest d hescape _ ih =>
    have hrun : quotedChar.run ('\\' :: e :: rest) = some (d, rest) := by
      rw [run_quotedChar, if_pos rfl, run_escape, hescape, Option.map_some]
    rw [run_closed_of_some hrun (by simp), ih]
  | case6 c rest hquote hslash hend =>
    rw [run_closed_of_none, if_neg hquote]
    rw [run_quotedChar, if_neg hslash, if_pos (.inr hend)]
  | case7 c rest hquote hslash hend ih =>
    have hrun : quotedChar.run (c :: rest) = some (c, rest) := by
      rw [run_quotedChar, if_neg hslash, if_neg (not_or.2 ⟨hquote, hend⟩)]
    rw [run_closed_of_some hrun (Nat.lt_succ_self _), ih]

theorem run_quoted (cs : List Char) :
    quoted.run cs =
      match cs with
      | '"' :: rest => scanQuoted rest
      | _ => none := by
  match cs with
  | [] => rfl
  | c :: cs =>
    by_cases hc : c = '"'
    · subst hc
      exact run_closed_quotedChar cs
    · simp [quoted, StateT.run_bind, run_lit, List.isPrefixOf?, hc, Ne.symm hc]

/-- A quote that is not doubled is no character of a verbatim text. -/
theorem run_verbatimChar_alone {rest : List Char} (h : ∀ tail, rest ≠ '"' :: tail) :
    verbatimChar.run ('"' :: rest) = none := by
  match rest with
  | [] => rfl
  | c :: rest =>
    have hc : c ≠ '"' := fun hc => h rest (hc ▸ rfl)
    have hany : (do notAhead (lit "\""); any : Peg Char).run ('"' :: c :: rest) = none := rfl
    simp [verbatimChar, StateT.run_orElse, run_letter, List.isPrefixOf?, hany, Ne.symm hc]

theorem run_verbatimChar_of_ne {c : Char} (hc : c ≠ '"') (rest : List Char) :
    verbatimChar.run (c :: rest) = some (c, rest) := by
  have hchar : (do notAhead (lit "\""); any) = satisfy fun c => c != '"' :=
    notAhead_any_eq_satisfy fun c rest => by simp [run_lit_eq_none_iff, @eq_comm _ c]
  rw [verbatimChar, StateT.run_orElse, run_letter, hchar, run_satisfy_cons]
  simp [List.isPrefixOf?, hc, Ne.symm hc]

/-- The scanner goes through a verbatim text as the rule does. -/
theorem run_closed_verbatimChar (cs : List Char) :
    (closed verbatimChar).run cs = scanVerbatim cs := by
  fun_induction scanVerbatim cs with
  | case1 => exact run_closed_nil rfl
  | case2 rest ih =>
    have hrun : verbatimChar.run ('"' :: '"' :: rest) = some ('"', rest) := rfl
    rw [run_closed_of_some hrun (by simp), ih]
  | case3 rest hrest => rw [run_closed_of_none (run_verbatimChar_alone hrest), if_pos rfl]
  | case4 c rest hc ih =>
    rw [run_closed_of_some (run_verbatimChar_of_ne hc rest) (Nat.lt_succ_self _), ih]

/-- A verbatim text begins with an at sign and its quote. -/
theorem run_verbatim (cs : List Char) :
    verbatim.run cs =
      match cs with
      | '@' :: '"' :: rest => scanVerbatim rest
      | _ => none := by
  match cs with
  | [] => rfl
  | c :: cs =>
    by_cases hc : c = '@'
    · subst hc
      match cs with
      | [] => rfl
      | d :: cs =>
        by_cases hd : d = '"'
        · subst hd
          exact run_closed_verbatimChar cs
        · simp [verbatim, StateT.run_bind, run_lit, List.isPrefixOf?, hd, Ne.symm hd]
    · simp [verbatim, StateT.run_bind, run_lit, List.isPrefixOf?, hc, Ne.symm hc]

-- ---------------------------------------------------------------------------
-- Names and values
-- ---------------------------------------------------------------------------

/-- A bare name goes on up to a colon or a line end, and loses the white space at its end. -/
theorem run_bareName (cs : List Char) :
    bareName.run cs =
      some (trimEnd (cs.takeWhile fun c => !(c == ':' || isLineEnd c)),
        cs.dropWhile fun c => !(c == ':' || isLineEnd c)) := by
  have hchar : (do notAhead (lit ":" <|> newline); any) =
      satisfy fun c => !(c == ':' || isLineEnd c) :=
    notAhead_any_eq_satisfy fun c rest => by
      simp [run_lit_eq_none_iff, run_newline_cons_eq_none_iff, @eq_comm _ c]
  rw [bareName, hchar, StateT.run_bind, run_many, repeated_satisfy]
  rfl

/-- Anything that is no line end, as a test on one character. -/
theorem many_notAhead_newline :
    (many do notAhead newline; any) = many (satisfy fun c => !isLineEnd c) := by
  have hchar : (do notAhead newline; any) = satisfy fun c => !isLineEnd c :=
    notAhead_any_eq_satisfy fun c rest => by simp [run_newline_cons_eq_none_iff]
  rw [hchar]

/-- A bare value goes on up to the end of its line. -/
theorem run_bareValue (cs : List Char) : bareValue.run cs = some (scanBare cs) := by
  rw [bareValue, many_notAhead_newline, StateT.run_bind, run_many, repeated_satisfy]
  rfl

/-- A name that is not a quoted text is a bare name. -/
theorem scanName_eq (cs : List Char) :
    scanName cs =
      match quoted.run cs with
      | some (text, rest) => (text, true, rest)
      | none =>
        (trimEnd (cs.takeWhile fun c => !(c == ':' || isLineEnd c)), false,
          cs.dropWhile fun c => !(c == ':' || isLineEnd c)) := by
  rw [run_quoted]
  match cs with
  | [] => rfl
  | c :: cs =>
    by_cases hc : c = '"'
    · subst hc
      cases hscan : scanQuoted cs <;> simp [scanName, splitWhile, hscan]
    · simp [scanName, splitWhile, hc]

/-- A value that is neither a verbatim nor a quoted text is a bare value. -/
theorem scanText_eq (cs : List Char) :
    scanText cs = ((verbatim <|> quoted).run cs).getD (scanBare cs) := by
  rw [StateT.run_orElse, run_verbatim, run_quoted]
  unfold scanText
  split
  next rest => cases h : scanVerbatim rest <;> simp [h]
  next rest _ => cases scanQuoted rest <;> simp
  next hverbatim hquoted =>
    -- a bare text begins with neither mark
    have hnone : (match cs with
        | '@' :: '"' :: rest => scanVerbatim rest
        | _ => none) = none := by
      split
      next rest => exact absurd rfl (hverbatim rest)
      next => rfl
    have hnone' : (match cs with
        | '"' :: rest => scanQuoted rest
        | _ => none) = none := by
      split
      next rest => exact absurd rfl (hquoted rest)
      next => rfl
    rw [hnone, hnone']
    rfl

/-- A name is read as the rule reads it: a quoted, a verbatim or a bare one, in this order. -/
theorem run_name (cs : List Char) : name.run cs = some ((scanName cs).1, (scanName cs).2.2) := by
  rw [name, StateT.run_orElse, run_bareName, scanName_eq]
  cases quoted.run cs <;> rfl

/-- The text of a value is read as the rule reads it. -/
theorem run_value (cs : List Char) : value.run cs = some (scanText cs) := by
  rw [scanText_eq, value, StateT.run_orElse, StateT.run_orElse, StateT.run_orElse, run_bareValue]
  cases verbatim.run cs
  · cases quoted.run cs <;> rfl
  · rfl

/-- The rule for one word takes that word. -/
theorem run_typeWord_eq_some_iff {word : String} {text : List Char} :
    (typeWord word).run cs = some (text, rest) ↔ text = word.toList ∧ cs = word.toList ++ rest := by
  simp only [typeWord, run_bind_eq_some_iff, run_lit_eq_some_iff, run_pure_eq_some_iff]
  constructor
  · rintro ⟨-, mid, rfl, rfl, rfl⟩
    exact ⟨rfl, rfl⟩
  · rintro ⟨rfl, rfl⟩
    exact ⟨(), rest, rfl, rfl, rfl⟩

/-- The words for types in the order in which they are tried. -/
def triedWords : List String :=
  ["int", "float", "bool", "byte", "sbyte", "char", "blob", "date", "guid", "node", "string"]

/-- The words for types are tried one after another, and a colon has to follow. -/
theorem typeName_eq : typeName = (do
    let word ← (triedWords.map typeWord).foldr (fun p q => p <|> q) (typeWord "x")
    ahead (lit ":")
    return word) := rfl

/-- The words that are tried are those for types. -/
theorem mem_typeWords_iff {text : List Char} :
    text ∈ Doc.typeWords ↔ ∃ word ∈ triedWords ++ ["x"], text = word.toList := by
  have hleft : ∀ text ∈ Doc.typeWords, text ∈ (triedWords ++ ["x"]).map String.toList := by decide
  have hright : ∀ word ∈ triedWords ++ ["x"], word.toList ∈ Doc.typeWords := by decide
  constructor
  · intro h
    obtain ⟨word, hword, rfl⟩ := List.mem_map.1 (hleft text h)
    exact ⟨word, hword, rfl⟩
  · rintro ⟨word, hword, rfl⟩
    exact hright word hword

/-- The rule for types takes the word in front if a colon follows, whatever word is tried first: no
two of them can be followed by a colon. -/
theorem run_typeName_eq_some_iff {word : List Char} :
    typeName.run cs = some (word, rest) ↔
      word ∈ Doc.typeWords ∧ cs = word ++ rest ∧ rest.head? = some ':' := by
  -- no type word begins another one, so the order in which they are tried does not matter
  have hbegins : ∀ text ∈ Doc.typeWords, ∀ text' ∈ Doc.typeWords,
      text.isPrefixOf text' = true → text = text' := by decide
  have hwords : triedWords.map typeWord ++ [typeWord "x"] =
      (triedWords ++ ["x"]).map typeWord := rfl
  have hagree : ∀ a ∈ triedWords.map typeWord ++ [typeWord "x"],
      ∀ b ∈ triedWords.map typeWord ++ [typeWord "x"], ∀ x y,
        a.run cs = some x → b.run cs = some y → x = y := by
    rw [hwords]
    simp only [List.forall_mem_map]
    rintro word hword word' hword' ⟨text, rest⟩ ⟨text', rest'⟩ hx hy
    obtain ⟨rfl, hcs⟩ := run_typeWord_eq_some_iff.1 hx
    obtain ⟨rfl, hcs'⟩ := run_typeWord_eq_some_iff.1 hy
    have heq : word.toList = word'.toList := by
      have hword := mem_typeWords_iff.2 ⟨word, hword, rfl⟩
      have hword' := mem_typeWords_iff.2 ⟨word', hword', rfl⟩
      rcases List.prefix_or_prefix_of_prefix ⟨rest, hcs.symm⟩ ⟨rest', hcs'.symm⟩ with h | h
      · exact hbegins _ hword _ hword' (List.isPrefixOf_iff_prefix.2 h)
      · exact (hbegins _ hword' _ hword (List.isPrefixOf_iff_prefix.2 h)).symm
    rw [hcs, heq] at hcs'
    rw [heq, List.append_cancel_left hcs']
  rw [typeName_eq]
  simp only [run_bind_eq_some_iff, run_choice_eq_some_iff_of_agree hagree, hwords,
    run_ahead_eq_some_iff, run_pure_eq_some_iff, List.mem_map, exists_exists_and_eq_and,
    run_typeWord_eq_some_iff, mem_typeWords_iff]
  have hcolon : ∀ rest : List Char, ((lit ":").run rest).isSome = true ↔ rest.head? = some ':' := by
    intro rest
    rw [← Option.ne_none_iff_isSome, ne_eq, run_lit_eq_none_iff, not_not]
    cases rest <;> simp [@eq_comm _ ':']
  constructor
  · rintro ⟨_, mid, ⟨tried, htried, rfl, rfl⟩, -, _, ⟨rfl, hahead⟩, rfl, rfl⟩
    exact ⟨⟨tried, htried, rfl⟩, rfl, (hcolon _).1 hahead⟩
  · rintro ⟨⟨tried, htried, rfl⟩, rfl, hhead⟩
    exact ⟨_, rest, ⟨tried, htried, rfl, rfl⟩, (), rest, ⟨rfl, (hcolon _).2 hhead⟩, rfl, rfl⟩

/-- A typed value is a word for a type and a text. -/
theorem run_typed (cs : List Char) :
    typed.run (':' :: cs) = (Doc.splitType? cs).map fun (word, rest) =>
      (.typed word (scanText rest).1, (scanText rest).2) := by
  refine Option.ext fun ⟨found, rest⟩ => ?_
  simp only [typed, run_bind_eq_some_iff, run_lit_eq_some_iff, run_typeName_eq_some_iff, run_value,
    run_pure_eq_some_iff, Option.map_eq_some_iff, Prod.exists, splitType?_eq_some_iff,
    Option.some_inj]
  constructor
  · rintro ⟨-, mid, hcs, word, _, ⟨hword, rfl, -⟩, -, after, rfl, text, _, htext, rfl, rfl⟩
    obtain rfl : cs = word ++ ':' :: after := (List.cons.inj hcs).2
    exact ⟨word, after, ⟨hword, rfl⟩, by rw [htext]⟩
  · rintro ⟨word, after, ⟨hword, rfl⟩, hfound⟩
    obtain ⟨rfl, rfl⟩ := Prod.mk.inj hfound
    exact ⟨(), _, rfl, word, ':' :: after, ⟨hword, rfl, rfl⟩, (), after, rfl, _, _, rfl, rfl, rfl⟩

/-- An untyped value is a text behind the colon. -/
theorem run_untyped (cs : List Char) :
    untyped.run (':' :: cs) = some (.untyped (scanText cs).1, (scanText cs).2) := by
  have hskip : untyped.run (':' :: cs) =
      (do let text ← value; return Value.untyped text : Peg Value).run cs := rfl
  rw [hskip, StateT.run_bind, run_value]
  rfl

/-- A value is taken if there is a colon for it. -/
theorem run_optional_value (cs : List Char) :
    ∃ o, (optional (typed <|> untyped)).run cs = some (o, (scanValue cs).2) ∧
      o.getD .absent = (scanValue cs).1 := by
  match cs with
  | [] => exact ⟨none, rfl, rfl⟩
  | c :: cs =>
    by_cases hc : c = ':'
    · subst hc
      have hrun : (typed <|> untyped).run (':' :: cs) = some (scanValue (':' :: cs)) := by
        rw [StateT.run_orElse, run_typed, run_untyped]
        cases htype : Doc.splitType? cs <;> simp [scanValue, htype]
      exact ⟨some _, run_optional_eq_some_iff.2 (.inl ⟨_, rfl, hrun⟩), rfl⟩
    · have hvalue : scanValue (c :: cs) = (.absent, c :: cs) := by simp [scanValue, hc]
      rw [hvalue]
      refine ⟨none, run_optional_eq_some_iff.2 (.inr ⟨rfl, rfl, run_orElse_eq_none_iff.2 ?_⟩), rfl⟩
      constructor <;> simp [typed, untyped, StateT.run_bind, run_lit, List.isPrefixOf?, Ne.symm hc]

/-- A node is a name, and a value if there is one. -/
theorem run_node (cs : List Char) :
    node.run cs = some (⟨(scanName cs).1, (scanValue (scanName cs).2.2).1⟩,
      (scanValue (scanName cs).2.2).2) := by
  obtain ⟨o, hrun, hvalue⟩ := run_optional_value (scanName cs).2.2
  rw [node, run_bind_eq_some_iff]
  exact ⟨_, _, run_name cs, run_bind_eq_some_iff.2 ⟨o, _, hrun, by rw [hvalue]; rfl⟩⟩

/-- What follows a node is what follows its value. -/
theorem scanNode_snd (cs : List Char) : (scanNode cs).2 = (scanValue (scanName cs).2.2).2 := by
  simp only [scanNode]
  split <;> rfl

theorem scanValue_of_ne {cs : List Char} (h : cs.head? ≠ some ':') :
    scanValue cs = (.absent, cs) := by
  unfold scanValue
  split
  next => simp at h
  next => rfl

theorem scanValue_colon_length (cs : List Char) : (scanValue (':' :: cs)).2.length ≤ cs.length := by
  rw [scanValue]
  split
  next htype => exact Nat.le_trans (scanText_length _) (splitType?_length htype)
  next => exact scanText_length cs

/-- The text that a node takes is white space exactly if there is no node in it. -/
theorem trim_taken_eq_nil_iff (cs : List Char) :
    trim (cs.take (cs.length - (scanNode cs).2.length)) = [] ↔ (scanNode cs).1 = none := by
  rw [trim_eq_nil_iff, scanNode_snd]
  cases hquoted : quoted.run cs with
  | some found =>
    -- a quote is no white space
    obtain ⟨text, rest⟩ := found
    rw [run_quoted] at hquoted
    split at hquoted
    next tail =>
      have hname : scanName ('"' :: tail) = (text, true, rest) := by simp [scanName, hquoted]
      have hshort := scanQuoted_length hquoted
      have hlength := scanValue_length rest
      obtain ⟨k, hk⟩ : ∃ k, ('"' :: tail).length - (scanValue rest).2.length = k + 1 :=
        ⟨tail.length - (scanValue rest).2.length, by rw [List.length_cons]; omega⟩
      rw [hname, hk, List.take_succ_cons]
      refine iff_of_false (fun hall => absurd (hall '"' List.mem_cons_self) (by decide)) ?_
      simp [scanNode, hname]
    next => simp at hquoted
  | none =>
    have hname := scanName_eq cs
    rw [hquoted] at hname
    simp only at hname
    have hcs := List.takeWhile_append_dropWhile (p := fun c => !(c == ':' || isLineEnd c)) (l := cs)
    generalize cs.takeWhile (fun c => !(c == ':' || isLineEnd c)) = front at hname hcs
    generalize cs.dropWhile (fun c => !(c == ':' || isLineEnd c)) = back at hname hcs
    subst hcs
    by_cases hcolon : back.head? = some ':'
    · -- nor is the colon in front of a value
      obtain ⟨tail, rfl⟩ := List.head?_eq_some_iff.1 hcolon
      have hlength := scanValue_colon_length tail
      have hvalue : (scanValue (':' :: tail)).1 ≠ .absent := by
        simp [scanValue_eq_absent_iff]
      obtain ⟨k, hk⟩ : ∃ k, (front ++ ':' :: tail).length - (scanValue (':' :: tail)).2.length =
          front.length + (k + 1) :=
        ⟨tail.length - (scanValue (':' :: tail)).2.length, by simp; omega⟩
      have htake : (front ++ ':' :: tail).take (front.length + (k + 1)) =
          front ++ ':' :: tail.take k := by simp [List.take_append]
      rw [hname, hk, htake]
      refine iff_of_false (fun hall => absurd (hall ':' (by simp)) (by decide)) ?_
      simp [scanNode, hname, hvalue]
    · have htake : (front ++ back).take ((front ++ back).length - back.length) = front := by simp
      rw [hname, scanValue_of_ne hcolon, htake, ← trimEnd_eq_nil_iff]
      by_cases hblank : trimEnd front = []
      · simp [scanNode, hname, scanValue_of_ne hcolon, hblank]
      · simp [scanNode, hname, scanValue_of_ne hcolon, hblank]

-- ---------------------------------------------------------------------------
-- Lines
-- ---------------------------------------------------------------------------

/-- A comment goes on up to the end of its line. -/
theorem run_comment (cs : List Char) :
    comment.run cs =
      if ['/', '/'].isPrefixOf cs then some ((), cs.dropWhile fun c => !isLineEnd c) else none := by
  rw [comment, many_notAhead_newline, StateT.run_bind, run_lit]
  split
  next hbegins =>
    obtain ⟨tail, rfl⟩ := List.isPrefixOf_iff_prefix.1 hbegins
    have hlit : "//".toList.isPrefixOf? (['/', '/'] ++ tail) = some tail := rfl
    rw [hlit, Option.map_some]
    simp [run_many, repeated_satisfy, isLineEnd]
  next hbegins =>
    have hlit : "//".toList.isPrefixOf? cs = none := by
      rw [← Option.isNone_iff_eq_none, ← Option.isSome_eq_false_iff,
        List.isSome_isPrefixOf?_eq_isPrefixOf]
      exact Bool.not_eq_true _ ▸ hbegins
    rw [hlit]
    rfl

/-- What begins with two slashes is a comment, anything else a node. -/
theorem run_entry (cs : List Char) :
    entry.run cs =
      some (if ['/', '/'].isPrefixOf cs then (none, cs.dropWhile fun c => !isLineEnd c)
        else scanNode cs) := by
  rw [entry, StateT.run_orElse, StateT.run_bind, run_comment]
  split
  next => rfl
  next =>
    have hnode : scanNode cs =
        (if (scanNode cs).1 = none then none
          else some ⟨(scanName cs).1, (scanValue (scanName cs).2.2).1⟩, (scanNode cs).2) := by
      simp only [scanNode]
      split <;> simp
    rw [StateT.run_bind, run_taken, run_node, ← scanNode_snd, hnode]
    simp only [← trim_taken_eq_nil_iff]
    rfl

/-- The depth of a line is the number of spaces in front. -/
theorem run_indent (cs : List Char) :
    indent.run cs = some ((cs.takeWhile (· == ' ')).length, cs.dropWhile (· == ' ')) := by
  have hspaces : repeated (lit " ") cs =
      ((cs.takeWhile (· == ' ')).map fun _ => (), cs.dropWhile (· == ' ')) :=
    repeated_of_char rfl (fun c cs => by simp [run_lit, List.isPrefixOf?, @eq_comm _ c]) cs
  rw [indent, StateT.run_bind, run_many, hspaces]
  simp

/-- Spaces and tabs at the end of a line are passed over. -/
theorem run_blank (cs : List Char) : blank.run cs = some ((), cs.dropWhile isBlank) := by
  have hblank : repeated (lit " " <|> lit "\t") cs =
      ((cs.takeWhile isBlank).map fun _ => (), cs.dropWhile isBlank) := by
    refine repeated_of_char rfl (fun c cs => ?_) cs
    rw [StateT.run_orElse, run_lit, run_lit]
    by_cases hspace : c = ' '
    · subst hspace
      rfl
    · simp [List.isPrefixOf?, isBlank, hspace, Ne.symm hspace, @eq_comm _ c]
  rw [blank, StateT.run_bind, run_many, hblank]
  rfl

theorem run_line (cs : List Char) : line.run cs = some (scan cs) :=
  run_bind_eq_some_iff.2 ⟨cs, cs, rfl, run_bind_eq_some_iff.2 ⟨_, _, run_indent cs,
    run_bind_eq_some_iff.2 ⟨_, _, run_entry _, run_bind_eq_some_iff.2 ⟨_, _, run_blank _, rfl⟩⟩⟩⟩

/-- A line end and a line. -/
theorem run_next (cs : List Char) :
    (do newline; line : Peg Line).run cs = (afterLineEnd? cs).map scan := by
  rw [StateT.run_bind, run_newline]
  cases afterLineEnd? cs with
  | none => rfl
  | some next => exact run_line next

/-- Lines are one line and then a line end and a line, as often as there are. -/
theorem run_lines_eq (cs : List Char) :
    lines.run cs = some ((scan cs).1 :: (repeated (do newline; line) (scan cs).2).1,
      (repeated (do newline; line) (scan cs).2).2) :=
  run_bind_eq_some_iff.2 ⟨_, _, run_line cs, rfl⟩

/-- The lines of a text are those that there are for the grammar. If something is left behind them,
the text is refused where this begins. -/
theorem run_lines (cs : List Char) :
    match scanAll cs with
    | .ok ls => lines.run cs = some (ls, [])
    | .error tail => tail ≠ [] ∧ ∃ ls, lines.run cs = some (ls, tail) := by
  fun_induction scanAll cs with
  | case1 cs line rest hscan next hnext ih =>
    have hshort : (scan next).2.length < rest.length :=
      Nat.lt_of_le_of_lt (scan_length next) (afterLineEnd?_length hnext)
    -- the next line is shorter, so the repetition goes on with it
    have hmore : repeated (do newline; Grammar.line) rest =
        ((scan next).1 :: (repeated (do newline; Grammar.line) (scan next).2).1,
          (repeated (do newline; Grammar.line) (scan next).2).2) :=
      repeated_of_some (by rw [run_next, hnext, Option.map_some]) hshort
    have hlines : ∀ {ls tail}, lines.run next = some (ls, tail) →
        lines.run cs = some (line :: ls, tail) := by
      intro ls tail hls
      rw [run_lines_eq] at hls
      obtain ⟨rfl, rfl⟩ := Prod.mk.inj (Option.some.inj hls)
      rw [run_lines_eq, hscan, hmore]
    generalize scanAll next = read at ih
    cases read with
    | ok ls => exact hlines ih
    | error tail =>
      obtain ⟨hne, ls, hls⟩ := ih
      exact ⟨hne, _, hlines hls⟩
  -- the text ends with this line
  | case2 cs line hscan hnext =>
    have hnone : repeated (do newline; Grammar.line) [] = ([], []) :=
      repeated_of_none (by rw [run_next, hnext, Option.map_none])
    rw [run_lines_eq, hscan, hnone]
  -- something is left that begins no line
  | case3 cs line rest hscan hnext hne =>
    have hnone : repeated (do newline; Grammar.line) rest = ([], rest) :=
      repeated_of_none (by rw [run_next, hnext, Option.map_none])
    refine ⟨hne, [line], ?_⟩
    rw [run_lines_eq, hscan, hnone]

/-- A document is read to its end, or not at all: just if the scanner finds nothing wrong. -/
theorem run_document_eq_some_iff {ls : List Line} :
    document.run cs = some (ls, rest) ↔ rest = [] ∧ scanAll cs = .ok ls := by
  rw [document, run_bind_eq_some_iff]
  simp only [run_bind_eq_some_iff, run_ends_eq_some_iff, run_pure_eq_some_iff]
  have hlines := run_lines cs
  constructor
  · rintro ⟨_, _, hrun, -, _, ⟨rfl, rfl⟩, rfl, rfl⟩
    refine ⟨rfl, ?_⟩
    cases hscan : scanAll cs with
    | ok ls =>
      rw [hscan] at hlines
      simp_all
    | error tail =>
      rw [hscan] at hlines
      obtain ⟨hne, ls', htail⟩ := hlines
      simp_all
  · rintro ⟨rfl, hscan⟩
    rw [hscan] at hlines
    exact ⟨ls, [], hlines, (), [], ⟨rfl, rfl⟩, rfl, rfl⟩

/-- A quote that nothing closes belongs to the value, up to the end of the line. -/
example : document.run "a:\"b\nc".toList =
    some ([⟨"a:\"b\nc".toList, 0, some ⟨['a'], .untyped ['"', 'b']⟩⟩,
      ⟨['c'], 0, some ⟨['c'], .absent⟩⟩], []) := by cbv

end TreeScript.Line.Grammar
