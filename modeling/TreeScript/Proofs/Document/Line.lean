import TreeScript.Proofs.Scalar.Formats
import TreeScript.Document.Line

/-!
# TreeScript — written lines are read back

A line that has been written for a node is cut into the same parts: the depth, the
name, the type and the text of the value, whatever line follows.

* `Doc.NameReadable` — the names that a line gives back;
* `scanName_nameText`, `scanText_valueText`, `splitType?_valueText` — the parts;
* `Doc.Entry.text`, `scan_text` — the whole line.
-/

namespace TreeScript

namespace Doc

/-- A name that is quoted or does not end in white space. -/
def NameReadable (cs : List Char) : Prop :=
  nameNeedsQuotes cs = true ∨ cs.getLast?.any Text.isSpace = false

/-- The name that a line gives back: white space at the end is lost unless it is quoted. -/
def heardName (cs : List Char) : List Char :=
  if nameNeedsQuotes cs then cs else Text.trimEnd cs

/-- A name is heard as it is just if a line gives it back. -/
theorem heardName_eq_self_iff {cs : List Char} : heardName cs = cs ↔ NameReadable cs := by
  unfold heardName NameReadable
  split
  next hquotes => simp [hquotes]
  next hquotes => simp [hquotes, Text.trimEnd_eq_self_iff]

/-- What is written behind the name of a node. -/
def Content.text : Content → List Char
  | .scalar none => []
  | .scalar (some (.string s)) => ':' :: valueText s.toList
  | .scalar (some v) => ':' :: (v.kind.name.toList ++ ':' :: valueText (v.chars true))
  | .nested docs => ':' :: ("node".toList ++ ':' :: Text.verbatim (dropLineEnd (forestLines 0 docs)))

/-- What is read behind the name of a node. -/
def Content.lineValue : Content → Line.Value
  | .scalar none => .absent
  | .scalar (some (.string s)) => .untyped s.toList
  | .scalar (some v) => .typed v.kind.name.toList (v.chars true)
  | .nested docs => .typed "node".toList (dropLineEnd (forestLines 0 docs))

/-- All values but strings have their type in front. -/
theorem Content.text_of_ne_string {v : Scalar} (hv : ∀ s, v ≠ .string s) :
    (Content.scalar (some v)).text =
        ':' :: (v.kind.name.toList ++ ':' :: valueText (v.chars true)) ∧
      (Content.scalar (some v)).lineValue = .typed v.kind.name.toList (v.chars true) := by
  cases v with
  | string s => exact absurd rfl (hv s)
  | _ => exact ⟨rfl, rfl⟩

/-- What is written on a line without its indentation. -/
def nodeText (name : String) : Content → List Char
  | .scalar value => plainText name value
  | .nested docs => holderText name (dropLineEnd (forestLines 0 docs))

/-- A line without its end. -/
def Entry.text (e : Entry) : List Char := indentation e.depth ++ nodeText e.name e.content

/-- The node that a line gives back; a name of white space only, without a value, is lost. -/
def Entry.heard (e : Entry) : Option Line.Node :=
  if e.name ≠ "" ∧ heardName e.name.toList = [] ∧ e.content.lineValue = .absent then none
  else some ⟨heardName e.name.toList, e.content.lineValue⟩

/-- A line is heard with its name, if a line gives that back. -/
theorem Entry.heard_eq {e : Entry} (he : NameReadable e.name.toList) :
    e.heard = some ⟨e.name.toList, e.content.lineValue⟩ := by
  rw [heard, heardName_eq_self_iff.2 he]
  refine if_neg fun hlost => hlost.1 (String.toList_injective ?_)
  simpa using hlost.2.1

end Doc

namespace Line

open Doc Text

-- ---------------------------------------------------------------------------
-- Names
-- ---------------------------------------------------------------------------

/-- What may follow a name: a colon, the end of the line or the end of the text. -/
def NameEnds (rest : List Char) : Prop := ∀ c ∈ rest.head?, c = ':' ∨ isLineEnd c = true

theorem NameEnds.of_lineEnds {rest : List Char} (h : LineEnds rest) : NameEnds rest :=
  fun c hc => Or.inr (h c hc)

theorem nameEnds_colon (rest : List Char) : NameEnds (':' :: rest) := by simp [NameEnds]

/-- A name that needs no quotes: what its characters are not. -/
theorem of_not_nameNeedsQuotes {cs : List Char} (h : nameNeedsQuotes cs = false) :
    (∀ c ∈ cs, !(c == ':' || isLineEnd c)) ∧ cs.head? ≠ some '"' ∧
      ['/', '/'].isPrefixOf cs = false ∧ cs.head? ≠ some ' ' := by
  simp only [nameNeedsQuotes, Bool.or_eq_false_iff] at h
  obtain ⟨⟨⟨⟨⟨hcolon, hend⟩, hquote⟩, hcomment⟩, hspace⟩, -⟩ := h
  refine ⟨fun c hc => ?_, ?_, hcomment, ?_⟩
  · have hc' : c ≠ ':' := by
      rintro rfl
      simp [hc] at hcolon
    simpa [hc'] using List.any_eq_false.1 hend c hc
  · intro hhead
    cases cs with
    | nil => simp at hhead
    | cons c cs => simp_all [List.isPrefixOf]
  · intro hhead
    cases cs with
    | nil => simp at hhead
    | cons c cs => simp_all [List.isPrefixOf]

/-- A name is read back, but for white space at its end. -/
theorem scanName_nameText (cs : List Char) {rest : List Char} (hrest : NameEnds rest) :
    scanName (nameText cs ++ rest) = (heardName cs, nameNeedsQuotes cs, rest) := by
  cases hquotes : nameNeedsQuotes cs with
  | true =>
    simp [nameText, heardName, hquotes, quoted, scanName, scanQuoted_quoted]
  | false =>
    obtain ⟨hchars, hquote, -, -⟩ := of_not_nameNeedsQuotes hquotes
    -- a bare name has no sign in it that ends a name
    have hsplit : splitWhile (fun c => !(c == ':' || isLineEnd c)) (cs ++ rest) = (cs, rest) := by
      refine splitWhile_append hchars fun c hc => ?_
      rcases hrest c hc with rfl | hc
      · rfl
      · simp [hc]
    -- and it does not begin with a quote, nor does what stands behind it
    have hfirst : ∀ tail, cs ++ rest ≠ '"' :: tail := by
      intro tail heq
      cases cs with
      | nil =>
        rcases hrest '"' (by simp_all) with h | h
        · simp at h
        · simp [isLineEnd] at h
      | cons c cs => simp_all
    simp only [nameText, heardName, hquotes, Bool.false_eq_true, if_false]
    unfold scanName
    split
    next tail heq => exact absurd heq (hfirst tail)
    next => simp only [hsplit]

-- ---------------------------------------------------------------------------
-- Values
-- ---------------------------------------------------------------------------

/-- Bare text goes on up to the end of its line, and is read whole if it does not end in white
space. -/
theorem scanBare_append {cs rest : List Char} (hcs : ∀ c ∈ cs, (!isLineEnd c) = true)
    (hlast : cs.getLast?.any isSpace = false) (hrest : LineEnds rest) :
    scanBare (cs ++ rest) = (cs, rest) := by
  have hsplit : splitWhile (fun c => !isLineEnd c) (cs ++ rest) = (cs, rest) :=
    splitWhile_append hcs fun c hc => by simp [hrest c hc]
  simp [scanBare, hsplit, trimEnd_eq_self hlast]

/-- A text between quotes is read whole, whatever follows on later lines. -/
theorem scanText_verbatim (cs : List Char) {rest : List Char} (hrest : LineEnds rest) :
    scanText (verbatim cs ++ rest) = (cs, rest) := by
  have hscan := scanVerbatim_verbatim cs (hrest.head?_ne (c := '"') (by decide))
  simp [verbatim, scanText, hscan]

/-- The text of a value is read back. -/
theorem scanText_valueText (cs : List Char) {rest : List Char} (hrest : LineEnds rest) :
    scanText (valueText cs ++ rest) = (cs, rest) := by
  unfold valueText
  split
  next => exact scanText_verbatim cs hrest
  next hline =>
    split
    next => simp [quoted, scanText, scanQuoted_quoted]
    next hquotes =>
      simp only [valueNeedsQuotes, Bool.or_eq_true, not_or, Bool.not_eq_true] at hquotes
      obtain ⟨⟨⟨⟨-, hquote⟩, hat⟩, -⟩, hlast⟩ := hquotes
      have hchars : ∀ c ∈ cs, (!isLineEnd c) = true := fun c hc => by
        simpa using List.any_eq_false.1 (Bool.not_eq_true _ ▸ hline) c hc
      have hbare := scanBare_append hchars hlast hrest
      -- neither kind of quote begins with the text, also not across its end
      have hfirst : ∀ c ∈ rest.head?, c ≠ '"' ∧ c ≠ '@' := by
        intro c hc
        have := hrest c hc
        constructor <;> rintro rfl <;> simp [isLineEnd] at this
      unfold scanText
      split
      next tail heq =>
        exfalso
        rcases cs with _ | ⟨c, _ | ⟨d, cs⟩⟩
        · cases rest <;> simp_all
        · cases rest <;> simp_all
        · simp_all [List.isPrefixOf]
      next tail _ heq =>
        exfalso
        rcases cs with _ | ⟨c, cs⟩
        · cases rest <;> simp_all
        · simp_all [List.isPrefixOf]
      next => exact hbare

/-- The words for types: made of letters. -/
theorem of_mem_typeWords {word : List Char} (h : word ∈ typeWords) :
    (∀ c ∈ word, (c != ':') = true) ∧ (∀ c ∈ word, isLineEnd c = false) ∧
      word.head? ≠ some '@' ∧ word.head? ≠ some '"' := by
  have hall : ∀ word ∈ typeWords,
      word.all (fun c => c != ':' && !isLineEnd c) = true ∧
        word.head? ≠ some '@' ∧ word.head? ≠ some '"' := by decide
  obtain ⟨hchars, hhead⟩ := hall word h
  have hchar := List.all_eq_true.1 hchars
  simp only [Bool.and_eq_true, Bool.not_eq_true'] at hchar
  exact ⟨fun c hc => (hchar c hc).1, fun c hc => (hchar c hc).2, hhead⟩

/-- A type stands in front exactly where a word for one and a colon do. -/
theorem splitType?_eq_some_iff {cs word rest : List Char} :
    splitType? cs = some (word, rest) ↔ word ∈ typeWords ∧ cs = word ++ ':' :: rest := by
  constructor
  · intro h
    unfold splitType? at h
    split at h
    next front back heq =>
      split at h
      next hmem =>
        obtain ⟨rfl, rfl⟩ := Prod.mk.inj (Option.some.inj h)
        obtain ⟨hfront, hback⟩ := Prod.mk.inj heq
        exact ⟨hmem, by rw [← hfront, ← hback, List.takeWhile_append_dropWhile]⟩
      next => simp at h
    next => simp at h
  · rintro ⟨hmem, rfl⟩
    have hsplit : splitWhile (· != ':') (word ++ ':' :: rest) = (word, ':' :: rest) :=
      splitWhile_append (of_mem_typeWords hmem).1 (by simp)
    simp [splitType?, hsplit, hmem]

/-- What begins a verbatim or a quoted text begins no word for a type. -/
theorem splitType?_eq_none_of_head {c : Char} (hc : c = '@' ∨ c = '"') (cs : List Char) :
    splitType? (c :: cs) = none := by
  rw [Option.eq_none_iff_forall_ne_some]
  rintro ⟨word, rest⟩ h
  obtain ⟨hmem, heq⟩ := splitType?_eq_some_iff.1 h
  obtain ⟨-, -, hat, hquote⟩ := of_mem_typeWords hmem
  cases word with
  | nil => rcases hc with rfl | rfl <;> simp at heq
  | cons d word =>
    obtain rfl : c = d := (List.cons.inj heq).1
    rcases hc with rfl | rfl
    · simp at hat
    · simp at hquote

/-- The text of a value is not taken for one with a type in front. -/
theorem splitType?_valueText (cs : List Char) {rest : List Char} (hrest : LineEnds rest) :
    splitType? (valueText cs ++ rest) = none := by
  unfold valueText
  split
  next => exact splitType?_eq_none_of_head (Or.inl rfl) _
  next hline =>
    split
    next => exact splitType?_eq_none_of_head (Or.inr rfl) _
    next hquotes =>
      have hnone : splitType? cs = none := by
        simp only [valueNeedsQuotes, Bool.or_eq_true, not_or, Bool.not_eq_true] at hquotes
        simpa using hquotes.1.1.1.1
      have hcolon : rest.head? ≠ some ':' := hrest.head?_ne (by decide)
      rw [Option.eq_none_iff_forall_ne_some]
      rintro ⟨word, tail⟩ h
      obtain ⟨hmem, heq⟩ := splitType?_eq_some_iff.1 h
      -- the colon behind the type would stand in the text, at its end, or behind a line end
      rcases List.append_eq_append_iff.1 heq with ⟨front, rfl, hfront⟩ | ⟨back, rfl, hback⟩
      · cases front with
        | nil => simp [hfront] at hcolon
        | cons c front =>
          have hend : isLineEnd c = true := hrest c (by simp [hfront])
          have := (of_mem_typeWords hmem).2.1 c (by simp)
          simp [hend] at this
      · cases back with
        | nil =>
          rw [List.nil_append] at hback
          simp [← hback] at hcolon
        | cons c back =>
          obtain rfl : ':' = c := (List.cons.inj hback).1
          rw [splitType?_eq_some_iff.2 ⟨hmem, rfl⟩] at hnone
          simp at hnone

/-- There is no value just if no colon stands in front. -/
theorem scanValue_eq_absent_iff {cs : List Char} :
    (scanValue cs).1 = .absent ↔ cs.head? ≠ some ':' := by
  unfold scanValue
  split
  next rest =>
    cases Doc.splitType? rest <;> simp
  next hne =>
    cases cs with
    | nil => simp
    | cons c rest =>
      have hc : c ≠ ':' := by
        rintro rfl
        exact hne rest rfl
      simpa using hc

theorem name_mem_typeWords (k : Kind) : k.name.toList ∈ typeWords := by
  cases k <;> decide

/-- No kind of value goes by the word for nested documents. -/
theorem name_ne_node (k : Kind) : k.name.toList ≠ "node".toList := by
  cases k <;> decide

/-- The value of a node is read back. -/
theorem scanValue_text (content : Content) {rest : List Char} (hrest : LineEnds rest) :
    scanValue (content.text ++ rest) = (content.lineValue, rest) := by
  -- behind a type word stands the text of the value
  have htyped : ∀ {word : List Char} (cs text : List Char), word ∈ typeWords →
      scanText (text ++ rest) = (cs, rest) →
      scanValue (':' :: (word ++ ':' :: text) ++ rest) = (.typed word cs, rest) := by
    intro word cs text hmem htext
    have hsplit : splitType? (word ++ ':' :: text ++ rest) = some (word, text ++ rest) :=
      splitType?_eq_some_iff.2 ⟨hmem, by simp⟩
    simp only [List.cons_append, scanValue, hsplit, htext]
  match content with
  | .scalar none =>
    have hcolon : ∀ tail, rest ≠ ':' :: tail := by
      rintro tail rfl
      exact hrest.head?_ne (c := ':') (by decide) rfl
    simp only [Content.text, List.nil_append, Content.lineValue]
    unfold scanValue
    split
    next tail => exact absurd rfl (hcolon tail)
    next => rfl
  | .scalar (some v) =>
    -- a string is written without its type, where its text allows that
    by_cases hstring : ∃ s, v = .string s
    · obtain ⟨s, rfl⟩ := hstring
      simp only [Content.text, Content.lineValue, List.cons_append, scanValue,
        splitType?_valueText _ hrest, scanText_valueText _ hrest]
    · obtain ⟨htext, hvalue⟩ := Content.text_of_ne_string fun s hs => hstring ⟨s, hs⟩
      rw [htext, hvalue]
      exact htyped _ _ (name_mem_typeWords v.kind) (scanText_valueText _ hrest)
  | .nested docs => exact htyped _ _ (by decide) (scanText_verbatim _ hrest)

-- ---------------------------------------------------------------------------
-- Lines
-- ---------------------------------------------------------------------------

/-- What is written of a node is its name and its content, but for a node without either: a pair of
quotes stands for it. -/
theorem nodeText_eq (name : String) (content : Content) :
    nodeText name content = nameText name.toList ++ content.text ∨
      name = "" ∧ content = .scalar none ∧ nodeText name content = quoted [] := by
  match content with
  | .scalar none =>
    by_cases hname : name = ""
    · exact Or.inr ⟨hname, rfl, by simp [nodeText, plainText, hname, quoted]⟩
    · exact Or.inl (by simp [nodeText, plainText, hname, Content.text])
  | .scalar (some v) =>
    left
    cases v <;> rfl
  | .nested docs =>
    left
    simp [nodeText, holderText, Content.text]

/-- A node without name and value is written with quotes. -/
theorem nodeText_empty_ne :
    nodeText "" (.scalar none) ≠ nameText "".toList ++ (Content.scalar none).text := by
  decide

/-- What is written behind a name ends it. -/
theorem nameEnds_text (content : Content) {rest : List Char} (hrest : LineEnds rest) :
    NameEnds (content.text ++ rest) := by
  match content with
  | .scalar none => exact .of_lineEnds hrest
  | .scalar (some v) => cases v <;> exact nameEnds_colon _
  | .nested docs => exact nameEnds_colon _

/-- Only a node without a value is written without one. -/
theorem lineValue_eq_absent {content : Content} (h : content.lineValue = .absent) :
    content = .scalar none := by
  match content with
  | .scalar none => rfl
  | .scalar (some v) => cases v <;> simp [Content.lineValue] at h
  | .nested docs => simp [Content.lineValue] at h

/-- The node of a line is read back, unless it is lost. -/
theorem scanNode_nodeText (e : Entry) {rest : List Char} (hrest : LineEnds rest) :
    scanNode (nodeText e.name e.content ++ rest) = (e.heard, rest) := by
  rcases nodeText_eq e.name e.content with htext | ⟨hname, hcontent, htext⟩
  · rw [htext, List.append_assoc]
    simp only [scanNode, scanName_nameText _ (nameEnds_text e.content hrest),
      scanValue_text e.content hrest, Entry.heard]
    -- a node without a name is written with a value
    have hempty : e.name = "" → e.content.lineValue ≠ .absent := by
      intro hname habsent
      rw [hname, lineValue_eq_absent habsent] at htext
      exact nodeText_empty_ne htext
    have hquoted : heardName e.name.toList = [] → e.name ≠ "" →
        nameNeedsQuotes e.name.toList = false := by
      intro hheard hname
      rw [Bool.eq_false_iff]
      intro hquotes
      rw [heardName, if_pos hquotes] at hheard
      exact hname (String.toList_injective (by simpa using hheard))
    -- a bare name of blanks is heard as none, and without a value the line is lost
    by_cases hlost : e.name ≠ "" ∧ heardName e.name.toList = [] ∧ e.content.lineValue = .absent
    · rw [if_pos hlost, if_pos]
      simp [hlost.2.1, hlost.2.2, hquoted hlost.2.1 hlost.1]
    · rw [if_neg hlost, if_neg]
      intro hnone
      simp only [Bool.and_eq_true, beq_iff_eq] at hnone
      exact hlost ⟨fun hname => hempty hname hnone.2, hnone.1.2, hnone.2⟩
  · rw [htext]
    -- a node with neither is written as a quoted empty name
    have hvalue : scanValue rest = (.absent, rest) := scanValue_text (.scalar none) hrest
    have hscan := scanQuoted_quoted [] rest
    simp only [List.flatMap_nil, List.nil_append] at hscan
    have hheard : e.heard = some ⟨[], .absent⟩ := by
      rw [Entry.heard_eq (by rw [hname]; exact Or.inr rfl), hname, hcontent]
      rfl
    simp [quoted, scanNode, scanName, hscan, hvalue, hheard]

/-- A line does not begin with a space, and not like a comment. -/
theorem head_nodeText (name : String) (content : Content) {rest : List Char}
    (hrest : LineEnds rest) :
    (nodeText name content ++ rest).head? ≠ some ' ' ∧
      ['/', '/'].isPrefixOf (nodeText name content ++ rest) = false := by
  rcases nodeText_eq name content with htext | ⟨rfl, rfl, htext⟩
  · have hends := nameEnds_text content hrest
    rw [htext, List.append_assoc]
    generalize content.text ++ rest = tail at hends
    cases hquotes : nameNeedsQuotes name.toList with
    | true => simp [nameText, hquotes, quoted, List.isPrefixOf]
    | false =>
      obtain ⟨-, -, hcomment, hspace⟩ := of_not_nameNeedsQuotes hquotes
      simp only [nameText, hquotes, Bool.false_eq_true, if_false]
      -- a colon or a line end follows the name, neither of which is a space or a slash
      have htail : ∀ c ∈ tail.head?, c ≠ ' ' ∧ c ≠ '/' := by
        intro c hc
        rcases hends c hc with rfl | hend
        · decide
        · constructor <;> rintro rfl <;> simp [isLineEnd] at hend
      generalize name.toList = cs at hcomment hspace
      rcases cs with _ | ⟨c, _ | ⟨d, cs⟩⟩
      · rcases tail with _ | ⟨d, tail⟩
        · simp
        · obtain ⟨hd, hd'⟩ := htail d rfl
          simp [List.isPrefixOf, hd, Ne.symm hd']
      · rcases tail with _ | ⟨d, tail⟩
        · simpa [List.isPrefixOf] using hspace
        · obtain ⟨-, hd⟩ := htail d rfl
          simpa [List.isPrefixOf, Ne.symm hd] using hspace
      · exact ⟨by simpa using hspace, by simpa [List.isPrefixOf] using hcomment⟩
  · simp [htext, quoted, List.isPrefixOf]

/-- A line end is neither a space nor a tab. -/
theorem dropWhile_isBlank {rest : List Char} (h : LineEnds rest) :
    rest.dropWhile isBlank = rest := by
  cases rest with
  | nil => rfl
  | cons c rest =>
    have hend : isLineEnd c = true := h c rfl
    have hblank : isBlank c = false := by
      simp only [isLineEnd, Bool.or_eq_true, beq_iff_eq] at hend
      rcases hend with rfl | rfl <;> decide
    simp [hblank]

/-- A written line is cut into its parts, whatever follows its end. -/
theorem scan_text (e : Entry) {rest : List Char} (hrest : LineEnds rest) :
    scan (e.text ++ rest) = (⟨e.text ++ rest, 2 * e.depth, e.heard⟩, rest) := by
  obtain ⟨hspace, hcomment⟩ := head_nodeText e.name e.content hrest
  have hindent : splitWhile (· == ' ') (e.text ++ rest) =
      (indentation e.depth, nodeText e.name e.content ++ rest) := by
    rw [Entry.text, List.append_assoc]
    refine splitWhile_append (fun c hc => ?_) fun c hc => ?_
    · simp [List.eq_of_mem_replicate hc]
    · simpa using fun heq : c = ' ' => hspace (heq ▸ hc)
  have hbody : scanBody (nodeText e.name e.content ++ rest) = (e.heard, rest) := by
    simp only [scanBody, hcomment, Bool.false_eq_true, if_false, scanNode_nodeText e hrest,
      dropWhile_isBlank hrest]
  simp only [scan, hindent, hbody]
  simp [indentation]

end Line

end TreeScript
