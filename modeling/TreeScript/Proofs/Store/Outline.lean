import TreeScript.Proofs.Document.Grammar
import TreeScript.Proofs.Document.Nesting
import TreeScript.Proofs.Document.Reread
import TreeScript.Proofs.Store.Copies
import TreeScript.Proofs.Store.Load

/-!
# TreeScript — indentation builds the tree

Of the lines of a text those count that show a node: comments and lines of white space are passed
over, however deep they stand. The first line that counts stands at the margin, each further one
at most two spaces deeper than the one before it, all of them at an even number of spaces, and
their values convert. Then the lines are the nodes below the new root as they are met on the way
through the tree, each at its depth. Else the first line that breaks a rule is reported, with the
first rule that it breaks.

* `Line.Silent`, `Line.node_eq_none_iff` — lines that are passed over;
* `Line.Fits`, `Line.Wrong`, `Line.Gives` — what one line comes to;
* `Document.AllFit`, `Document.FirstWrong`, `Document.entries_outline` — what all lines come to;
* `Store.load_outline` — what a text comes to.
-/

namespace TreeScript

open Text

-- ---------------------------------------------------------------------------
-- Lines that are passed over
-- ---------------------------------------------------------------------------

namespace Line

/-- A line, from its beginning on, that shows no node: behind its spaces stands a comment, or
nothing but white space up to its end. -/
def Silent (tail : List Char) : Prop :=
  ['/', '/'].isPrefixOf (tail.dropWhile (· == ' ')) = true ∨
    ∀ c ∈ (tail.dropWhile (· == ' ')).takeWhile (fun c => !isLineEnd c), isSpace c = true

/-- A name that has been cut off at its colon, or at the end of its line, is all of a blank line
or none of it. -/
theorem blank_iff {cs : List Char} :
    (∀ c ∈ cs.takeWhile (fun c => !isLineEnd c), isSpace c = true) ↔
      (∀ c ∈ cs.takeWhile (fun c => !(c == ':' || isLineEnd c)), isSpace c = true) ∧
        (cs.dropWhile (fun c => !(c == ':' || isLineEnd c))).head? ≠ some ':' := by
  induction cs with
  | nil => simp
  | cons c rest ih =>
    by_cases hcolon : c = ':'
    · subst hcolon
      have hspace : isSpace ':' = false := by decide
      have hend : isLineEnd ':' = false := by decide
      simp [hspace, hend]
    · by_cases hend : isLineEnd c = true
      · simp [hcolon, hend]
      · have hline : (!isLineEnd c) = true := by simp [hend]
        have hname : (!(c == ':' || isLineEnd c)) = true := by simp [hcolon, hend]
        rw [List.takeWhile_cons, if_pos hline, List.takeWhile_cons, if_pos hname,
          List.dropWhile_cons, if_pos hname, List.forall_mem_cons, List.forall_mem_cons, ih,
          and_assoc]

/-- A node of white space only is none. -/
theorem scanNode_eq_none_iff {cs : List Char} :
    (scanNode cs).1 = none ↔
      ∀ c ∈ cs.takeWhile (fun c => !isLineEnd c), isSpace c = true := by
  have hbare : ∀ name rest, scanName cs = (name, false, rest) →
      ((scanNode cs).1 = none ↔ name = [] ∧ (scanValue rest).1 = .absent) := by
    intro name rest hname
    simp only [scanNode, hname]
    split
    next h => simpa using h
    next h => simpa using h
  have hblank : (scanName cs).2.1 = false →
      scanName cs = (trimEnd (cs.takeWhile fun c => !(c == ':' || isLineEnd c)), false,
        cs.dropWhile fun c => !(c == ':' || isLineEnd c)) := by
    unfold scanName
    split
    · split
      next => simp
      next => exact fun _ => rfl
    · exact fun _ => rfl
  cases hquoted : (scanName cs).2.1 with
  | false =>
    rw [hbare _ _ (hblank hquoted), trimEnd_eq_nil_iff, scanValue_eq_absent_iff, blank_iff]
  | true =>
    -- a quoted name begins with a quote, which is no white space
    obtain ⟨rest, rfl⟩ : ∃ rest, cs = '"' :: rest := by
      unfold scanName at hquoted
      split at hquoted
      next rest => exact ⟨rest, rfl⟩
      next => simp at hquoted
    have hspace : isSpace '"' = false := by decide
    have hend : isLineEnd '"' = false := by decide
    simp [scanNode, hquoted, hspace, hend]

/-- A line shows no node exactly if it is a comment or blank. -/
theorem scan_node_eq_none_iff {cs : List Char} : (scan cs).1.node = none ↔ Silent cs := by
  have hbody : (scan cs).1.node = (scanBody (cs.dropWhile (· == ' '))).1 := rfl
  rw [hbody, Silent, scanBody]
  by_cases hcomment : ['/', '/'].isPrefixOf (cs.dropWhile (· == ' ')) = true
  · simp [hcomment]
  · rw [← scanNode_eq_none_iff]
    simp [hcomment]

end Line

-- ---------------------------------------------------------------------------
-- One line
-- ---------------------------------------------------------------------------

/-- The content that the value on a line stands for, or what is wrong with it at the place of the
line. The text of a nested document is a text like any other. -/
def Line.Value.convert : Line.Value → Except (Position → ReadError) Doc.Content
  | .absent => .ok (.scalar none)
  | .untyped text => .ok (.scalar (some (.string (String.ofList text))))
  | .typed word text =>
    if word = "node".toList then
      match Document.read (String.ofList text) with
      | .ok docs => .ok (.nested docs)
      | .error e => .error (.nested e)
    else
      match Scalar.read (String.ofList word) (String.ofList text) true with
      | .ok v => .ok (.scalar (some v))
      | .error e => .error (.conversion e)

/-- A value that does not convert is a faulty document or a faulty scalar. -/
theorem Line.Value.convert_eq_error {value : Line.Value} {f : Position → ReadError}
    (h : value.convert = .error f) : (∃ e, f = .nested e) ∨ ∃ e, f = .conversion e := by
  cases value with
  | absent => simp [convert] at h
  | untyped text => simp [convert] at h
  | typed word text =>
    rw [convert] at h
    split at h
    · cases hread : Document.read (String.ofList text) with
      | ok docs => simp [hread] at h
      | error e => exact Or.inl ⟨e, by simpa [hread] using h.symm⟩
    · cases hread : Scalar.read (String.ofList word) (String.ofList text) true with
      | ok v => simp [hread] at h
      | error e => exact Or.inr ⟨e, by simpa [hread] using h.symm⟩

/-- What a line holds is its value, converted by the type that is written in front of it. -/
theorem Document.content_eq_convert (fault : (Position → ReadError) → ReadError)
    (value : Line.Value) :
    content (fun inner => read (String.ofList inner)) fault value =
      value.convert.mapError fault := by
  cases value with
  | absent => rfl
  | untyped text => rfl
  | typed word text =>
    rw [content, Line.Value.convert]
    by_cases hword : word = "node".toList
    · rw [if_pos hword, if_pos hword]
      cases read (String.ofList text) <;> rfl
    · rw [if_neg hword, if_neg hword]
      cases Scalar.read (String.ofList word) (String.ofList text) true <;> rfl

namespace Line

/-- A line with an even number of spaces, at most as many as allowed, and a value that converts. -/
structure Fits (line : Line) (allowed : Nat) : Prop where
  even : line.indent % 2 = 0
  level : line.indent ≤ allowed
  converts {node : Node} : line.node = some node → ∃ c, node.value.convert = .ok c

/-- What is wrong with a line: the first of the three that is. -/
inductive Wrong (line : Line) (allowed : Nat) : (Position → ReadError) → Prop where
  | odd (hodd : line.indent % 2 = 1) : Wrong line allowed .oddIndent
  | skipped (heven : line.indent % 2 = 0) (hdeep : allowed < line.indent) :
    Wrong line allowed .skippedLevel
  | value (heven : line.indent % 2 = 0) (hlevel : line.indent ≤ allowed) {node : Node}
    (hnode : line.node = some node) {f : Position → ReadError}
    (hf : node.value.convert = .error f) : Wrong line allowed f

/-- The node that a line shows, at the depth at which it stands. -/
def Gives (line : Line) (e : Doc.Entry) : Prop :=
  ∃ node, line.node = some node ∧ e.depth = line.indent / 2 ∧ e.name = String.ofList node.name ∧
    node.value.convert = .ok e.content

variable {line : Line} {allowed : Nat} {f : Position → ReadError}

theorem Wrong.not_fits (h : line.Wrong allowed f) : ¬ line.Fits allowed := by
  intro hfits
  cases h with
  | odd hodd =>
    have := hfits.even
    omega
  | skipped _ hdeep =>
    have := hfits.level
    omega
  | value _ _ hnode hf =>
    obtain ⟨c, hc⟩ := hfits.converts hnode
    rw [hc] at hf
    simp at hf

/-- What is wrong with a line is never that the text is refused. -/
theorem Wrong.isGrammar (h : line.Wrong allowed f) (place : Position) :
    (f place).isGrammar = false := by
  cases h with
  | odd _ => rfl
  | skipped _ _ => rfl
  | value _ _ _ hf =>
    obtain ⟨e, rfl⟩ | ⟨e, rfl⟩ := Value.convert_eq_error hf
    · rfl
    · rfl

end Line

namespace Document

/-- One line is read: it fits and gives its node, or the first thing that is wrong is found. -/
theorem entry_outline {line : Line} {node : Line.Node} (hnode : line.node = some node) (limit : Nat)
    (fault : (Position → ReadError) → ReadError) :
    (∃ x, entry (fun inner => read (String.ofList inner)) limit fault line.indent node = .ok x ∧
      line.Fits (2 * limit) ∧ line.Gives x) ∨
    ∃ f, entry (fun inner => read (String.ofList inner)) limit fault line.indent node =
      .error (fault f) ∧ line.Wrong (2 * limit) f := by
  rw [entry, content_eq_convert]
  -- the checks come in this order, and the first that fails is the fault of the line
  by_cases hodd : line.indent % 2 = 1
  · exact Or.inr ⟨_, by rw [if_pos (by omega)], .odd hodd⟩
  · have heven : line.indent % 2 = 0 := by omega
    rw [if_neg (by omega)]
    by_cases hdeep : limit < line.indent / 2
    · exact Or.inr ⟨_, by rw [if_pos hdeep], .skipped heven (by omega)⟩
    · have hlevel : line.indent ≤ 2 * limit := by omega
      rw [if_neg hdeep]
      cases hvalue : node.value.convert with
      | error f => exact Or.inr ⟨f, rfl, .value heven hlevel hnode hvalue⟩
      | ok c =>
        have hfits : line.Fits (2 * limit) := by
          refine ⟨heven, hlevel, fun {other} hother => ?_⟩
          obtain rfl := Option.some.inj (hnode.symm.trans hother)
          exact ⟨c, hvalue⟩
        exact Or.inl ⟨_, rfl, hfits, node, hnode, rfl, rfl, hvalue⟩

-- ---------------------------------------------------------------------------
-- All lines
-- ---------------------------------------------------------------------------

/-- The lines of a text that show a node. -/
def kept (lines : List Line) : List Line := lines.filter fun line => line.node.isSome

/-- How many spaces may stand in front of a line: two more than in front of the one before it. -/
def allowed (first : Nat) (lines : List Line) : Nat → Nat
  | 0 => first
  | i + 1 => ((lines[i]?).map fun line => line.indent + 2).getD 0

/-- How deep a line may be depends on the line before it. -/
theorem allowed_cons (first : Nat) (line : Line) (rest : List Line) (i : Nat) :
    allowed first (line :: rest) (i + 1) = allowed (line.indent + 2) rest i := by
  cases i with
  | zero => rfl
  | succ i => simp [allowed]

/-- Every line fits behind the one before it. -/
def AllFit (first : Nat) (lines : List Line) : Prop :=
  ∀ (i : Nat) (line : Line), lines[i]? = some line → line.Fits (allowed first lines i)

/-- A line does not fit and all in front of it do. What is wrong with it first is the error, at the
place where the line begins. -/
def FirstWrong (text : List Char) (first : Nat) (lines : List Line) (e : ReadError) : Prop :=
  ∃ (i : Nat) (line : Line) (f : Position → ReadError), lines[i]? = some line ∧
    (∀ j < i, ∀ before : Line, lines[j]? = some before → before.Fits (allowed first lines j)) ∧
    line.Wrong (allowed first lines i) f ∧ e = f (Position.ofTail text line.tail)

section

variable {text : List Char} {first : Nat} {line : Line} {rest : List Line} {e : ReadError}

/-- A line that fits in front of lines that do. -/
theorem AllFit.cons (hline : line.Fits first) (hrest : AllFit (line.indent + 2) rest) :
    AllFit first (line :: rest) := by
  intro i other hother
  cases i with
  | zero =>
    obtain rfl : line = other := by simpa using hother
    exact hline
  | succ i =>
    rw [allowed_cons]
    exact hrest i other (by simpa using hother)

theorem FirstWrong.head {f : Position → ReadError} (hline : line.Wrong first f) :
    FirstWrong text first (line :: rest) (f (Position.ofTail text line.tail)) :=
  ⟨0, line, f, rfl, fun j hj => absurd hj (Nat.not_lt_zero j), hline, rfl⟩

/-- The first line fits, and one behind it is the first that is wrong. -/
theorem FirstWrong.cons (hline : line.Fits first)
    (hrest : FirstWrong text (line.indent + 2) rest e) :
    FirstWrong text first (line :: rest) e := by
  obtain ⟨i, other, f, hother, hbefore, hwrong, rfl⟩ := hrest
  refine ⟨i + 1, other, f, by simpa using hother, fun j hj before hj' => ?_, ?_, rfl⟩
  · cases j with
    | zero =>
      obtain rfl : line = before := by simpa using hj'
      exact hline
    | succ j =>
      rw [allowed_cons]
      exact hbefore j (by omega) before (by simpa using hj')
  · rw [allowed_cons]
    exact hwrong

/-- Where there is a first wrong line, not all lines fit. -/
theorem FirstWrong.not_allFit (h : FirstWrong text first rest e) : ¬ AllFit first rest := by
  obtain ⟨i, line, f, hline, -, hwrong, -⟩ := h
  exact fun hfit => hwrong.not_fits (hfit i line hline)

/-- A wrong line is not a matter of the grammar. -/
theorem FirstWrong.isGrammar (h : FirstWrong text first rest e) : e.isGrammar = false := by
  obtain ⟨i, line, f, -, -, hwrong, rfl⟩ := h
  exact hwrong.isGrammar _

end

/-- The lines that show a node are read one after the other: if all of them fit, each gives its
node, and else the first that does not fit is reported. -/
theorem entries_outline (text : List Char) (lines : List Line) (limit : Nat) :
    let r := entries (fun inner => read (String.ofList inner)) text limit lines
    (r.2 = none ∧ AllFit (2 * limit) (kept lines) ∧ List.Forall₂ Line.Gives (kept lines) r.1) ∨
      ∃ e, r.2 = some e ∧ FirstWrong text (2 * limit) (kept lines) e := by
  induction lines generalizing limit with
  | nil => exact Or.inl ⟨rfl, fun i line hline => by simp [kept] at hline, .nil⟩
  | cons line rest ih =>
    cases hnode : line.node with
    -- a silent line changes nothing
    | none =>
      have hkept : kept (line :: rest) = kept rest := by simp [kept, hnode]
      rw [entries, hnode, hkept]
      exact ih limit
    | some node =>
      have hkept : kept (line :: rest) = line :: kept rest := by simp [kept, hnode]
      rw [entries, hnode, hkept]
      simp only
      rcases entry_outline hnode limit
          (fun f : Position → ReadError => f (Position.ofTail text line.tail)) with
        ⟨x, hx, hfits, hgives⟩ | ⟨f, hf, hwrong⟩
      -- the line below may be one level deeper
      · have hnext : 2 * (x.depth + 1) = line.indent + 2 := by
          have heven := hfits.even
          obtain ⟨-, -, hdepth, -⟩ := hgives
          omega
        rw [hx]
        rcases ih (x.depth + 1) with ⟨hnone, hall, hrest⟩ | ⟨e, he, hfirst⟩
        · rw [hnext] at hall
          exact Or.inl ⟨hnone, hall.cons hfits, .cons hgives hrest⟩
        · rw [hnext] at hfirst
          exact Or.inr ⟨e, he, hfirst.cons hfits⟩
      · rw [hf]
        exact Or.inr ⟨_, rfl, .head hwrong⟩

/-- A text whose lines all fit is the forest of these lines; any other text is refused for the first
line that does not fit. -/
theorem read_outline {text : String} {lines : List Line}
    (hlines : Line.scanAll text.toList = .ok lines) :
    (∃ docs, read text = .ok docs ∧ AllFit 0 (kept lines) ∧
      List.Forall₂ Line.Gives (kept lines) (Doc.forestEntries 0 docs)) ∨
    ∃ e, read text = .error e ∧ FirstWrong text.toList 0 (kept lines) e := by
  have houtline := entries_outline text.toList lines 0
  rw [read_eq, hlines]
  simp only at houtline ⊢
  cases hread : entries (fun inner => read (String.ofList inner)) text.toList 0 lines with
  | mk xs fault =>
    rw [hread] at houtline
    rcases houtline with ⟨hnone, hall, hgives⟩ | ⟨e, he, hfirst⟩
    · obtain rfl : fault = none := hnone
      have hstep := (stepwise_entries hread).atDepth
      exact Or.inl ⟨_, rfl, hall, by rwa [Doc.forestEntries_ofEntries hstep]⟩
    · obtain rfl : fault = some e := he
      exact Or.inr ⟨e, rfl, hfirst⟩

end Document

-- ---------------------------------------------------------------------------
-- A text
-- ---------------------------------------------------------------------------

namespace Store

variable {s : Store}

/-- Reading a text that the grammar cuts into lines into a store. What counts are the lines that are
no comments and not blank behind their spaces. The text is read if they all fit, and then the nodes
below the new root are these lines, each at half its spaces. Else the first line that does not fit
is reported. -/
theorem load_outline (hs : Balanced s) {text : String} {lines : List Line}
    (hgrammar : Line.Grammar.document.run text.toList = some (lines, [])) :
    (∀ line ∈ lines, line.indent = (line.tail.takeWhile (· == ' ')).length ∧
      (line ∉ Document.kept lines ↔ Line.Silent line.tail)) ∧
    ((∃ root t, s.load text = (.ok root, t)) ↔ Document.AllFit 0 (Document.kept lines)) ∧
    (∀ root t, s.load text = (.ok root, t) → ∃ docs, Bears t root (wholeShape docs) ∧
      List.Forall₂ Line.Gives (Document.kept lines) (Doc.forestEntries 0 docs)) ∧
    ∀ e t, s.load text = (.error e, t) →
      e.isGrammar = false ∧ Document.FirstWrong text.toList 0 (Document.kept lines) e := by
  have hlines := (Line.Grammar.run_document_eq_some_iff.1 hgrammar).2
  have hload := load_yields hs text
  refine ⟨fun line hline => ?_, ?_⟩
  -- a line is scanned from its own tail, so the tail tells whether it is silent
  · obtain ⟨hself, -⟩ := Line.of_mem_scanAll hlines hline
    refine ⟨by rw [hself]; rfl, ?_⟩
    rw [← Line.scan_node_eq_none_iff, ← hself, Document.kept, List.mem_filter, and_iff_right hline]
    simp
  -- loading yields what reading the text yields
  · rcases Document.read_outline hlines with ⟨docs, hread, hall, hgives⟩ | ⟨e, hread, hfirst⟩
    · rw [hread, Yields] at hload
      rw [hload]
      refine ⟨iff_of_true ⟨_, _, rfl⟩ hall, fun root t heq => ?_, fun e t heq => ?_⟩
      · obtain ⟨hroot, rfl⟩ := Prod.mk.inj heq
        obtain rfl := Except.ok.inj hroot
        exact ⟨docs, hs.bears_plant _, hgives⟩
      · simp at heq
    · rw [hread] at hload
      obtain ⟨t, hload, -⟩ := hload
      rw [hload]
      refine ⟨iff_of_false (by simp) hfirst.not_allFit, fun root u heq => by simp at heq,
        fun e' u heq => ?_⟩
      obtain ⟨he, -⟩ := Prod.mk.inj heq
      obtain rfl := Except.error.inj he
      exact ⟨hfirst.isGrammar, hfirst⟩

/-- Three nodes, of which one holds a document, between a comment and a line that is blank. -/
def outlined : String := "a\n   // note\n  b:node:\"c\\n  d\"\n \t\ne:int:7"

/-- A line that is two levels too deep, in front of one at an odd depth. -/
def skipping : String := "a\n    b\n c"

/-- A text with three nodes, which is loaded, and one with a line that is two levels too deep, which
is refused. -/
theorem load_outline_outlined : Balanced empty ∧
    (∃ lines, Line.Grammar.document.run outlined.toList = some (lines, []) ∧
      (Document.kept lines).length = 3 ∧ Document.AllFit 0 (Document.kept lines) ∧
      ∃ root t docs, empty.load outlined = (.ok root, t) ∧ Bears t root (wholeShape docs) ∧
        List.Forall₂ Line.Gives (Document.kept lines) (Doc.forestEntries 0 docs)) ∧
    ∃ lines e t, Line.Grammar.document.run skipping.toList = some (lines, []) ∧
      empty.load skipping = (.error e, t) ∧
      Document.FirstWrong skipping.toList 0 (Document.kept lines) e := by
  refine ⟨balanced_empty, ?_, ?_⟩
  -- three lines that make nodes
  · have hthree : (Line.scanAll outlined.toList).map (fun lines => (Document.kept lines).length) =
        .ok 3 := by decide +kernel
    have hloads : (empty.load outlined).1.toBool = true := by decide +kernel
    cases hlines : Line.scanAll outlined.toList with
    | error tail => simp [hlines, Except.map] at hthree
    | ok lines =>
      have hgrammar := Line.Grammar.run_document_eq_some_iff.2 ⟨rfl, hlines⟩
      obtain ⟨-, hfit, hgives, -⟩ := load_outline balanced_empty hgrammar
      rcases hload : empty.load outlined with ⟨e | root, t⟩
      · simp [hload, Except.toBool] at hloads
      · obtain ⟨docs, hbears, hall⟩ := hgives root t hload
        rw [hlines] at hthree
        exact ⟨lines, hgrammar, Except.ok.inj hthree, hfit.1 ⟨root, t, hload⟩, root, t, docs, rfl,
          hbears, hall⟩
  -- a line that is two levels deeper than the one before
  · have hscans : (Line.scanAll skipping.toList).toBool = true := by decide +kernel
    have hfails : (empty.load skipping).1.toBool = false := by decide +kernel
    cases hlines : Line.scanAll skipping.toList with
    | error tail => simp [hlines, Except.toBool] at hscans
    | ok lines =>
      have hgrammar := Line.Grammar.run_document_eq_some_iff.2 ⟨rfl, hlines⟩
      obtain ⟨-, -, -, hfirst⟩ := load_outline balanced_empty hgrammar
      rcases hload : empty.load skipping with ⟨e | root, t⟩
      · exact ⟨lines, e, t, hgrammar, rfl, (hfirst e t hload).2⟩
      · simp [hload, Except.toBool] at hfails

end Store

end TreeScript
