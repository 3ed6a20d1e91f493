import TreeScript.Document.Reader
import TreeScript.Proofs.Text.Quote

/-!
# TreeScript — a nested document is read like any other

The text of a typed value is shorter than the text that it stands in, so a bound on the depth of
nested documents that is larger than the text is never reached. Reading then needs no bound:
a nested document is what is read of its own text.

* `Line.of_mem_scanAll` — lines have been scanned one by one;
* `Line.length_typed_lt` — typed values are shorter than the text around them;
* `Document.readWithin_congr` — large bounds do not matter;
* `Document.read_eq` — reading without a bound.
-/

namespace TreeScript

open Text

-- ---------------------------------------------------------------------------
-- How long a value is
-- ---------------------------------------------------------------------------

theorem Text.length_scanQuoted_body {cs body rest : List Char}
    (h : scanQuoted cs = some (body, rest)) : body.length ≤ cs.length := by
  fun_induction scanQuoted cs generalizing body <;> grind [Option.map_eq_some_iff]

theorem Text.length_scanVerbatim_body {cs body rest : List Char}
    (h : scanVerbatim cs = some (body, rest)) : body.length ≤ cs.length := by
  fun_induction scanVerbatim cs generalizing body <;> grind [Option.map_eq_some_iff]

namespace Line

theorem length_scanBare_body (cs : List Char) : (scanBare cs).1.length ≤ cs.length := by
  have htrim := trimEnd_prefix (cs.takeWhile fun c => !isLineEnd c)
  exact Nat.le_trans htrim.length_le (List.takeWhile_sublist _).length_le

theorem length_scanText_body (cs : List Char) : (scanText cs).1.length ≤ cs.length := by
  have hbare := length_scanBare_body cs
  unfold scanText
  split
  next rest =>
    cases h : scanVerbatim rest with
    | none => exact hbare
    | some r =>
      have := length_scanVerbatim_body h
      simp only [Option.getD_some, List.length_cons]
      omega
  next rest =>
    cases h : scanQuoted rest with
    | none => exact hbare
    | some r =>
      have := length_scanQuoted_body h
      simp only [Option.getD_some, List.length_cons]
      omega
  next => exact hbare

/-- A typed value stands behind a colon. -/
theorem length_scanValue_typed {cs word inner : List Char}
    (h : (scanValue cs).1 = .typed word inner) : inner.length < cs.length := by
  unfold scanValue at h
  split at h
  next rest =>
    split at h
    next word' rest' hsplit =>
      have hrest := splitType?_length hsplit
      have hbody := length_scanText_body rest'
      obtain ⟨-, rfl⟩ := Value.typed.inj h
      rw [List.length_cons]
      omega
    next => simp at h
  next => simp at h

/-- The text of a typed value is shorter than that of its node: the colon is not part of it. -/
theorem length_scanNode_typed {cs word inner : List Char} {node : Node}
    (h : (scanNode cs).1 = some node) (hv : node.value = .typed word inner) :
    inner.length < cs.length := by
  have hname := scanName_length cs
  unfold scanNode at h
  simp only at h
  split at h
  next => simp at h
  next =>
    obtain rfl := Option.some.inj h
    exact Nat.lt_of_lt_of_le (length_scanValue_typed hv) hname

/-- The text of a typed value is shorter than that of its line. -/
theorem length_scan_typed {cs word inner : List Char} {node : Node}
    (h : (scan cs).1.node = some node) (hv : node.value = .typed word inner) :
    inner.length < cs.length := by
  have hspaces := dropWhile_length_le (· == ' ') cs
  have hbody : (scanBody (cs.dropWhile (· == ' '))).1 = some node := h
  unfold scanBody at hbody
  simp only at hbody
  split at hbody
  next => simp at hbody
  next =>
    have hnode := length_scanNode_typed hbody hv
    omega

/-- Every line of a text is scanned from its own beginning on. -/
theorem of_mem_scanAll {cs : List Char} {lines : List Line} (hlines : scanAll cs = .ok lines)
    {line : Line} (hline : line ∈ lines) :
    line = (scan line.tail).1 ∧ line.tail.length ≤ cs.length := by
  fun_induction scanAll cs generalizing lines with
  | case1 cs first rest hscan next hnext ih =>
    cases hmore : scanAll next with
    | error _ => simp [hmore, Except.map] at hlines
    | ok more =>
      rw [hmore] at hlines
      obtain rfl := Except.ok.inj hlines
      rcases List.mem_cons.1 hline with rfl | hline
      · obtain rfl : (scan cs).1 = line := by rw [hscan]
        exact ⟨rfl, Nat.le_refl _⟩
      · obtain ⟨hself, hshort⟩ := ih hmore hline
        have hscanned := scan_length cs
        have hended := afterLineEnd?_length hnext
        rw [hscan] at hscanned
        simp only at hscanned
        exact ⟨hself, by omega⟩
  | case2 cs first hscan hend =>
    obtain rfl := Except.ok.inj hlines
    obtain rfl := List.mem_singleton.1 hline
    obtain rfl : (scan cs).1 = line := by rw [hscan]
    exact ⟨rfl, Nat.le_refl _⟩
  | case3 => simp at hlines

/-- The text of a typed value is shorter than the text that it stands in. -/
theorem length_typed_lt {cs : List Char} {lines : List Line} (hlines : scanAll cs = .ok lines)
    {line : Line} (hline : line ∈ lines) {node : Node} (hnode : line.node = some node)
    {word inner : List Char} (hv : node.value = .typed word inner) : inner.length < cs.length := by
  obtain ⟨hself, hle⟩ := of_mem_scanAll hlines hline
  rw [hself] at hnode
  exact Nat.lt_of_lt_of_le (length_scan_typed hnode hv) hle

end Line

-- ---------------------------------------------------------------------------
-- Reading without a bound
-- ---------------------------------------------------------------------------

namespace Document

/-- Readers of nested documents that agree on shorter texts read the same lines. -/
theorem entries_congr {r r' : List Char → Except ReadError (List Doc)} {text : List Char}
    {lines : List Line}
    (h : ∀ line ∈ lines, ∀ node, line.node = some node → ∀ word inner,
      node.value = .typed word inner → r inner = r' inner) (limit : Nat) :
    entries r text limit lines = entries r' text limit lines := by
  induction lines generalizing limit with
  | nil => rfl
  | cons line rest ih =>
    obtain ⟨hhead, htail⟩ := List.forall_mem_cons.1 h
    cases hnode : line.node with
    | none =>
      rw [entries, entries, hnode]
      exact ih htail limit
    | some node =>
      -- the reader is asked for nested texts only
      have hcontent : ∀ fault, content r fault node.value = content r' fault node.value := by
        intro fault
        cases hv : node.value with
        | absent => rfl
        | untyped _ => rfl
        | typed word inner => rw [content, content, hhead node hnode word inner hv]
      have hentry : ∀ fault, entry r limit fault line.indent node =
          entry r' limit fault line.indent node := by
        intro fault
        rw [entry, entry, hcontent]
      rw [entries, entries, hnode]
      simp only [hentry, ih htail]

/-- A forest that has been read to its end, or the fault. -/
def outcome : List Doc × Option ReadError → Except ReadError (List Doc)
  | (docs, none) => .ok docs
  | (_, some e) => .error e

/-- A document is cut into lines and then read line by line, nested documents with one level less to
go. -/
theorem readWithin_succ (fuel : Nat) (text : List Char) : readWithin (fuel + 1) text =
    match Line.scanAll text with
    | .error tail => ([], some (.grammar (Position.ofTail text tail)))
    | .ok lines =>
      (Doc.ofEntries (entries (fun inner => outcome (readWithin fuel inner)) text 0 lines).1,
        (entries (fun inner => outcome (readWithin fuel inner)) text 0 lines).2) := by
  rw [readWithin]
  cases Line.scanAll text <;> rfl

/-- A reading that may nest as deep as its text is long does not depend on the bound. -/
theorem readWithin_congr {fuel fuel' : Nat} {text : List Char} (h : text.length < fuel)
    (h' : text.length < fuel') : readWithin fuel text = readWithin fuel' text := by
  induction fuel generalizing fuel' text with
  | zero => omega
  | succ fuel ih =>
    obtain ⟨fuel', rfl⟩ : ∃ k, fuel' = k + 1 := ⟨fuel' - 1, by omega⟩
    rw [readWithin_succ, readWithin_succ]
    cases hlines : Line.scanAll text with
    | error tail => rfl
    | ok lines =>
      have hentries : entries (fun inner => outcome (readWithin fuel inner)) text 0 lines =
          entries (fun inner => outcome (readWithin fuel' inner)) text 0 lines := by
        refine entries_congr (fun line hline node hnode word inner hv => ?_) 0
        have hshort := Line.length_typed_lt hlines hline hnode hv
        have hsame : readWithin fuel inner = readWithin fuel' inner := ih (by omega) (by omega)
        rw [hsame]
      simp only [hentries]

theorem read_eq_outcome (text : String) :
    read text = outcome (readWithin (text.toList.length + 1) text.toList) := rfl

/-- A text is read line by line, and a nested document like any other. -/
theorem read_eq (text : String) : read text =
    match Line.scanAll text.toList with
    | .error tail => .error (.grammar (Position.ofTail text.toList tail))
    | .ok lines =>
      match entries (fun inner => read (String.ofList inner)) text.toList 0 lines with
      | (xs, none) => .ok (Doc.ofEntries xs)
      | (_, some e) => .error e := by
  rw [read_eq_outcome, readWithin_succ]
  cases hlines : Line.scanAll text.toList with
  | error tail => rfl
  | ok lines =>
    -- a nested text is shorter, so the fuel for the whole is enough for it
    have hentries :
        entries (fun inner => outcome (readWithin text.toList.length inner)) text.toList 0 lines =
          entries (fun inner => read (String.ofList inner)) text.toList 0 lines := by
      refine entries_congr (fun line hline node hnode word inner hv => ?_) 0
      have hshort := Line.length_typed_lt hlines hline hnode hv
      have hsame : readWithin text.toList.length inner = readWithin (inner.length + 1) inner :=
        readWithin_congr hshort (Nat.lt_succ_self _)
      rw [read_eq_outcome, String.toList_ofList, hsame]
    simp only [hentries]
    rcases entries (fun inner => read (String.ofList inner)) text.toList 0 lines with ⟨xs, _ | e⟩
    · rfl
    · rfl

end Document

end TreeScript
