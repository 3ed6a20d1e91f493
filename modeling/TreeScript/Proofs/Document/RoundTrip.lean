import TreeScript.Proofs.Document.Line
import TreeScript.Document.Reader

/-!
# TreeScript — written documents are read back

A document is its lines, each with a depth, and reading the written lines gives the
same lines and so the same document. A nested document is a shorter text inside a
line, so reading it back is the same statement with less to read.

* `Doc.Readable` — names and dates that a text gives back, at every depth;
* `Doc.ofEntries_forestEntries` — a forest from its lines;
* `Line.scanAll_joined` — the lines of a written text;
* `Document.readWithin_joined`, `Document.read_renderForest` — documents.
-/

namespace TreeScript

namespace Doc

mutual

/-- All names and dates of a document, also of nested ones, are read back. -/
def Readable : Doc → Prop
  | .plain name value children =>
    NameReadable name.toList ∧ (∀ v ∈ value, v.Readable) ∧ AllReadable children
  | .holder name nested children =>
    NameReadable name.toList ∧ AllReadable nested ∧ AllReadable children

def AllReadable : List Doc → Prop
  | [] => True
  | d :: rest => Readable d ∧ AllReadable rest

end

/-- The same for a line. -/
def Entry.Readable (e : Entry) : Prop :=
  NameReadable e.name.toList ∧
    match e.content with
    | .scalar value => ∀ v ∈ value, v.Readable
    | .nested docs => AllReadable docs

-- ---------------------------------------------------------------------------
-- Lines of a forest
-- ---------------------------------------------------------------------------

mutual

/-- The lines of a node that is read back are so. -/
theorem readable_of_mem_entries {depth : Nat} : {d : Doc} → d.Readable →
    ∀ e ∈ entries depth d, e.Readable
  | .plain name value children, h, e, he => by
    rw [Doc.Readable] at h
    rw [entries, List.mem_cons] at he
    rcases he with rfl | he
    · exact ⟨h.1, h.2.1⟩
    · exact readable_of_mem_forestEntries h.2.2 e he
  | .holder name nested children, h, e, he => by
    rw [Doc.Readable] at h
    rw [entries, List.mem_cons] at he
    rcases he with rfl | he
    · exact ⟨h.1, h.2.1⟩
    · exact readable_of_mem_forestEntries h.2.2 e he

/-- The lines of a forest that is read back are so. -/
theorem readable_of_mem_forestEntries {depth : Nat} : {docs : List Doc} → AllReadable docs →
    ∀ e ∈ forestEntries depth docs, e.Readable
  | [], _, e, he => by simp [forestEntries] at he
  | d :: rest, h, e, he => by
    rw [AllReadable] at h
    rw [forestEntries, List.mem_append] at he
    rcases he with he | he
    · exact readable_of_mem_entries h.1 e he
    · exact readable_of_mem_forestEntries h.2 e he

end

mutual

/-- What stands below a depth is at least as deep. -/
theorem le_depth_of_mem_entries {depth : Nat} : {d : Doc} → ∀ e ∈ entries depth d, depth ≤ e.depth
  | .plain name value children, e, he => by
    rw [entries, List.mem_cons] at he
    rcases he with rfl | he
    · exact Nat.le_refl _
    · exact Nat.le_of_succ_le (le_depth_of_mem_forestEntries e he)
  | .holder name nested children, e, he => by
    rw [entries, List.mem_cons] at he
    rcases he with rfl | he
    · exact Nat.le_refl _
    · exact Nat.le_of_succ_le (le_depth_of_mem_forestEntries e he)

/-- No line of a forest is above the forest's own depth. -/
theorem le_depth_of_mem_forestEntries {depth : Nat} : {docs : List Doc} →
    ∀ e ∈ forestEntries depth docs, depth ≤ e.depth
  | [], e, he => by simp [forestEntries] at he
  | d :: rest, e, he => by
    rw [forestEntries, List.mem_append] at he
    rcases he with he | he
    · exact le_depth_of_mem_entries e he
    · exact le_depth_of_mem_forestEntries e he

end

/-- A node is written as its own line and those of its children one level deeper. -/
theorem entries_eq_cons (depth : Nat) (d : Doc) :
    entries depth d = ⟨depth, d.name, d.content⟩ :: forestEntries (depth + 1) d.children := by
  cases d <;> rw [entries] <;> rfl

/-- A node is made of its name, its content and its children. -/
theorem make_name_content (d : Doc) : make d.name d.content d.children = d := by
  cases d <;> rfl

/-- The children are smaller than the forest around them. -/
theorem sizeOf_children_lt (d : Doc) (rest : List Doc) :
    sizeOf d.children < sizeOf (d :: rest) := by
  cases d <;> simp [children] <;> omega

/-- The later trees are smaller than the whole forest. -/
theorem sizeOf_tail_lt (d : Doc) (rest : List Doc) : sizeOf rest < sizeOf (d :: rest) := by
  simp

/-- A forest is made of its lines. -/
theorem ofEntries_forestEntries (depth : Nat) (docs : List Doc) :
    ofEntries (forestEntries depth docs) = docs := by
  match docs with
  | [] =>
    rw [forestEntries]
    simp [ofEntries]
  | d :: rest =>
    -- the lines below the first node are the deeper ones that follow it
    have hbelow : ∀ e ∈ forestEntries (depth + 1) d.children, decide (depth < e.depth) = true :=
      fun e he => by simpa using le_depth_of_mem_forestEntries e he
    have hrest : ∀ e ∈ (forestEntries depth rest).head?, decide (depth < e.depth) = false := by
      intro e he
      cases rest with
      | nil => simp [forestEntries] at he
      | cons d' rest =>
        rw [forestEntries, entries_eq_cons, List.cons_append, List.head?_cons] at he
        obtain rfl := Option.some.inj he
        simp
    have htake : (forestEntries (depth + 1) d.children ++ forestEntries depth rest).takeWhile
        (fun e => decide (depth < e.depth)) = forestEntries (depth + 1) d.children := by
      rw [List.takeWhile_append_of_pos hbelow]
      cases h : forestEntries depth rest with
      | nil => simp
      | cons e es => simp [hrest e (by simp [h])]
    have hdrop : (forestEntries (depth + 1) d.children ++ forestEntries depth rest).dropWhile
        (fun e => decide (depth < e.depth)) = forestEntries depth rest := by
      rw [List.dropWhile_append_of_pos hbelow]
      cases h : forestEntries depth rest with
      | nil => simp
      | cons e es => simp [hrest e (by simp [h])]
    rw [forestEntries, entries_eq_cons, List.cons_append, ofEntries]
    simp only [htake, hdrop]
    rw [ofEntries_forestEntries (depth + 1) d.children, ofEntries_forestEntries depth rest,
      make_name_content]
termination_by sizeOf docs
decreasing_by
  · exact sizeOf_children_lt _ _
  · exact sizeOf_tail_lt _ _

/-- No line is more than one level deeper than the line before it. -/
def Stepwise : (limit : Nat) → List Entry → Prop
  | _, [] => True
  | limit, e :: rest => e.depth ≤ limit ∧ Stepwise (e.depth + 1) rest

/-- The lines of a forest go down step by step, and so does what follows it if it does from every
level that the forest may have ended at. -/
theorem stepwise_append_forestEntries {limit depth : Nat} (hle : depth ≤ limit) (docs : List Doc)
    {es : List Entry} (hes : ∀ limit, depth ≤ limit → Stepwise limit es) :
    Stepwise limit (forestEntries depth docs ++ es) := by
  match docs with
  | [] =>
    rw [forestEntries]
    exact hes limit hle
  | d :: rest =>
    rw [forestEntries, entries_eq_cons, List.cons_append, List.cons_append, List.append_assoc]
    refine ⟨hle, stepwise_append_forestEntries (Nat.le_refl _) d.children fun limit' hle' => ?_⟩
    exact stepwise_append_forestEntries (Nat.le_of_succ_le hle') rest hes
termination_by sizeOf docs
decreasing_by
  · exact sizeOf_tail_lt _ _
  · exact sizeOf_children_lt _ _

/-- The lines of a whole document go down step by step. -/
theorem stepwise_forestEntries (docs : List Doc) : Stepwise 0 (forestEntries 0 docs) := by
  have h : Stepwise 0 (forestEntries 0 docs ++ []) :=
    stepwise_append_forestEntries (Nat.le_refl 0) docs fun _ _ => trivial
  rwa [List.append_nil] at h

-- ---------------------------------------------------------------------------
-- The text of a forest
-- ---------------------------------------------------------------------------

/-- Lines with a line end between them. -/
def joined : List Entry → List Char
  | [] => []
  | [e] => e.text
  | e :: rest => e.text ++ '\n' :: joined rest

/-- A line end stands in front of all lines but the first. -/
theorem joined_cons (e : Entry) (rest : List Entry) :
    joined (e :: rest) = e.text ++ (if rest = [] then [] else '\n' :: joined rest) := by
  cases rest <;> simp [joined]

mutual

theorem lines_eq (depth : Nat) : (d : Doc) →
    lines depth d = (entries depth d).flatMap fun e => e.text ++ ['\n']
  | .plain name value children => by
    rw [lines, entries, List.flatMap_cons, forestLines_eq (depth + 1) children]
    simp [Entry.text, nodeText]
  | .holder name nested children => by
    rw [lines, entries, List.flatMap_cons, forestLines_eq (depth + 1) children]
    simp [Entry.text, nodeText]

theorem forestLines_eq (depth : Nat) : (docs : List Doc) →
    forestLines depth docs = (forestEntries depth docs).flatMap fun e => e.text ++ ['\n']
  | [] => by rw [forestLines, forestEntries, List.flatMap_nil]
  | d :: rest => by
    rw [forestLines, forestEntries, List.flatMap_append, lines_eq depth d, forestLines_eq depth rest]

end

/-- Lines with their ends are lines with ends between them, and a last end. -/
theorem flatMap_eq_joined {es : List Entry} (hne : es ≠ []) :
    es.flatMap (fun e => e.text ++ ['\n']) = joined es ++ ['\n'] := by
  induction es with
  | nil => exact absurd rfl hne
  | cons e rest ih =>
    rw [List.flatMap_cons, joined_cons]
    by_cases hrest : rest = []
    · simp [hrest]
    · simp [hrest, ih hrest]

/-- The text of a forest is its lines with a line end between them. -/
theorem dropLineEnd_forestLines (docs : List Doc) :
    dropLineEnd (forestLines 0 docs) = joined (forestEntries 0 docs) := by
  rw [forestLines_eq]
  by_cases hnil : forestEntries 0 docs = []
  · simp [hnil, dropLineEnd, joined]
  · simp [flatMap_eq_joined hnil, dropLineEnd]

/-- A line is no longer than the text it stands in. -/
theorem length_text_le_joined {es : List Entry} {e : Entry} (he : e ∈ es) :
    e.text.length ≤ (joined es).length := by
  induction es with
  | nil => simp at he
  | cons e' rest ih =>
    rw [joined_cons, List.length_append]
    rcases List.mem_cons.1 he with rfl | he
    · omega
    · have hne : rest ≠ [] := List.ne_nil_of_mem he
      have := ih he
      simp only [if_neg hne, List.length_cons]
      omega

/-- A nested document is shorter than its line. -/
theorem length_nested_lt_text {e : Entry} {docs : List Doc} (h : e.content = .nested docs) :
    (joined (forestEntries 0 docs)).length < e.text.length := by
  have := Text.length_verbatim (dropLineEnd (forestLines 0 docs))
  rw [Entry.text, h, nodeText, holderText, List.length_append, List.length_append]
  rw [dropLineEnd_forestLines] at *
  omega

end Doc

-- ---------------------------------------------------------------------------
-- Cutting the text into lines
-- ---------------------------------------------------------------------------

namespace Line

/-- The lines of a written text as they are cut. -/
def ofEntries : List Doc.Entry → List Line
  | [] => []
  | e :: rest =>
    ⟨Doc.joined (e :: rest), 2 * e.depth, e.heard⟩ :: ofEntries rest

/-- An empty text has one line without anything on it. -/
theorem scanAll_nil : scanAll [] = .ok [⟨[], 0, none⟩] := by
  rw [scanAll]
  rfl

/-- A written text is cut into the lines it was written from. -/
theorem scanAll_joined {es : List Doc.Entry} (hne : es ≠ []) :
    scanAll (Doc.joined es) = .ok (ofEntries es) := by
  induction es with
  | nil => exact absurd rfl hne
  | cons e rest ih =>
    by_cases hnil : rest = []
    · subst hnil
      have hscan := scan_text e Text.lineEnds_nil
      rw [List.append_nil] at hscan
      rw [Doc.joined, scanAll, hscan]
      rfl
    · have hscan := scan_text e (Text.lineEnds_newline (Doc.joined rest))
      rw [ofEntries, Doc.joined_cons, if_neg hnil, scanAll, hscan]
      simp only
      split
      next next hnext =>
        obtain rfl : Doc.joined rest = next := by simpa [afterLineEnd?] using hnext
        rw [ih hnil]
        rfl
      next hnext => simp [afterLineEnd?] at hnext

end Line

-- ---------------------------------------------------------------------------
-- Reading
-- ---------------------------------------------------------------------------

namespace Document

open Doc

/-- The content of a written line is read back, if nested documents are. -/
theorem content_lineValue {readNested : List Char → Except ReadError (List Doc)}
    {fault : (Position → ReadError) → ReadError} {e : Entry} (he : e.Readable)
    (hnested : ∀ docs, e.content = .nested docs →
      readNested (dropLineEnd (forestLines 0 docs)) = .ok docs) :
    content readNested fault e.content.lineValue = .ok e.content := by
  obtain ⟨-, hcontent⟩ := he
  match h : e.content with
  | .scalar none => rfl
  | .scalar (some v) =>
    rw [h] at hcontent
    by_cases hstring : ∃ s, v = .string s
    · obtain ⟨s, rfl⟩ := hstring
      simp [Content.lineValue, content]
    · obtain ⟨-, hvalue⟩ := Content.text_of_ne_string fun s hs => hstring ⟨s, hs⟩
      rw [hvalue, content, if_neg (Line.name_ne_node v.kind), String.ofList_toList,
        Scalar.read_chars (hcontent v rfl)]
  | .nested docs =>
    rw [Content.lineValue, content, if_pos rfl, hnested docs h]

/-- The nodes of a written text are read back. -/
theorem entries_ofEntries {readNested : List Char → Except ReadError (List Doc)} {text : List Char}
    {es : List Entry} (hes : ∀ e ∈ es, e.Readable)
    (hnested : ∀ e ∈ es, ∀ docs, e.content = .nested docs →
      readNested (dropLineEnd (forestLines 0 docs)) = .ok docs)
    {limit : Nat} (hstep : Stepwise limit es) :
    entries readNested text limit (Line.ofEntries es) = (es, none) := by
  induction es generalizing limit with
  | nil => rfl
  | cons e rest ih =>
    obtain ⟨hhead, hrest⟩ := List.forall_mem_cons.1 hes
    obtain ⟨hnested₀, hnested'⟩ := List.forall_mem_cons.1 hnested
    obtain ⟨hdepth, hstep'⟩ := hstep
    have hentry : ∀ fault, entry readNested limit fault (2 * e.depth)
        ⟨e.name.toList, e.content.lineValue⟩ = .ok e := by
      intro fault
      have hhalf : 2 * e.depth / 2 = e.depth := by omega
      rw [entry, if_neg (by omega), hhalf, if_neg (by omega)]
      simp only [content_lineValue hhead hnested₀, String.ofList_toList]
    simp only [Line.ofEntries, entries, Entry.heard_eq hhead.1, hentry, ih hrest hnested' hstep']

/-- A written document is read back, if the bound exceeds the length of its text. -/
theorem readWithin_joined {fuel : Nat} {docs : List Doc} (hdocs : AllReadable docs)
    (hfuel : (joined (forestEntries 0 docs)).length < fuel) :
    readWithin fuel (joined (forestEntries 0 docs)) = (docs, none) := by
  induction fuel generalizing docs with
  | zero => omega
  | succ fuel ih =>
    by_cases hnil : forestEntries 0 docs = []
    · have hdocs : docs = [] := by
        have := ofEntries_forestEntries 0 docs
        rw [hnil, ofEntries] at this
        exact this.symm
      subst hdocs
      rw [hnil, joined, readWithin, Line.scanAll_nil]
      simp [entries, ofEntries]
    · have hreadable : ∀ e ∈ forestEntries 0 docs, e.Readable := readable_of_mem_forestEntries hdocs
      have hscan := Line.scanAll_joined hnil
      simp only [readWithin, hscan]
      rw [entries_ofEntries hreadable ?nested (stepwise_forestEntries docs), ofEntries_forestEntries]
      -- nested documents are shorter, so the smaller bound does for them
      intro e he nested hnested
      have hinner : AllReadable nested := by
        have := (hreadable e he).2
        rwa [hnested] at this
      have hlen := length_nested_lt_text hnested
      have hle := length_text_le_joined he
      simp only [dropLineEnd_forestLines, ih hinner (by omega)]

/-- Reading what has been written gives the document back. -/
theorem read_renderForest {docs : List Doc} (hdocs : AllReadable docs) :
    read (renderForest docs) = .ok docs := by
  have hread := readWithin_joined hdocs (Nat.lt_succ_self _)
  simp only [read, readUpTo, renderForest, String.toList_ofList, dropLineEnd_forestLines, hread]

end Document

end TreeScript
