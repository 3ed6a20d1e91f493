import TreeScript.Proofs.Document.RoundTrip

/-!
# TreeScript — what is read back is written again

Whatever a written text is read as, writing that gives the same text with some characters
left out. If none is left out, all names and dates of the document are such as a text
gives back. So reading back gives the same document, or an equal snapshot, only then.

* `Doc.forestEntries_ofEntries` — lines from the forest that is made of them;
* `Document.shrinks_entries`, `Document.shrinks_readWithin` — what may be left out;
* `Document.read_renderForest_iff` — documents that are read back;
* `Doc.forestLines_snapshotAll` — a snapshot determines the text.
-/

namespace TreeScript

namespace Doc

-- ---------------------------------------------------------------------------
-- Lines and their forest
-- ---------------------------------------------------------------------------

/-- Only the first line counts for how deep the lines may begin. -/
theorem Stepwise.of_head {limit limit' : Nat} {es : List Entry} (h : Stepwise limit es)
    (hhead : ∀ e ∈ es.head?, e.depth ≤ limit') : Stepwise limit' es := by
  cases es with
  | nil => trivial
  | cons e rest => exact ⟨hhead e rfl, h.2⟩

/-- The front of lines that go down step by step does so. -/
theorem Stepwise.takeWhile {limit : Nat} {es : List Entry} (h : Stepwise limit es)
    (p : Entry → Bool) : Stepwise limit (es.takeWhile p) := by
  induction es generalizing limit with
  | nil => trivial
  | cons e rest ih =>
    rw [List.takeWhile_cons]
    split
    next => exact ⟨h.1, ih h.2⟩
    next => trivial

/-- Some lines at the end of stepwise lines are stepwise, from wherever they begin. -/
theorem Stepwise.dropWhile {limit : Nat} {es : List Entry} (h : Stepwise limit es)
    (p : Entry → Bool) : ∃ limit', Stepwise limit' (es.dropWhile p) := by
  induction es generalizing limit with
  | nil => exact ⟨0, trivial⟩
  | cons e rest ih =>
    rw [List.dropWhile_cons]
    split
    next => exact ih h.2
    next => exact ⟨limit, h⟩

/-- Lines of a forest at a depth: the first is at that depth, and none is above it. -/
structure AtDepth (depth : Nat) (es : List Entry) : Prop where
  stepwise : Stepwise depth es
  deep : ∀ e ∈ es, depth ≤ e.depth

/-- Lines that begin at the top and go down step by step are those of a forest. -/
theorem Stepwise.atDepth {es : List Entry} (h : Stepwise 0 es) : AtDepth 0 es :=
  ⟨h, fun _ _ => Nat.zero_le _⟩

section

variable {depth : Nat} {e : Entry} {rest : List Entry}

/-- The first line is at the depth of the forest. -/
theorem AtDepth.head (h : AtDepth depth (e :: rest)) : e.depth = depth :=
  Nat.le_antisymm h.stepwise.1 (h.deep e (by simp))

/-- What stands below the first node of a forest is a forest one level deeper. -/
theorem AtDepth.below (h : AtDepth depth (e :: rest)) :
    AtDepth (depth + 1) (rest.takeWhile fun x => decide (e.depth < x.depth)) := by
  have hhead := h.head
  refine ⟨?_, fun x hx => ?_⟩
  · rw [← hhead]
    exact h.stepwise.2.takeWhile _
  · have := List.mem_takeWhile_imp hx
    simp only [decide_eq_true_eq] at this
    omega

/-- What comes after the first node of a forest and all below it is a forest of the same depth. -/
theorem AtDepth.after (h : AtDepth depth (e :: rest)) :
    AtDepth depth (rest.dropWhile fun x => decide (e.depth < x.depth)) := by
  have hhead := h.head
  obtain ⟨limit', hdrop⟩ := h.stepwise.2.dropWhile fun x => decide (e.depth < x.depth)
  refine ⟨hdrop.of_head fun x hx => ?_, fun x hx => ?_⟩
  · have := List.head?_dropWhile_not (fun x : Entry => decide (e.depth < x.depth)) rest
    rw [Option.mem_def.1 hx] at this
    simp at this
    omega
  · exact h.deep x (List.mem_cons_of_mem _ ((List.dropWhile_suffix _).subset hx))

end

/-- The lines of a forest are those that it is made of. -/
theorem forestEntries_ofEntries {depth : Nat} {es : List Entry} (hes : AtDepth depth es) :
    forestEntries depth (ofEntries es) = es := by
  match es with
  | [] => simp [ofEntries, forestEntries]
  | e :: rest =>
    have hname : ∀ children, (make e.name e.content children).name = e.name ∧
        (make e.name e.content children).content = e.content ∧
        (make e.name e.content children).children = children := by
      intro children
      cases e.content <;> exact ⟨rfl, rfl, rfl⟩
    rw [ofEntries, forestEntries, entries_eq_cons, (hname _).1, (hname _).2.1, (hname _).2.2,
      forestEntries_ofEntries hes.below, forestEntries_ofEntries hes.after, ← hes.head,
      List.cons_append, List.takeWhile_append_dropWhile]
termination_by es.length
decreasing_by
  all_goals simp only [List.length_cons]
  · exact Nat.lt_succ_of_le (List.takeWhile_sublist _).length_le
  · exact Nat.lt_succ_of_le (List.dropWhile_sublist _).length_le

mutual

/-- A node is read back if all lines that it is written as are. -/
theorem readable_of_entries {depth : Nat} : {d : Doc} →
    (∀ e ∈ entries depth d, e.Readable) → d.Readable
  | .plain name value children, h => by
    rw [entries, List.forall_mem_cons] at h
    exact ⟨h.1.1, h.1.2, allReadable_of_forestEntries h.2⟩
  | .holder name nested children, h => by
    rw [entries, List.forall_mem_cons] at h
    exact ⟨h.1.1, h.1.2, allReadable_of_forestEntries h.2⟩

/-- A forest is read back if all its lines are. -/
theorem allReadable_of_forestEntries {depth : Nat} : {docs : List Doc} →
    (∀ e ∈ forestEntries depth docs, e.Readable) → AllReadable docs
  | [], _ => trivial
  | d :: rest, h => by
    rw [forestEntries, List.forall_mem_append] at h
    exact ⟨readable_of_entries h.1, allReadable_of_forestEntries h.2⟩

end

-- ---------------------------------------------------------------------------
-- What is left out of a line
-- ---------------------------------------------------------------------------

/-- A text is written with some characters left out; `whole` holds if none is. -/
def Shrinks (cs cs' : List Char) (whole : Prop) : Prop := cs'.Sublist cs ∧ (cs' = cs → whole)

namespace Shrinks

variable {as as' bs bs' : List Char} {φ ψ : Prop}

theorem append (ha : Shrinks as as' φ) (hb : Shrinks bs bs' ψ) :
    Shrinks (as ++ bs) (as' ++ bs') (φ ∧ ψ) := by
  refine ⟨ha.1.append hb.1, fun heq => ?_⟩
  have hlen := congrArg List.length heq
  have hlen₁ := ha.1.length_le
  have hlen₂ := hb.1.length_le
  simp only [List.length_append] at hlen
  exact ⟨ha.2 (ha.1.eq_of_length (by omega)), hb.2 (hb.1.eq_of_length (by omega))⟩

/-- If nothing has been left out, what is asked for must hold. -/
theorem same (cs : List Char) (h : φ) : Shrinks cs cs φ := ⟨List.Sublist.refl _, fun _ => h⟩

theorem imp (ha : Shrinks as as' φ) (h : φ → ψ) : Shrinks as as' ψ :=
  ⟨ha.1, fun heq => h (ha.2 heq)⟩

/-- Something is left out here, and nothing is asked of the rest. -/
theorem lost (hb : Shrinks bs bs' φ) (hne : as ≠ []) : Shrinks (as ++ bs) bs' ψ := by
  refine ⟨hb.1.trans (List.sublist_append_right _ _), fun heq => ?_⟩
  have hlen := hb.1.length_le
  have hpos := List.length_pos_iff.2 hne
  rw [heq, List.length_append] at hlen
  omega

end Shrinks

/-- A name that needs no quotes needs none without the white space at its end. -/
theorem nameNeedsQuotes_trimEnd {cs : List Char} (h : nameNeedsQuotes cs = false) :
    nameNeedsQuotes (Text.trimEnd cs) = false := by
  have hfront := Text.trimEnd_prefix cs
  -- trimmed at its end a name begins as before and has the same signs
  have hstart : ∀ as : List Char, as.isPrefixOf cs = false →
      as.isPrefixOf (Text.trimEnd cs) = false := by
    intro as has
    rw [Bool.eq_false_iff, ne_eq, List.isPrefixOf_iff_prefix] at has ⊢
    exact fun hstarts => has (hstarts.trans hfront)
  simp only [nameNeedsQuotes, Bool.or_eq_false_iff] at h ⊢
  obtain ⟨⟨⟨⟨⟨hcolon, hend⟩, hquote⟩, hcomment⟩, hspace⟩, -⟩ := h
  refine ⟨⟨⟨⟨⟨?_, ?_⟩, hstart _ hquote⟩, hstart _ hcomment⟩, hstart _ hspace⟩, ?_⟩
  · rw [Bool.eq_false_iff, ne_eq, List.contains_iff_mem] at hcolon ⊢
    exact fun hmem => hcolon (hfront.subset hmem)
  · rw [List.any_eq_false] at hend ⊢
    exact fun c hc => hend c (hfront.subset hc)
  · rw [Bool.eq_false_iff, ne_eq, List.isSuffixOf_iff_suffix]
    rintro ⟨front, hlast⟩
    have hspace := Text.getLast?_trimEnd cs
    rw [← hlast] at hspace
    simp at hspace
    revert hspace
    decide

/-- A name is written without the white space at its end, unless it can be read back. -/
theorem shrinks_nameText (cs : List Char) :
    Shrinks (nameText cs) (nameText (heardName cs)) (NameReadable cs) := by
  rw [heardName, nameText]
  split
  next hquotes =>
    rw [nameText, if_pos hquotes]
    exact .same _ (Or.inl hquotes)
  next hquotes =>
    have htrimmed := nameNeedsQuotes_trimEnd (Bool.not_eq_true _ ▸ hquotes)
    rw [nameText, htrimmed]
    exact ⟨(Text.trimEnd_prefix cs).sublist, fun heq => Or.inr (Text.trimEnd_eq_self_iff.1 heq)⟩

/-- What is left out of a text is left out of it between quotes. -/
theorem shrinks_verbatim {as as' : List Char} {φ : Prop} (h : Shrinks as as' φ) :
    Shrinks (Text.verbatim as) (Text.verbatim as') φ := by
  refine ⟨?_, fun heq => h.2 ?_⟩
  · exact ((h.1.flatMap _).append_right _ |>.cons_cons _).cons_cons _
  · have hscan := fun cs => @Text.scanVerbatim_verbatim cs [] (by simp)
    simp only [Text.verbatim, List.cons.injEq, true_and] at heq
    have hscan' := hscan as'
    rw [heq, hscan as] at hscan'
    simpa [eq_comm] using hscan'

/-- What a node holds is read back. -/
def Content.Readable : Content → Prop
  | .scalar value => ∀ v ∈ value, v.Readable
  | .nested docs => AllReadable docs

/-- A line is read back if its name and what it holds are. -/
theorem Entry.readable_iff {e : Entry} :
    e.Readable ↔ NameReadable e.name.toList ∧ e.content.Readable := by
  obtain ⟨depth, name, content⟩ := e
  cases content <;> rfl

end Doc

namespace Document

open Doc

variable {readNested : List Char → Except ReadError (List Doc)}
  {fault : (Position → ReadError) → ReadError}

/-- Whatever the text of a nested document is read as, it is written with something left out. -/
def NestedShrinks (readNested : List Char → Except ReadError (List Doc)) : Prop :=
  ∀ docs docs', readNested (joined (forestEntries 0 docs)) = .ok docs' →
    Shrinks (joined (forestEntries 0 docs)) (joined (forestEntries 0 docs')) (AllReadable docs)

/-- Whatever a value is read as, it is written with something left out, or it can be read back. -/
theorem shrinks_content (hnested : NestedShrinks readNested) {c c' : Content}
    (hok : content readNested fault c.lineValue = .ok c') : Shrinks c.text c'.text c.Readable := by
  match c with
  | .scalar none =>
    obtain rfl : Content.scalar none = c' := Except.ok.inj hok
    exact .same _ (by simp [Content.Readable])
  | .scalar (some v) =>
    by_cases hstring : ∃ s, v = .string s
    · obtain ⟨s, rfl⟩ := hstring
      obtain rfl : c' = Content.scalar (some (.string s)) := by
        simpa [Content.lineValue, content, eq_comm] using hok
      exact .same _ (by simp [Content.Readable, Scalar.Readable])
    · obtain ⟨-, hvalue⟩ := Content.text_of_ne_string fun s hs => hstring ⟨s, hs⟩
      rw [hvalue, content, if_neg (Line.name_ne_node v.kind), String.ofList_toList] at hok
      split at hok
      next v' hread =>
        obtain ⟨hv, rfl⟩ := Scalar.read_chars_eq_ok hread
        obtain rfl := Except.ok.inj hok
        exact .same _ (by simpa [Content.Readable] using hv)
      next => simp at hok
  -- a nested document shrinks by assumption
  | .nested docs =>
    rw [Content.lineValue, content, if_pos rfl, dropLineEnd_forestLines] at hok
    split at hok
    next docs' hread =>
      -- a scalar that can be read is written the same way again
      obtain rfl := Except.ok.inj hok
      have hshrinks := shrinks_verbatim (hnested docs docs' hread)
      simp only [Content.text, dropLineEnd_forestLines]
      exact ((Shrinks.same (':' :: ("node".toList ++ [':'])) trivial).append hshrinks).imp And.right
    next => simp at hok

/-- Only a line without a value is read as a node without one. -/
theorem eq_absent_of_content {value : Line.Value}
    (hok : content readNested fault value = .ok (.scalar none)) : value = .absent := by
  cases value with
  | absent => rfl
  | untyped text => simp [content] at hok
  | typed word text =>
    rw [content] at hok
    split at hok <;> split at hok <;> simp at hok

/-- A node that is heard from a line is written on a line with something left out. -/
theorem shrinks_entry (hnested : NestedShrinks readNested) {limit : Nat} {e x : Entry}
    {node : Line.Node} (hheard : e.heard = some node)
    (hok : entry readNested limit fault (2 * e.depth) node = .ok x) :
    Shrinks e.text x.text e.Readable := by
  rw [Entry.heard] at hheard
  split at hheard
  next => simp at hheard
  next hkept =>
    obtain rfl := Option.some.inj hheard
    rw [entry, if_neg (by omega)] at hok
    split at hok
    next => simp at hok
    next =>
      split at hok
      next c hcontent =>
        obtain rfl := Except.ok.inj hok
        have hdepth : 2 * e.depth / 2 = e.depth := by omega
        have hshrinks := shrinks_content hnested hcontent
        have hname := shrinks_nameText e.name.toList
        rw [Entry.readable_iff, Entry.text, Entry.text, hdepth]
        refine ((Shrinks.same (indentation e.depth) trivial).append ?_).imp And.right
        -- the text is the name and the value, each of which may shrink
        rcases Line.nodeText_eq e.name e.content with htext | ⟨hempty, hnone, htext⟩
        · rcases Line.nodeText_eq (String.ofList (heardName e.name.toList)) c with
            htext' | ⟨hempty', rfl, -⟩
          · rw [htext, htext', String.toList_ofList]
            exact hname.append hshrinks
          · -- a node without name and value is lost, unless it has had no name before
            have habsent := eq_absent_of_content hcontent
            have hlost : heardName e.name.toList = [] := by
              simpa using congrArg String.toList hempty'
            have hnameless : e.name = "" := by
              by_contra hne
              exact hkept ⟨hne, hlost, habsent⟩
            rw [hnameless, Line.lineValue_eq_absent habsent] at htext
            exact absurd htext Line.nodeText_empty_ne
        · rw [hnone] at hcontent hshrinks ⊢
          rw [hempty]
          obtain rfl : Content.scalar none = c := Except.ok.inj hcontent
          exact .same _ ⟨Or.inr rfl, hshrinks.2 rfl⟩
      next => simp at hok

-- ---------------------------------------------------------------------------
-- What is left out of a document
-- ---------------------------------------------------------------------------

/-- The lines that are read are no more than one level deeper than the line before. -/
theorem stepwise_entries {text : List Char} {limit : Nat} {lines : List Line} {xs : List Entry}
    {fault : Option ReadError} (hread : entries readNested text limit lines = (xs, fault)) :
    Stepwise limit xs := by
  induction lines generalizing limit xs with
  | nil =>
    obtain rfl := (Prod.mk.inj hread).1
    trivial
  | cons line rest ih =>
    rw [entries] at hread
    split at hread
    next => exact ih hread
    next node _ =>
      simp only at hread
      split at hread
      next =>
        obtain rfl := (Prod.mk.inj hread).1
        trivial
      next x hentry =>
        obtain ⟨rfl, hfault⟩ := Prod.mk.inj hread
        -- a line that is taken is at most one level deeper than the one before
        refine ⟨?_, ih (Prod.ext rfl hfault)⟩
        rw [entry] at hentry
        split at hentry
        next => simp at hentry
        next =>
          split at hentry
          next => simp at hentry
          next hle =>
            split at hentry
            next =>
              obtain rfl := Except.ok.inj hentry
              exact Nat.le_of_not_lt hle
            next => simp at hentry

/-- Some lines with their ends. -/
def allText (es : List Entry) : List Char := es.flatMap fun e => e.text ++ ['\n']

/-- Whatever some lines are read as, they are written with something left out, or all of them can be
read back. -/
theorem shrinks_entries (hnested : NestedShrinks readNested) {text : List Char} {limit : Nat}
    {es xs : List Entry} (hok : entries readNested text limit (Line.ofEntries es) = (xs, none)) :
    Shrinks (allText es) (allText xs) (∀ e ∈ es, e.Readable) := by
  -- by induction on the lines; a line that is lost counts as left out altogether
  induction es generalizing limit xs with
  | nil =>
    obtain rfl := (Prod.mk.inj hok).1
    exact .same _ (by simp)
  | cons e rest ih =>
    rw [Line.ofEntries, entries] at hok
    have hcons : ∀ (e : Entry) es, allText (e :: es) = (e.text ++ ['\n']) ++ allText es :=
      fun _ _ => List.flatMap_cons
    rw [hcons]
    split at hok
    next => exact (ih hok).lost (by simp)
    next node hheard =>
      simp only at hok
      split at hok
      next => simp at hok
      next x hentry =>
        obtain ⟨rfl, hfault⟩ := Prod.mk.inj hok
        rw [hcons]
        have hline := (shrinks_entry hnested hheard hentry).append (Shrinks.same ['\n'] trivial)
        refine (hline.append (ih (Prod.ext rfl hfault))).imp fun h => ?_
        exact List.forall_mem_cons.2 ⟨h.1.1, h.2⟩

/-- Every node leaves something on its line. -/
theorem nodeText_ne_nil (name : String) (c : Content) : nodeText name c ≠ [] := by
  rcases Line.nodeText_eq name c with htext | ⟨-, -, htext⟩
  · intro hnil
    obtain ⟨hname, hcontent⟩ := List.append_eq_nil_iff.1 (htext.symm.trans hnil)
    have hnone : c = .scalar none := by
      match c with
      | .scalar none => rfl
      | .scalar (some v) => cases v <;> simp [Content.text] at hcontent
      | .nested docs => simp [Content.text] at hcontent
    have hempty : name = "" := by
      rw [nameText] at hname
      split at hname
      next => simp [Text.quoted] at hname
      next => exact String.toList_injective (by simpa using hname)
    rw [hnone, hempty] at htext
    exact Line.nodeText_empty_ne htext
  · simp [htext, Text.quoted]

theorem joined_ne_nil (e : Entry) (rest : List Entry) : joined (e :: rest) ≠ [] := by
  rw [joined_cons, Entry.text]
  simp [nodeText_ne_nil]

/-- The same without the last line end. -/
theorem shrinks_joined {es xs : List Entry} {φ : Prop} (h : Shrinks (allText es) (allText xs) φ) :
    Shrinks (joined es) (joined xs) φ := by
  cases xs with
  | nil =>
    refine ⟨by simp [joined], fun heq => ?_⟩
    cases es with
    | nil => exact h.2 rfl
    | cons e rest => exact absurd heq.symm (joined_ne_nil e rest)
  | cons x xs =>
    have hxs : allText (x :: xs) = joined (x :: xs) ++ ['\n'] := flatMap_eq_joined (by simp)
    cases es with
    | nil =>
      have hlen := h.1.length_le
      simp [allText] at hlen
    | cons e rest =>
      have hes : allText (e :: rest) = joined (e :: rest) ++ ['\n'] := flatMap_eq_joined (by simp)
      rw [hes, hxs] at h
      exact ⟨(List.append_sublist_append_right _).1 h.1, fun heq => h.2 (by rw [heq])⟩

/-- Only an empty forest is written as nothing. -/
theorem eq_nil_of_joined {docs : List Doc} (h : joined (forestEntries 0 docs) = []) :
    docs = [] := by
  rw [← ofEntries_forestEntries 0 docs]
  cases hes : forestEntries 0 docs with
  | nil => simp [ofEntries]
  | cons e rest =>
    rw [hes] at h
    exact absurd h (joined_ne_nil e rest)

/-- Whatever the text of a document is read as, it is written with something left out. -/
theorem shrinks_readWithin (fuel : Nat) {docs docs' : List Doc}
    (hok : readWithin fuel (joined (forestEntries 0 docs)) = (docs', none)) :
    Shrinks (joined (forestEntries 0 docs)) (joined (forestEntries 0 docs'))
      (AllReadable docs) := by
  induction fuel generalizing docs docs' with
  | zero =>
    obtain rfl := (Prod.mk.inj hok).1
    refine ⟨by simp [forestEntries, joined], fun heq => ?_⟩
    rw [eq_nil_of_joined heq.symm]
    trivial
  | succ fuel ih =>
    by_cases hnil : docs = []
    · subst hnil
      rw [forestEntries, joined, readWithin, Line.scanAll_nil] at hok
      simp only [entries, ofEntries, Prod.mk.injEq] at hok
      rw [← hok.1]
      exact .same _ trivial
    · have hne : forestEntries 0 docs ≠ [] := by
        intro hes
        exact hnil (eq_nil_of_joined (by rw [hes]; rfl))
      rw [readWithin, Line.scanAll_joined hne] at hok
      simp only [Prod.mk.injEq] at hok
      obtain ⟨rfl, hfault⟩ := hok
      generalize hxs : entries _ _ 0 (Line.ofEntries (forestEntries 0 docs)) = r at hfault ⊢
      obtain ⟨xs, fault⟩ := r
      obtain rfl : fault = none := hfault
      rw [forestEntries_ofEntries (stepwise_entries hxs).atDepth]
      refine (shrinks_joined (shrinks_entries ?nested hxs)).imp allReadable_of_forestEntries
      -- a nested document is read with the smaller bound
      intro inner inner' hread
      simp only at hread
      split at hread
      next hinner =>
        obtain rfl := Except.ok.inj hread
        exact ih hinner
      next => simp at hread

/-- A document is read back with all that its text shows exactly if all its names and
dates are such as a text gives back. -/
theorem read_renderForest_iff {docs : List Doc} :
    (∃ docs', read (renderForest docs) = .ok docs' ∧ renderForest docs' = renderForest docs) ↔
      AllReadable docs := by
  refine ⟨?_, fun hdocs => ⟨docs, read_renderForest hdocs, rfl⟩⟩
  rintro ⟨docs', hread, htext⟩
  simp only [renderForest, dropLineEnd_forestLines] at hread htext
  rw [read, readUpTo, String.toList_ofList] at hread
  split at hread
  next hwithin =>
    obtain rfl := Except.ok.inj hread
    exact (shrinks_readWithin _ hwithin).2 (String.ofList_injective htext)
  next => simp at hread

end Document

-- ---------------------------------------------------------------------------
-- A snapshot determines the text
-- ---------------------------------------------------------------------------

namespace Snapshot

/-- What is written on the line of a node, from its snapshot. -/
def nodeText (name : String) : Option String → Option String → List Char
  | none, none => Doc.plainText name none
  | none, some value => Doc.plainText name (some (.string value))
  | some typeName, value =>
    let text := (value.getD "").toList
    if typeName.toList = "node".toList then Doc.holderText name text
    else Doc.nameText name.toList ++ ':' :: (typeName.toList ++ ':' :: Doc.valueText text)

mutual

/-- The lines of a node and of what is below it, from its snapshot. -/
def lines (depth : Nat) : Snapshot → List Char
  | .node name typeName value children =>
    Doc.indentation depth ++ nodeText name typeName value ++
      '\n' :: forestLines (depth + 1) children

/-- The lines of a forest, from the snapshots. -/
def forestLines (depth : Nat) : List Snapshot → List Char
  | [] => []
  | a :: rest => lines depth a ++ forestLines depth rest

end

end Snapshot

namespace Doc

/-- All values but strings are shown with their type. -/
theorem nodeText_of_scalar (name : String) {v : Scalar} (hv : ∀ s, v ≠ .string s) :
    Snapshot.nodeText name (some v.kind.name) (some (v.text true)) = plainText name (some v) := by
  have hplain : plainText name (some v) =
      nameText name.toList ++ ':' :: (v.kind.name.toList ++ ':' :: valueText (v.chars true)) := by
    cases v with
    | string s => exact absurd rfl (hv s)
    | _ => rfl
  rw [Snapshot.nodeText, if_neg (Line.name_ne_node v.kind), hplain, Option.getD_some,
    Scalar.text, String.toList_ofList]

mutual

/-- A snapshot of a node determines the lines of its text. -/
theorem lines_snapshot (depth : Nat) : (d : Doc) → Snapshot.lines depth d.snapshot = lines depth d
  | .plain name none children => by
    rw [snapshot, Snapshot.lines, lines, forestLines_snapshotAll (depth + 1) children]
    rfl
  | .plain name (some (.string s)) children => by
    rw [snapshot, Snapshot.lines, lines, forestLines_snapshotAll (depth + 1) children]
    rfl
  | .plain name (some v) children => by
    by_cases hstring : ∃ s, v = .string s
    · obtain ⟨s, rfl⟩ := hstring
      rw [snapshot, Snapshot.lines, lines, forestLines_snapshotAll (depth + 1) children]
      rfl
    · have hv : ∀ s, v ≠ .string s := fun s hs => hstring ⟨s, hs⟩
      -- any other scalar is shown with its kind and its text
      have hshown : (Doc.plain name (some v) children).snapshot =
          .node name (some v.kind.name) (some (v.text true)) (snapshotAll children) := by
        cases v with
        | string s => exact absurd rfl (hv s)
        | _ => rfl
      rw [hshown, Snapshot.lines, lines, forestLines_snapshotAll (depth + 1) children,
        nodeText_of_scalar name hv]
  | .holder name nested children => by
    rw [snapshot, Snapshot.lines, lines, forestLines_snapshotAll (depth + 1) children,
      Snapshot.nodeText, if_pos rfl, renderForest, Option.getD_some, String.toList_ofList]

/-- Snapshots of a forest determine the lines of its text. -/
theorem forestLines_snapshotAll (depth : Nat) : (docs : List Doc) →
    Snapshot.forestLines depth (snapshotAll docs) = forestLines depth docs
  | [] => by rw [snapshotAll, Snapshot.forestLines, forestLines]
  | d :: rest => by
    rw [snapshotAll, Snapshot.forestLines, forestLines, lines_snapshot depth d,
      forestLines_snapshotAll depth rest]

end

end Doc

end TreeScript
