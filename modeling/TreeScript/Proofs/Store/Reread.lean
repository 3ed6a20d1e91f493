import TreeScript.Proofs.Document.Reread
import TreeScript.Proofs.Store.View

/-!
# TreeScript — source texts are written and read once more

A source text that has been read can be written, and what is written can be read with
equal snapshots, if all names and dates that the text has given are such as a text gives
back; and only then. A name in quotes may end in white space other than a space, and a
date with an offset may fall into a year of five digits: neither is given back.

* `Store.parse_reread` — when a source text is read back;
* `Store.parse_reread_tab` — a name that is not.
-/

namespace TreeScript.Store

/-- The root of a source text shows its document. -/
theorem shows_of_parse {s s' : Store} {text : String} {root : Handle} (hs : Balanced s)
    (hparse : s.parse text = .ok (root, s')) :
    ∃ docs P, Document.read text = .ok docs ∧ Shows s' P root (.plain "" none docs) := by
  unfold parse at hparse
  split at hparse
  next docs hread =>
    have hshown := hs.shows_plant (.plain "" none docs)
    rw [Shape.ofDoc, Except.ok.inj hparse] at hshown
    exact ⟨docs, _, hread, hshown⟩
  next => simp at hparse

/-- What has been read from a source text can be written, and what is written is read
with equal snapshots exactly if all names and dates of the document, also in nested
documents, are such as a text gives back. -/
theorem parse_reread {s s' t : Store} {text : String} {root : Handle} (hs : Balanced s)
    (ht : Balanced t) (hparse : s.parse text = .ok (root, s')) :
    ∃ docs written a, Document.read text = .ok docs ∧ s'.renderBelow root = .ok written ∧
      s'.snapshot root = .ok a ∧
      ((∃ h t' b, t.parse written = .ok (h, t') ∧ t'.snapshot h = .ok b ∧
        b.children = a.children) ↔ Doc.AllReadable docs) := by
  obtain ⟨docs, P, hread, hshown⟩ := shows_of_parse hs hparse
  have hsnapshot : s'.snapshot root = .ok (Doc.plain "" none docs).snapshot := by
    rw [snapshot, view_of_shows hshown]
    rfl
  refine ⟨docs, Doc.renderForest docs, (Doc.plain "" none docs).snapshot, hread, ?_, hsnapshot,
    ?_, fun hdocs => ?_⟩
  · rw [renderBelow, viewBelow_of_shows hshown]
    rfl
  -- two snapshots with the same children write down the same lines
  · rintro ⟨h, t', b, hagain, hb, hsame⟩
    obtain ⟨docs', P', hread', hshown'⟩ := shows_of_parse ht hagain
    rw [snapshot, view_of_shows hshown'] at hb
    obtain rfl := Except.ok.inj hb
    refine Document.read_renderForest_iff.1 ⟨docs', hread', ?_⟩
    rw [snapshot_children, snapshot_children] at hsame
    have hlines := congrArg (Snapshot.forestLines 0) hsame
    rw [Doc.forestLines_snapshotAll, Doc.forestLines_snapshotAll] at hlines
    exact congrArg (fun cs => String.ofList (Doc.dropLineEnd cs)) hlines
  -- readable documents are written so that they are read back
  · have hshown' := ht.shows_plant (.plain "" none docs)
    have hagain : t.parse (Doc.renderForest docs) =
        .ok (t.plant (.ofDoc (.plain "" none docs))) := by
      rw [parse, Document.read_renderForest hdocs, Shape.ofDoc]
    refine ⟨(t.plant (.ofDoc (.plain "" none docs))).1, (t.plant (.ofDoc (.plain "" none docs))).2,
      (Doc.plain "" none docs).snapshot, hagain, ?_, rfl⟩
    rw [snapshot, view_of_shows hshown']
    rfl

/-- A name in quotes that ends in a tab. -/
def tabbed : String := "\"a\\t\""

/-- A name that ends in a tab is not read back. -/
theorem parse_reread_tab : ∃ root s' written a, empty.parse tabbed = .ok (root, s') ∧
    s'.renderBelow root = .ok written ∧ s'.snapshot root = .ok a ∧
    ¬ ∃ h t' b, empty.parse written = .ok (h, t') ∧ t'.snapshot h = .ok b ∧
      b.children = a.children := by
  have hread : Document.read tabbed = .ok [.plain "a\t" none []] := by cbv
  have hparse : empty.parse tabbed = .ok (empty.plant (.plain "" none
      (Shape.ofForest [.plain "a\t" none []]))) := by rw [parse, hread]
  obtain ⟨docs, written, a, hdocs, hwritten, ha, hiff⟩ :=
    parse_reread balanced_empty balanced_empty hparse
  refine ⟨_, _, written, a, hparse, hwritten, ha, fun hagain => ?_⟩
  obtain rfl := Except.ok.inj (hread.symm.trans hdocs)
  have hname := (hiff.1 hagain).1.1
  exact absurd hname (by unfold Doc.NameReadable; decide)

end TreeScript.Store
