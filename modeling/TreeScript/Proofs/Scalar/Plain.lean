import TreeScript.Conversion
import TreeScript.Proofs.Outcome
import TreeScript.Proofs.Scalar.Formats
import TreeScript.Proofs.Store.Handles
import TreeScript.Proofs.Text.Utf8

/-!
# TreeScript — plain texts of scalar values

Only bytes have two text forms. In base 64 all of them are read back, and as characters those
that are the bytes of a text; with any others U+FFFD takes the place of something.

* `Scalar.Legible` — the values whose plain text tells all;
* `Scalar.read_text_iff` — they are the ones that their plain text is read back as;
* `Converter.ofNode_create` — a node that holds a text is converted like the text;
* `Scalar.exchanged` — a value comes back from both of its texts, and from the node made for it.
-/

namespace TreeScript

namespace Scalar

/-- A value whose plain text stands for it: bytes have to be those of a text. -/
def Legible : Scalar → Prop
  | .blob bytes => ∃ cs, bytes = Utf8.encode cs
  | _ => True

-- ---------------------------------------------------------------------------
-- Texts
-- ---------------------------------------------------------------------------

/-- Bytes taken for characters are read back just when they are those of a text. -/
theorem ofText_blob_iff {bytes : List UInt8} :
    ofText false ((blob bytes).text false) .blob = .ok (.blob bytes) ↔ (blob bytes).Legible := by
  have hback : ofText false ((blob bytes).text false) .blob =
      .ok (.blob (Utf8.encode (Utf8.decodeLossy bytes))) := by
    simp [ofText, text, chars]
  rw [hback, Except.ok.injEq, blob.injEq]
  constructor
  · exact fun h => ⟨_, h.symm⟩
  · rintro ⟨cs, rfl⟩
    rw [Utf8.decodeLossy_encode]

/-- All values but bytes have one text, and it is read in one way. -/
theorem ofText_text_plain {v : Scalar} (hkind : v.kind ≠ .blob) :
    ofText false (v.text false) v.kind = ofText true (v.text true) v.kind := by
  cases v with
  | blob bytes => exact absurd rfl hkind
  | _ => simp only [ofText, text, chars, kind]

/-- A value is read back from its plain text just when that tells all. -/
theorem read_text_iff {v : Scalar} (hv : v.Readable) :
    read v.kind.name (v.text false) false = .ok v ↔ v.Legible := by
  have hread : read v.kind.name (v.text false) false = .ok v ↔
      ofText false (v.text false) v.kind = .ok v := by
    simp only [read, ofName?_name]
    cases ofText false (v.text false) v.kind <;> simp [Except.mapError]
  rw [hread]
  by_cases hkind : v.kind = .blob
  · cases v with
    | blob bytes => exact ofText_blob_iff
    | _ => simp [kind] at hkind
  · have hlegible : v.Legible := by
      cases v with
      | blob bytes => exact absurd rfl hkind
      | _ => trivial
    rw [ofText_text_plain hkind]
    exact iff_of_true (ofText_chars hv) hlegible

end Scalar

-- ---------------------------------------------------------------------------
-- Nodes
-- ---------------------------------------------------------------------------

namespace Store

/-- A new node asks for nothing to be decoded. -/
theorem Balanced.asksDecode_create {s : Store} (hs : Balanced s) (name : String)
    (v : Option Value) :
    (s.create name v).2.asksDecode (s.create name v).1 = .ok false := by
  have hchild : (s.create name v).2.childNamed? (s.create name v).1 "decode" = .ok none := by
    rw [childNamed?, hs.childList_create, findNamed]
  rw [asksDecode, hchild]
  rfl

/-- A new node that holds a text is converted like the text. -/
theorem Balanced.ofNode_create {s : Store} (hs : Balanced s) {c : Converter}
    {typeName name text : String} {v : Scalar} (hread : c.read typeName text false = .ok v) :
    c.ofNode (s.create name (some (.scalar (.string text)))).2 typeName
      (s.create name (some (.scalar (.string text)))).1 = .ok (.scalar v) := by
  have hvalue : (s.create name (some (.scalar (.string text)))).2.value
      (s.create name (some (.scalar (.string text)))).1 = .ok (some (.scalar (.string text))) := by
    rw [value, node, hs.node?_create_self]
    rfl
  refine bind_eq_ok_iff.2 ⟨false, liftM_eq_ok_iff.2 (hs.asksDecode_create _ _),
    bind_eq_ok_iff.2 ⟨_, liftM_eq_ok_iff.2 hvalue, ?_⟩⟩
  simp only [hread]

end Store

/-- Every value is read back from its encoded text; a legible one also from its plain text, and
from a node made for it, in any store. -/
theorem Scalar.exchanged (v : Scalar) (hv : v.Readable) :
    read v.kind.name (v.text true) true = .ok v ∧
      (read v.kind.name (v.text false) false = .ok v ↔ v.Legible) ∧
      (v.Legible → ∀ s : Store, s.Balanced → ∃ h t,
        s.displayNode v.kind.name (.scalar v) = .ok (h, t) ∧
          Converter.standard.ofNode t v.kind.name h = .ok (.scalar v)) := by
  refine ⟨read_chars hv, read_text_iff hv, fun hlegible s hs => ?_⟩
  exact ⟨_, _, rfl, hs.ofNode_create (c := .standard) ((read_text_iff hv).2 hlegible)⟩

/-- Half of the leap second at the end of 2016. -/
theorem Scalar.exchanged_leap_second :
    let v : Scalar := .date ⟨⟨2016, 12, 31, by decide, by decide, by decide, by decide⟩,
      86399, 1500000000, by decide, by decide⟩
    v.text true = "2016-12-31T23:59:60.500+00:00" ∧ v.Readable ∧ v.Legible ∧
      read "date" (v.text true) true = .ok v ∧ read "date" (v.text false) false = .ok v ∧
      ∃ h t, Store.empty.displayNode "date" (.scalar v) = .ok (h, t) ∧
        Converter.standard.ofNode t "date" h = .ok (.scalar v) := by
  intro v
  have hreadable : v.Readable := by
    show 0 ≤ (2016 : Int) ∧ (2016 : Int) ≤ 9999
    decide
  have hlegible : v.Legible := trivial
  obtain ⟨hencoded, hplain, hnode⟩ := Scalar.exchanged v hreadable
  exact ⟨by decide, hreadable, hlegible, hencoded, hplain.2 hlegible,
    hnode hlegible .empty Store.balanced_empty⟩

end TreeScript
