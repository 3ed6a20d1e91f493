import TreeScript.Keyword.Files
import TreeScript.Proofs.Keyword.Arguments

/-!
# TreeScript — keywords for files keep a store in order

Loading and saving looks at the store and touches the disk. The texts of loaded files are
put into the store in the end, below the keyword's node.

* `ensures_authorize`, `ensures_ofDisk` — steps that may fail;
* `keeps_loadFile`, `keeps_saveFile` — the keywords.
-/

namespace TreeScript.Keyword

open Store Engine

variable {F : Fence} {b s : Store} {T : Set Handle} {P : Store → Prop}

theorem ensures_authorize (hP : ∀ {t}, P t → Held F b s T t) (h : Handle)
    (verdict : Except Denied Unit) :
    Ensures P (authorize h verdict) (fun _ => P) (Held F b s T) := by
  unfold authorize
  split
  next => exact Ensures.skip ()
  next => exact Ensures.fail h _ fun _ _ ht => ⟨(hP ht).live, hP ht⟩

/-- An answer of the disk is passed on without changing nodes. -/
theorem ensures_ofDisk {α : Type} (hP : ∀ {t}, P t → Held F b s T t) (h : Handle) (path : String)
    (r : Except FileError α) : Ensures P (ofDisk h path r) (fun _ => P) (Held F b s T) := by
  unfold ofDisk
  split
  next a => exact Ensures.skip a
  next => exact Ensures.fail h _ fun _ _ ht => ⟨(hP ht).live, hP ht⟩

theorem keeps_loadFile : Handler.Keeps F b loadFile := by
  intro scope _ s T h
  refine bind_strings (fun ht => ⟨ht.1, ht.2.1⟩) fun paths => bind_arguments fun args => ?_
  refine Ensures.bind (Q := fun _ => Called F b s T h args) (Ensures.mapM
    (I := fun _ => Called F b s T h args) (fun path _ _ => ?_) []) fun loaded => ?_
  · refine Ensures.bind_get fun σ => (ensures_authorize (fun ht => ht.1) h _).bind fun _ => ?_
    refine Ensures.bind_get fun σ => (ensures_ofDisk (fun ht => ht.1) h path _).bind fun _ => ?_
    exact Ensures.skip _
  · refine (ensures_removeArguments h args).bind fun _ => ?_
    refine (Ensures.forM (I := fun _ => Target F b s T h) (fun x _ => ?_) loaded).weaken
      (fun _ _ ht => ht) (fun _ _ _ ht => ht.2.1) fun _ _ ht => ht
    exact ((ensures_addScalar h h x.1 (Or.inr ⟨.string x.2, rfl⟩)).weaken
      (fun t _ ht => ⟨ht, ht.2.2, ht.1⟩) (fun _ _ _ ht => ht.1.1) fun _ _ ht => ht).bind
      fun _ => Ensures.skip _

theorem ensures_contentToSave (h : Handle) :
    Ensures (fun t => Held F b s T t ∧ F.Present t h) (contentToSave h)
      (fun _ t => Held F b s T t ∧ F.Present t h) (Held F b s T) := by
  refine Ensures.bind_nodes fun m => ?_
  refine Ensures.bind_liftFault (R := fun t found => ∀ c, found = some c → t.isAlive c = true)
    ?_ fun found _ => ?_
  · rintro t - ⟨rfl, ht, -⟩
    exact ends_childNamed? ht.live h "src"
  · cases found with
    | some src =>
      refine Ensures.bind_lift (R := fun _ _ => True) ?_ (fun _ _ ht => ht.1.2.1)
        fun texts _ => (Ensures.skip _).before fun _ _ ht => ht.1.1.2
      rintro t - ⟨⟨rfl, ht, -⟩, halive⟩
      exact ends_strings ht.disciplined (halive src rfl)
    | none =>
      refine (Ensures.lookup ?_).weaken (fun _ _ ht => ht) (fun _ _ _ ht => ht.1.2) fun _ _ ht => ht
      rintro t - ⟨⟨rfl, ht, hh⟩, -⟩
      exact ends_renderBelow ht.live hh.1

theorem keeps_saveFile : Handler.Keeps F b saveFile := by
  intro scope _ s T h
  refine bind_strings (fun ht => ⟨ht.1, ht.2.1⟩) fun paths => ?_
  have hheld : ∀ {t}, Held F b s T t ∧ F.Present t h → Held F b s T t := fun ht => ht.1
  split
  next => exact Ensures.fail h _ fun _ _ ht => ⟨ht.1.live, ht.1⟩
  next path _ =>
    refine Ensures.bind_get fun σ => (ensures_authorize hheld h _).bind fun _ => ?_
    refine (ensures_contentToSave h).bind fun text => Ensures.bind_get fun σ => ?_
    split
    next made error _ =>
      refine Ensures.bind (Q := fun _ t => Held F b s T t ∧ F.Present t h)
        (Ensures.aside fun _ => rfl) fun _ => ?_
      extract_lets jp
      -- once the folders are there
      have hwrite : Ensures (fun t => Held F b s T t ∧ F.Present t h) (jp ())
          (fun _ => Held F b s T) (Held F b s T) := by
        refine (ensures_ofDisk hheld h path _).bind fun written => ?_
        refine Ensures.bind (Q := fun _ t => Held F b s T t ∧ F.Present t h)
          (Ensures.aside fun _ => rfl) fun _ => bind_arguments fun args => ?_
        exact (ensures_removeArguments h args).weaken (fun _ _ ht => ht)
          (fun _ _ _ ht => ht.2.1) fun _ _ ht => ht
      split
      next => exact Ensures.bind (Ensures.fail h _ fun _ _ ht => ⟨ht.1.live, ht.1⟩) fun _ => hwrite
      next => exact hwrite

end TreeScript.Keyword
