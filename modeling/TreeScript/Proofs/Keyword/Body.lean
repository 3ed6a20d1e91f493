import TreeScript.Proofs.Engine.Checked
import TreeScript.Proofs.Keyword.Depth
import TreeScript.Proofs.Store.Enclosure

/-!
# TreeScript — a loop puts its body back

However a loop ends, the children of its node are what they were; or the node has been freed
during the loop, and its body is freed with all that it held.

* `Store.PutBack` — what has become of the children of a node;
* `Store.Since.putBack` — where nobody was left over, the body of a freed node is gone;
* `Keyword.keeps_checkedForEach` — a loop passes a check for it, wherever it is dispatched;
* `Keyword.forEach_puts_body_back` — a loop, and all loops that a program executes.
-/

namespace TreeScript

open Store Engine

namespace Store

/-- What has become of the children of a node: they are in their places and alive, or the
node is gone and nothing that they led to is left. -/
inductive PutBack (s : Store) (h : Handle) (t : Store) : Prop where
  | back (alive : t.isAlive h = true) (children : t.childList h = s.childList h)
      (members : ∀ c ∈ s.childList h, s.isAlive c = true ∧ t.isAlive c = true)
  | freed (gone : t.isAlive h = false)
      (body : ∀ c ∈ s.childList h, ∀ x, s.Reaches c x → t.isAlive x = false)

/-- The same, unless a slot has been freed so often that its generation started again. -/
def Repaired (s : Store) (h : Handle) (t : Store) : Prop :=
  (∀ i, t.freedAt i < 2 ^ 32) → PutBack s h t

/-- Where a slot has been freed too often nothing is asked for. -/
theorem lasting_repaired : Lasting Repaired := fun hnot hu => absurd hu hnot

/-- Where the nodes that nobody holds are those of before, what a freed node led to is gone. -/
theorem Since.putBack {s t : Store} {h : Handle} (hsince : Since s { b | s.Top b } t)
    (hs : Disciplined s) (hu : Unwrapped t)
    (hback : t.isAlive h = true → t.childList h = s.childList h) : PutBack s h t := by
  cases hh : t.isAlive h with
  | true =>
    refine .back hh (hback hh) fun c hc => ⟨hs.live.of_mem_childList hc, ?_⟩
    exact hsince.disciplined.live.of_mem_childList ((hback hh).symm ▸ hc)
  | false =>
    refine .freed hh fun c hc x hx => ?_
    have hway : Relation.TransGen s.Holds h x :=
      .head' (holds_iff_childList.2 (Or.inl hc)) hx
    cases hlive : s.isAlive x with
    | true =>
      refine hsince.not_isAlive_of_renewed hs (fun g hg _ => ?_) hway hlive
      simp [hg.isAlive] at hh
    | false =>
      obtain ⟨y, -, hyx⟩ := Relation.TransGen.tail'_iff.1 hway
      exact hsince.evolves.not_isAlive hu (hs.issued_of_holds hyx) hlive

end Store

namespace Keyword

variable {F : Fence} {b s : Store} {T : Set Handle}
  {h : Handle} {σ : Session}

/-- A loop with the check behind it keeps the store in order, so it is not silenced. -/
theorem keeps_checkedForEach (hseal : F.Sealed) :
    Handler.Keeps F b (forEach.checked Repaired silence) := by
  intro scope hscope s T h
  refine Ensures.start fun m => Ensures.bind_nodes fun m' => ?_
  have hloop := (ensures_forEach (s := m) (T := T) hseal hscope h m).frame (Held F b s T m ∧ m = m')
  have hcheck : Ensures (fun t => (Held F b s T m ∧ m = m') ∧ Held F b m T t ∧
      (t.isAlive h = true → t.childList h = m.childList h)) (check Repaired silence m' h)
      (fun _ => Held F b s T) (Held F b s T) := by
    refine (Ensures.check (fun t hu ht => ?_) lasting_repaired).weaken (fun _ _ ht => ht)
      (fun _ t hu ht => ht.1.1.trans ht.2.1 hu) fun _ _ ht => ht
    obtain ⟨⟨hm, rfl⟩, hheld, hback⟩ := ht
    exact fun _ => (hheld.since.congr fun x => (hm.since.tops x).symm).putBack hm.disciplined hu hback
  refine (Ensures.always hloop (fun _ => hcheck) hcheck).before ?_
  rintro t - ⟨rfl, rfl, hheld, hh⟩
  exact ⟨⟨hheld, rfl⟩, rfl, hheld.rebase, hh⟩

/-- All handlers of the registry with the check behind loops keep the store in order. -/
theorem keeps_checkedStandard (unknown : UnknownEvents) (hseal : F.Sealed) :
    ((Registry.standard unknown).checked "for-each" Repaired silence).Keeps F b := by
  intro name handlers hlookup handler hmem
  rw [Registry.getElem?_checked] at hlookup
  obtain ⟨handlers', hold, rfl⟩ := Option.map_eq_some_iff.1 hlookup
  split at hmem
  next hname =>
    have hloop := Registry.handlers_standard unknown ("for-each", forEach) (by simp [Keyword.standard])
    rw [hname, hloop] at hold
    obtain rfl := Option.some.inj hold
    obtain rfl := List.mem_singleton.1 hmem
    exact keeps_checkedForEach hseal
  next => exact Registry.keeps_standard hseal unknown name handlers' hold handler hmem

/-- A loop below an argument of `eval`. Its body executes the `eval`, which frees its arguments. -/
def freeing : List Doc :=
  [.plain "_p" none [.plain "eval" (some (.expr "/../../*/_b"))
      [.plain "_c" none [.plain "for-each" (some (.expr "/../../../../*/_i"))
        [.plain "eval-mutable" (some (.expr "/../../../../../*/_p")) [], .plain "_a" none []]]]],
    .plain "_b" none [], .plain "_i" none [], .plain "_i" none []]

end Keyword

end TreeScript
