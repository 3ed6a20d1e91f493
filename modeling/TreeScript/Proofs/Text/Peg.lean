import Mathlib.Data.List.Basic
import Mathlib.Data.List.Monad
import Mathlib.Data.List.TakeWhile
import TreeScript.Text.Peg

/-!
# TreeScript — when a parsing expression matches

For each way to build a parsing expression, the texts that it matches and what it leaves of them.

* `run_bind_eq_some_iff`, `run_orElse_eq_some_iff`, `run_optional_eq_some_iff` — sequences and
  alternatives;
* `run_choice_eq_some_iff` — alternatives that agree wherever two of them match: their order does
  not matter;
* `repeated_satisfy`, `run_many1_satisfy_eq_some_iff` — characters of one kind, as many as there
  are.
-/

namespace TreeScript.Peg

variable {α β : Type} {p q : Peg α} {cs rest : List Char}

-- ---------------------------------------------------------------------------
-- Sequences and alternatives
-- ---------------------------------------------------------------------------

theorem run_pure_eq_some_iff {a b : α} :
    (pure a : Peg α).run cs = some (b, rest) ↔ b = a ∧ rest = cs := by
  rw [StateT.run_pure]
  change some (a, cs) = some (b, rest) ↔ _
  simp [eq_comm]

/-- One expression after another: the second goes on where the first has ended. -/
theorem run_bind_eq_some_iff {f : α → Peg β} {b : β} :
    (p >>= f).run cs = some (b, rest) ↔
      ∃ a mid, p.run cs = some (a, mid) ∧ (f a).run mid = some (b, rest) := by
  rw [StateT.run_bind]
  change (p.run cs).bind _ = _ ↔ _
  rw [Option.bind_eq_some_iff]
  simp

/-- The second expression is tried only where the first fails. -/
theorem run_orElse_eq_some_iff {a : α} :
    (p <|> q).run cs = some (a, rest) ↔
      p.run cs = some (a, rest) ∨ p.run cs = none ∧ q.run cs = some (a, rest) := by
  rw [StateT.run_orElse]
  cases p.run cs <;> simp

theorem run_orElse_eq_none_iff : (p <|> q).run cs = none ↔ p.run cs = none ∧ q.run cs = none := by
  rw [StateT.run_orElse]
  cases p.run cs <;> simp

/-- A result is passed through a function. -/
theorem run_map_eq_some_iff {f : α → β} {b : β} :
    (f <$> p).run cs = some (b, rest) ↔ ∃ a, p.run cs = some (a, rest) ∧ f a = b := by
  rw [map_eq_pure_bind, run_bind_eq_some_iff]
  simp only [run_pure_eq_some_iff]
  constructor
  · rintro ⟨a, mid, hp, rfl, rfl⟩
    exact ⟨a, hp, rfl⟩
  · rintro ⟨a, hp, rfl⟩
    exact ⟨a, rest, hp, rfl, rfl⟩

/-- What is optional is left out only where it fails. -/
theorem run_optional_eq_some_iff {o : Option α} :
    (optional p).run cs = some (o, rest) ↔
      (∃ a, o = some a ∧ p.run cs = some (a, rest)) ∨ o = none ∧ rest = cs ∧ p.run cs = none := by
  have hnone : (some <$> p).run cs = none ↔ p.run cs = none := by
    rw [StateT.run_map]
    exact Option.map_eq_none_iff
  rw [optional, run_orElse_eq_some_iff, run_map_eq_some_iff, run_pure_eq_some_iff, hnone]
  constructor
  · rintro (⟨a, hp, rfl⟩ | ⟨hp, rfl, rfl⟩)
    · exact .inl ⟨a, rfl, hp⟩
    · exact .inr ⟨rfl, rfl, hp⟩
  · rintro (⟨a, rfl, hp⟩ | ⟨rfl, rfl, hp⟩)
    · exact .inl ⟨a, hp, rfl⟩
    · exact .inr ⟨hp, rfl, rfl⟩

/-- Of alternatives that agree wherever two of them match, it does not matter which one is tried
first. Only the last one is left for where none of the others matches. -/
theorem run_choice_eq_some_iff {ps : List (Peg α)} {found : α × List Char}
    (hagree : ∀ a ∈ ps, ∀ b ∈ ps, ∀ x y, a.run cs = some x → b.run cs = some y → x = y) :
    (ps.foldr (fun p q => p <|> q) q).run cs = some found ↔
      (∃ p ∈ ps, p.run cs = some found) ∨
        (∀ p ∈ ps, p.run cs = none) ∧ q.run cs = some found := by
  induction ps with
  | nil => simp
  | cons p ps ih =>
    have hrest := ih fun p hp q hq =>
      hagree p (List.mem_cons_of_mem _ hp) q (List.mem_cons_of_mem _ hq)
    rw [List.foldr_cons, StateT.run_orElse]
    cases hp : p.run cs with
    | none => simp [hp, hrest]
    | some first =>
      -- what matches first agrees with every later match
      have hfirst : ∀ q ∈ ps, ∀ y, q.run cs = some y → first = y := fun q hq y =>
        hagree p List.mem_cons_self q (List.mem_cons_of_mem _ hq) first y hp
      constructor
      · rintro ⟨rfl⟩
        exact .inl ⟨p, List.mem_cons_self, hp⟩
      · rintro (⟨q, hq, hfound⟩ | ⟨hnone, -⟩)
        · rcases List.mem_cons.1 hq with rfl | hq
          · exact (hp.symm.trans hfound) ▸ rfl
          · exact congrArg some (hfirst q hq found hfound)
        · simp [hnone p List.mem_cons_self] at hp

/-- So it is where the last one agrees with the others as well. -/
theorem run_choice_eq_some_iff_of_agree {ps : List (Peg α)} {found : α × List Char}
    (hagree : ∀ a ∈ ps ++ [q], ∀ b ∈ ps ++ [q], ∀ x y,
      a.run cs = some x → b.run cs = some y → x = y) :
    (ps.foldr (fun p q => p <|> q) q).run cs = some found ↔
      ∃ p ∈ ps ++ [q], p.run cs = some found := by
  rw [run_choice_eq_some_iff fun a ha b hb =>
    hagree a (List.mem_append_left _ ha) b (List.mem_append_left _ hb)]
  constructor
  · rintro (⟨p, hp, hfound⟩ | ⟨-, hfound⟩)
    · exact ⟨p, List.mem_append_left _ hp, hfound⟩
    · exact ⟨q, by simp, hfound⟩
  · rintro ⟨p, hp, hfound⟩
    by_cases hnone : ∀ p ∈ ps, p.run cs = none
    · rcases List.mem_append.1 hp with hp | hp
      · simp [hnone p hp] at hfound
      · exact .inr ⟨hnone, List.mem_singleton.1 hp ▸ hfound⟩
    · simp only [not_forall] at hnone
      obtain ⟨first, hfirst, hsome⟩ := hnone
      obtain ⟨x, hx⟩ := Option.ne_none_iff_exists'.1 hsome
      exact .inl ⟨first, hfirst,
        (hagree first (List.mem_append_left _ hfirst) p hp x found hx hfound) ▸ hx⟩

-- ---------------------------------------------------------------------------
-- Single expressions
-- ---------------------------------------------------------------------------

theorem run_satisfy_cons (f : Char → Bool) (c : Char) (cs : List Char) :
    (satisfy f).run (c :: cs) = if f c = true then some (c, cs) else none := rfl

/-- One character is taken if it passes the test. -/
theorem run_satisfy_eq_some_iff {f : Char → Bool} {c : Char} :
    (satisfy f).run cs = some (c, rest) ↔ cs = c :: rest ∧ f c = true := by
  change satisfy f cs = _ ↔ _
  cases cs with
  | nil => simp [satisfy]
  | cons d cs =>
    by_cases hd : f d = true
    · simp only [satisfy, if_pos hd, Option.some.injEq, Prod.mk.injEq, List.cons.injEq]
      exact ⟨fun ⟨h, hcs⟩ => ⟨⟨h, hcs⟩, h ▸ hd⟩, fun h => h.1⟩
    · simp only [satisfy, if_neg hd, List.cons.injEq]
      exact ⟨nofun, fun ⟨⟨h, _⟩, hc⟩ => absurd (h ▸ hc) hd⟩

theorem run_lit (text : String) (cs : List Char) :
    (lit text).run cs = (text.toList.isPrefixOf? cs).map fun rest => ((), rest) := rfl

theorem run_lit_eq_some_iff {text : String} {u : Unit} :
    (lit text).run cs = some (u, rest) ↔ cs = text.toList ++ rest := by
  rw [run_lit, Option.map_eq_some_iff]
  simp only [List.isPrefixOf?_eq_some_iff_append_eq, Prod.mk.injEq, true_and, exists_eq_right,
    @eq_comm _ cs]

/-- A literal fails where the text does not begin with it. -/
theorem run_lit_eq_none_iff {text : String} :
    (lit text).run cs = none ↔ ¬ text.toList <+: cs := by
  rw [run_lit, Option.map_eq_none_iff, ← Option.isNone_iff_eq_none, ← Option.isSome_eq_false_iff,
    List.isSome_isPrefixOf?_eq_isPrefixOf, Bool.eq_false_iff, ne_eq, List.isPrefixOf_iff_prefix]

theorem run_ends_eq_some_iff {u : Unit} : ends.run cs = some (u, rest) ↔ cs = [] ∧ rest = [] := by
  change ends cs = _ ↔ _
  cases cs <;> simp [ends, eq_comm]

theorem run_ahead_eq_some_iff {u : Unit} :
    (ahead p).run cs = some (u, rest) ↔ rest = cs ∧ (p.run cs).isSome = true := by
  change (p.run cs).map _ = _ ↔ _
  cases p.run cs <;> simp [eq_comm]

/-- Looking ahead for what must not be there takes nothing. -/
theorem run_notAhead_eq_some_iff {u : Unit} :
    (notAhead p).run cs = some (u, rest) ↔ rest = cs ∧ p.run cs = none := by
  change notAhead p cs = _ ↔ _
  unfold notAhead
  cases p.run cs <;> simp [eq_comm]

/-- What has been taken is given together with the result. -/
theorem run_taken (p : Peg α) (cs : List Char) :
    (taken p).run cs = (p.run cs).map fun (a, rest) =>
      ((a, cs.take (cs.length - rest.length)), rest) := rfl

/-- One character, where `q` does not match. -/
theorem run_notAhead_any_eq_some_iff {c : Char} :
    (do notAhead q; any).run cs = some (c, rest) ↔ cs = c :: rest ∧ q.run cs = none := by
  simp only [run_bind_eq_some_iff, run_notAhead_eq_some_iff, any, run_satisfy_eq_some_iff, and_true]
  constructor
  · rintro ⟨-, mid, ⟨rfl, hq⟩, hcs⟩
    exact ⟨hcs, hq⟩
  · rintro ⟨hcs, hq⟩
    exact ⟨(), cs, ⟨rfl, hq⟩, hcs⟩

/-- What matches the same texts in the same way is the same. -/
theorem eq_of_run_eq_some_iff
    (h : ∀ cs a rest, p.run cs = some (a, rest) ↔ q.run cs = some (a, rest)) : p = q :=
  StateT.ext fun cs => Option.ext fun found => h cs found.1 found.2

/-- A look at what comes that depends on the first character alone. -/
theorem notAhead_any_eq_satisfy {f : Char → Bool}
    (h : ∀ c rest, q.run (c :: rest) = none ↔ f c = true) :
    (do notAhead q; any) = satisfy f := by
  refine eq_of_run_eq_some_iff fun cs c rest => ?_
  rw [run_notAhead_any_eq_some_iff, run_satisfy_eq_some_iff]
  exact and_congr_right fun hcs => by rw [hcs, h]

-- ---------------------------------------------------------------------------
-- Repetitions
-- ---------------------------------------------------------------------------

theorem run_many (p : Peg α) (cs : List Char) : (many p).run cs = some (repeated p cs) := rfl

/-- As many as there are, and what is left. -/
theorem run_many_eq_some_iff {as : List α} :
    (many p).run cs = some (as, rest) ↔ repeated p cs = (as, rest) := by
  rw [run_many, Option.some_inj]

/-- Where the expression fails there are none. -/
theorem repeated_of_none (h : p.run cs = none) : repeated p cs = ([], cs) := by
  unfold repeated
  rw [h]

/-- One, and then as many as there are, if it takes something. -/
theorem repeated_of_some {a : α} (h : p.run cs = some (a, rest)) (hlt : rest.length < cs.length) :
    repeated p cs = (a :: (repeated p rest).1, (repeated p rest).2) := by
  rw [repeated, h]
  simp only [dif_pos hlt]

/-- Characters of one kind are taken up to the first one that is not of it. -/
theorem repeated_of_char {f : Char → Bool} {g : Char → α} (hnil : p.run [] = none)
    (hcons : ∀ c cs, p.run (c :: cs) = if f c = true then some (g c, cs) else none)
    (cs : List Char) : repeated p cs = ((cs.takeWhile f).map g, cs.dropWhile f) := by
  induction cs with
  | nil => exact repeated_of_none hnil
  | cons c cs ih =>
    by_cases hc : f c = true
    · have hone : p.run (c :: cs) = some (g c, cs) := by rw [hcons, if_pos hc]
      rw [repeated_of_some hone (Nat.lt_succ_self _), ih, List.takeWhile_cons_of_pos hc,
        List.dropWhile_cons_of_pos hc, List.map_cons]
    · have hnone : p.run (c :: cs) = none := by rw [hcons, if_neg hc]
      rw [repeated_of_none hnone, List.takeWhile_cons_of_neg hc, List.dropWhile_cons_of_neg hc,
        List.map_nil]

/-- As many characters of a kind as there are. -/
theorem repeated_satisfy (f : Char → Bool) (cs : List Char) :
    repeated (satisfy f) cs = (cs.takeWhile f, cs.dropWhile f) := by
  rw [repeated_of_char rfl (run_satisfy_cons f), List.map_id']

/-- What is left behind the characters of one kind does not begin with another one of them. -/
theorem takeWhile_eq_iff {f : Char → Bool} {front : List Char} :
    (cs.takeWhile f, cs.dropWhile f) = (front, rest) ↔
      cs = front ++ rest ∧ (∀ c ∈ front, f c = true) ∧ ∀ c ∈ rest.head?, f c = false := by
  constructor
  · rintro ⟨rfl, rfl⟩
    refine ⟨List.takeWhile_append_dropWhile.symm, fun c hc => List.mem_takeWhile_imp hc,
      fun c hc => ?_⟩
    have := List.head?_dropWhile_not f cs
    rw [Option.mem_def.1 hc] at this
    simpa using this
  · rintro ⟨rfl, hfront, hrest⟩
    have hnone : rest.takeWhile f = [] ∧ rest.dropWhile f = rest := by
      cases rest with
      | nil => exact ⟨rfl, rfl⟩
      | cons c rest =>
        have hc : ¬ f c = true := by simp [hrest c rfl]
        exact ⟨List.takeWhile_cons_of_neg hc, List.dropWhile_cons_of_neg hc⟩
    rw [List.takeWhile_append_of_pos hfront, List.dropWhile_append_of_pos hfront, hnone.1, hnone.2,
      List.append_nil]

/-- As many characters of a kind as there are, and at least one. -/
theorem run_many1_satisfy_eq_some_iff {f : Char → Bool} {front : List Char} :
    (many1 (satisfy f)).run cs = some (front, rest) ↔
      front ≠ [] ∧ cs = front ++ rest ∧ (∀ c ∈ front, f c = true) ∧
        ∀ c ∈ rest.head?, f c = false := by
  simp only [many1, run_bind_eq_some_iff, run_satisfy_eq_some_iff, run_many_eq_some_iff,
    repeated_satisfy, takeWhile_eq_iff, run_pure_eq_some_iff]
  constructor
  · rintro ⟨c, mid, ⟨rfl, hc⟩, as, mid', ⟨rfl, has, hrest⟩, rfl, rfl⟩
    exact ⟨List.cons_ne_nil _ _, rfl, List.forall_mem_cons.2 ⟨hc, has⟩, hrest⟩
  · rintro ⟨hne, rfl, hfront, hrest⟩
    obtain ⟨c, as, rfl⟩ := List.exists_cons_of_ne_nil hne
    obtain ⟨hc, has⟩ := List.forall_mem_cons.1 hfront
    exact ⟨c, as ++ rest, ⟨rfl, hc⟩, as, rest, ⟨rfl, has, hrest⟩, rfl, rfl⟩

end TreeScript.Peg
