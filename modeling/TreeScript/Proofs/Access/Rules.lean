import Mathlib.Data.List.Lex
import Mathlib.Tactic
import TreeScript.Access
import TreeScript.Proofs.Text.Lower

/-!
# TreeScript — the most specific rule decides

The rules that match one path are all beginnings of it. So their order, which is that of their
texts in lower case, is the order of their lengths, and the last of them is the longest one. Among
rules with one path and the same kind of role, the sort leaves the order in which they were
declared.

* `AccessRule.Below` — which of two rules is less specific, by length and then by role;
* `AccessRule.notAfter_iff` — the sort puts the rules that match one path in that order;
* `filter_mergeSort` — a sort keeps the order of what it takes for equal;
* `Guard.Prevails`, `Guard.decide_most_specific` — the rule that decides, and which other orders
  of the rules decide alike.
-/

namespace TreeScript

open TreeScript.Access TreeScript.Text

-- ---------------------------------------------------------------------------
-- Sorting
-- ---------------------------------------------------------------------------

section

variable {α : Type} {le : α → α → Bool}
  (trans : ∀ a b c, le a b = true → le b c = true → le a c = true)
  (total : ∀ a b, (le a b || le b a) = true)

include trans total

/-- A sort keeps the order of what it takes for equal. -/
theorem filter_mergeSort {p : α → Bool} (hsame : ∀ a b, p a = true → p b = true → le a b = true)
    (l : List α) : (l.mergeSort le).filter p = l.filter p := by
  have hsorted : (l.filter p).Pairwise fun a b => le a b = true :=
    List.pairwise_of_forall_mem_list fun a ha b hb =>
      hsame a b (List.mem_filter.1 ha).2 (List.mem_filter.1 hb).2
  have hsub : (l.filter p).Sublist (l.mergeSort le) :=
    List.sublist_mergeSort trans total hsorted List.filter_sublist
  have hsub' : (l.filter p).Sublist ((l.mergeSort le).filter p) := by
    have h := hsub.filter p
    rwa [List.filter_filter, List.filter_congr fun a _ => Bool.and_self (p a)] at h
  exact (hsub'.eq_of_length ((List.mergeSort_perm l le).filter p).length_eq.symm).symm

/-- Nothing comes after the last element of a sorted list. -/
theorem le_of_getLast?_mergeSort {l : List α} {m : α} (hm : (l.mergeSort le).getLast? = some m)
    {x : α} (hx : x ∈ l) : le x m = true := by
  obtain ⟨front, hfront⟩ := List.getLast?_eq_some_iff.1 hm
  have hsorted := List.pairwise_mergeSort trans total l
  rw [hfront, List.pairwise_append] at hsorted
  have hmem : x ∈ l.mergeSort le := List.mem_mergeSort.2 hx
  rw [hfront, List.mem_append, List.mem_singleton] at hmem
  rcases hmem with hmem | rfl
  · exact hsorted.2.2 x hmem m (List.mem_singleton.2 rfl)
  · simpa using total x x

end

namespace AccessRule

-- ---------------------------------------------------------------------------
-- Which rule is more specific
-- ---------------------------------------------------------------------------

/-- A rule is less specific than another one: its path is shorter, or as long and only the other
rule is for one role. -/
def Below (a b : AccessRule) : Prop :=
  a.path.length < b.path.length ∨
    a.path.length = b.path.length ∧ a.isSpecific = false ∧ b.isSpecific = true

theorem not_below_self (r : AccessRule) : ¬ r.Below r := by
  rw [Below]
  cases r.isSpecific <;> simp

/-- Of two rules only one is less specific. -/
theorem Below.asymm {a b : AccessRule} (h : a.Below b) : ¬ b.Below a := by
  rw [Below] at h ⊢
  cases ha : a.isSpecific <;> cases hb : b.isSpecific <;> simp [ha, hb] at h ⊢ <;> omega

/-- Two rules with the same path up to case, both for every role or both for one. -/
def ties (a b : AccessRule) : Bool :=
  sameFolded a.path.toList b.path.toList && a.isSpecific == b.isSpecific

/-- What it takes for a rule to match. -/
theorem appliesTo_iff {r : AccessRule} {role : String} {operation : Operation} {path : String} :
    r.appliesTo role operation path = true ↔
      (r.role = "*" ∨ r.role = role) ∧ r.operation = operation ∧
        foldCase r.path.toList <+: foldCase path.toList := by
  simp [appliesTo, startsWith, startsFolded, and_assoc]

/-- Rules tie if their paths are the same up to the case of letters and both are for one role, or
both for all. -/
theorem ties_iff {a b : AccessRule} :
    a.ties b = true ↔
      foldCase a.path.toList = foldCase b.path.toList ∧ a.isSpecific = b.isSpecific := by
  simp [ties, sameFolded]

/-- The sort compares the paths in lower case first, and then whether the rules are for one role. -/
theorem notAfter_iff {a b : AccessRule} :
    a.notAfter b = true ↔ lowerCase a.path.toList < lowerCase b.path.toList ∨
      lowerCase a.path.toList = lowerCase b.path.toList ∧
        (a.isSpecific = true → b.isSpecific = true) := by
  simp only [notAfter]
  split
  next h => cases a.isSpecific <;> cases b.isSpecific <;> simp [h]
  next h => simp [h]

theorem notAfter_total (a b : AccessRule) : (a.notAfter b || b.notAfter a) = true := by
  rw [Bool.or_eq_true, notAfter_iff, notAfter_iff]
  rcases lt_trichotomy (lowerCase a.path.toList) (lowerCase b.path.toList) with h | h | h
  · exact Or.inl (Or.inl h)
  · cases hb : b.isSpecific with
    | true => exact Or.inl (Or.inr ⟨h, fun _ => rfl⟩)
    | false => exact Or.inr (Or.inr ⟨h.symm, by simp⟩)
  · exact Or.inr (Or.inl h)

theorem notAfter_trans (a b c : AccessRule) (hab : a.notAfter b = true)
    (hbc : b.notAfter c = true) : a.notAfter c = true := by
  rw [notAfter_iff] at hab hbc ⊢
  rcases hab with hab | ⟨hab, hrole⟩
  · rcases hbc with hbc | ⟨hbc, -⟩
    · exact Or.inl (hab.trans hbc)
    · exact Or.inl (hbc ▸ hab)
  · rcases hbc with hbc | ⟨hbc, hrole'⟩
    · exact Or.inl (hab ▸ hbc)
    · exact Or.inr ⟨hab.trans hbc, hrole' ∘ hrole⟩

/-- The sort takes rules that tie for equal. -/
theorem notAfter_of_ties {r a b : AccessRule} (ha : r.ties a = true) (hb : r.ties b = true) :
    a.notAfter b = true := by
  rw [ties_iff] at ha hb
  rw [notAfter_iff, ← lowerCase_foldCase a.path.toList, ← lowerCase_foldCase b.path.toList, ← ha.1,
    ← hb.1, ← ha.2, ← hb.2]
  exact Or.inr ⟨rfl, id⟩

section

variable {a b : AccessRule} {role : String} {operation : Operation} {path : String}

/-- Of two rules that match one path, the sort does not put the more specific one in front. -/
theorem notAfter_iff_not_below (ha : a.appliesTo role operation path = true)
    (hb : b.appliesTo role operation path = true) : a.notAfter b = true ↔ ¬ b.Below a := by
  obtain ⟨-, -, ha⟩ := appliesTo_iff.1 ha
  obtain ⟨-, -, hb⟩ := appliesTo_iff.1 hb
  have hlower : lowerCase a.path.toList = lowerCase b.path.toList ↔
      a.path.length = b.path.length := by
    rcases lt_trichotomy a.path.length b.path.length with h | h | h
    · exact iff_of_false ((lowerCase_lt_iff_length ha hb).2 h).ne h.ne
    · refine iff_of_true ?_ h
      rw [← lowerCase_foldCase a.path.toList, (foldCase_eq_iff_length ha hb).2 h,
        lowerCase_foldCase]
    · exact iff_of_false ((lowerCase_lt_iff_length hb ha).2 h).ne' h.ne'
  rw [notAfter_iff, lowerCase_lt_iff_length ha hb, hlower, Below]
  cases a.isSpecific <;> cases b.isSpecific <;> simp [String.length_toList] <;> omega

/-- Two rules that match one path tie if neither is more specific. -/
theorem ties_iff_not_below (ha : a.appliesTo role operation path = true)
    (hb : b.appliesTo role operation path = true) :
    a.ties b = true ↔ ¬ a.Below b ∧ ¬ b.Below a := by
  obtain ⟨-, -, ha⟩ := appliesTo_iff.1 ha
  obtain ⟨-, -, hb⟩ := appliesTo_iff.1 hb
  rw [ties_iff, foldCase_eq_iff_length ha hb, Below, Below]
  cases a.isSpecific <;> cases b.isSpecific <;> simp [String.length_toList] <;> omega

end

end AccessRule

namespace Guard

variable {g : Guard} {t : Ticket} {path : String} {operation : Operation} {r x : AccessRule}

-- ---------------------------------------------------------------------------
-- The last of the matching rules
-- ---------------------------------------------------------------------------

/-- The rules that match. -/
def matching (g : Guard) (t : Ticket) (path : String) (operation : Operation) : List AccessRule :=
  g.rules.filter fun r => r.appliesTo t.role operation path

/-- The last of the rules that match, in the order of their paths. -/
def decisive? (g : Guard) (t : Ticket) (path : String) (operation : Operation) :
    Option AccessRule :=
  ((g.matching t path operation).mergeSort AccessRule.notAfter).getLast?

/-- The decisive rule decides, and the default if there is none. -/
theorem decide_eq (g : Guard) (t : Ticket) (path : String) (operation : Operation)
    (otherwise : Bool) :
    g.decide t path operation otherwise =
      match g.decisive? t path operation with
      | some r => r.verdict == .allow
      | none => otherwise := rfl

/-- The rules that match are rules of the guard that apply. -/
theorem mem_matching : r ∈ g.matching t path operation ↔
    r ∈ g.rules ∧ r.appliesTo t.role operation path = true := List.mem_filter

/-- There is no decisive rule just if no rule applies. -/
theorem decisive?_eq_none_iff : g.decisive? t path operation = none ↔
    ∀ r ∈ g.rules, r.appliesTo t.role operation path = false := by
  rw [decisive?, List.getLast?_eq_none_iff, ← List.length_eq_zero_iff, List.length_mergeSort,
    List.length_eq_zero_iff, matching, List.filter_eq_nil_iff]
  simp only [Bool.not_eq_true]

/-- The decisive rule is one of those that match. -/
theorem mem_of_decisive? (hr : g.decisive? t path operation = some r) :
    r ∈ g.matching t path operation :=
  List.mem_mergeSort.1 (List.mem_of_getLast? hr)

/-- No matching rule is more specific than the last one. -/
theorem not_below_of_decisive? (hr : g.decisive? t path operation = some r)
    (hx : x ∈ g.matching t path operation) : ¬ r.Below x := by
  have hr' := mem_matching.1 (mem_of_decisive? hr)
  have hafter := le_of_getLast?_mergeSort AccessRule.notAfter_trans AccessRule.notAfter_total hr hx
  exact (AccessRule.notAfter_iff_not_below (mem_matching.1 hx).2 hr'.2).1 hafter

/-- If no matching rule is more specific than `r`, the last one is the one declared last among
those that tie with it. -/
theorem decisive?_eq (hr : r ∈ g.matching t path operation)
    (hmax : ∀ x ∈ g.matching t path operation, ¬ r.Below x) :
    g.decisive? t path operation = ((g.matching t path operation).filter r.ties).getLast? := by
  cases hlast : g.decisive? t path operation with
  | none =>
    have hnone := decisive?_eq_none_iff.1 hlast r (mem_matching.1 hr).1
    rw [(mem_matching.1 hr).2] at hnone
    cases hnone
  | some m =>
    have hm := mem_of_decisive? hlast
    have hties : r.ties m = true :=
      (AccessRule.ties_iff_not_below (mem_matching.1 hr).2 (mem_matching.1 hm).2).2
        ⟨hmax m hm, not_below_of_decisive? hlast hr⟩
    obtain ⟨front, hfront⟩ := List.getLast?_eq_some_iff.1 hlast
    have hstable := filter_mergeSort AccessRule.notAfter_trans AccessRule.notAfter_total
      (fun _ _ => AccessRule.notAfter_of_ties (r := r)) (g.matching t path operation)
    rw [← hstable, hfront, List.filter_append, List.filter_singleton, hties]
    simp

-- ---------------------------------------------------------------------------
-- The rule that prevails
-- ---------------------------------------------------------------------------

/-- A rule prevails if it matches, no matching rule declared before it is more specific, and all
matching rules declared after it are less specific. -/
def Prevails (g : Guard) (t : Ticket) (path : String) (operation : Operation) (r : AccessRule) :
    Prop :=
  r.appliesTo t.role operation path = true ∧ ∃ front back, g.rules = front ++ r :: back ∧
    (∀ x ∈ front, x.appliesTo t.role operation path = true → ¬ r.Below x) ∧
    ∀ x ∈ back, x.appliesTo t.role operation path = true → x.Below r

/-- The rule that prevails is the last one in the order. -/
theorem Prevails.decisive? (hr : g.Prevails t path operation r) :
    g.decisive? t path operation = some r := by
  obtain ⟨happly, front, back, hrules, hfront, hback⟩ := hr
  have hmem : r ∈ g.matching t path operation := mem_matching.2 ⟨by simp [hrules], happly⟩
  -- no matching rule is above the one that prevails
  have hmax : ∀ x ∈ g.matching t path operation, ¬ r.Below x := by
    intro x hx
    obtain ⟨hx, hx'⟩ := mem_matching.1 hx
    rw [hrules, List.mem_append, List.mem_cons] at hx
    rcases hx with hx | rfl | hx
    · exact hfront x hx hx'
    · exact AccessRule.not_below_self x
    · exact (hback x hx hx').asymm
  have hself : r.ties r = true := AccessRule.ties_iff.2 ⟨rfl, rfl⟩
  -- behind it nothing ties with it, so it is the last of those that tie
  have hnone : (back.filter fun x => x.appliesTo t.role operation path).filter r.ties = [] := by
    rw [List.filter_eq_nil_iff]
    intro x hx hties
    obtain ⟨hx, hx'⟩ := List.mem_filter.1 hx
    exact ((AccessRule.ties_iff_not_below happly hx').1 hties).2 (hback x hx hx')
  have hcons : (r :: back).filter (fun x => x.appliesTo t.role operation path) =
      r :: back.filter fun x => x.appliesTo t.role operation path := List.filter_cons_of_pos happly
  rw [decisive?_eq hmem hmax, matching, hrules, List.filter_append, hcons, List.filter_append,
    List.filter_cons_of_pos hself, hnone, List.getLast?_concat]

/-- The last rule in the order prevails. -/
theorem prevails_of_decisive? (hr : g.decisive? t path operation = some r) :
    g.Prevails t path operation r := by
  have hmem := mem_of_decisive? hr
  have happly := (mem_matching.1 hmem).2
  have hlast := decisive?_eq hmem fun x hx => not_below_of_decisive? hr hx
  rw [hr, matching, List.filter_filter, List.getLast?_filter] at hlast
  obtain ⟨-, back, front, hrules, hback⟩ := List.find?_eq_some_iff_append.1 hlast.symm
  have hrules' : g.rules = front.reverse ++ r :: back.reverse := by
    rw [← List.reverse_reverse g.rules, hrules]
    simp
  refine ⟨happly, _, _, hrules', fun x hx hx' => ?_, fun x hx hx' => ?_⟩
  · exact not_below_of_decisive? hr (mem_matching.2 ⟨by simp_all, hx'⟩)
  · have hx'' : x ∈ g.rules := by simp_all
    have hties : ¬ r.ties x = true := by
      have h := hback x (List.mem_reverse.1 hx)
      simpa [hx'] using h
    by_contra hbelow
    exact hties ((AccessRule.ties_iff_not_below happly hx').2
      ⟨not_below_of_decisive? hr (mem_matching.2 ⟨hx'', hx'⟩), hbelow⟩)

/-- Only the order among rules that tie matters. -/
theorem decisive?_congr {rules : List AccessRule}
    (hrules : ∀ r : AccessRule, rules.filter r.ties = g.rules.filter r.ties) :
    ({ g with rules := rules } : Guard).decisive? t path operation =
      g.decisive? t path operation := by
  -- the rules are the same, and so are those that match
  have hmem : ∀ r, r ∈ rules ↔ r ∈ g.rules := by
    intro r
    have hself : r.ties r = true := AccessRule.ties_iff.2 ⟨rfl, rfl⟩
    have h : r ∈ rules.filter r.ties ↔ r ∈ g.rules.filter r.ties := by rw [hrules]
    simpa [List.mem_filter, hself] using h
  have hmatching : ∀ r, r ∈ ({ g with rules := rules } : Guard).matching t path operation ↔
      r ∈ g.matching t path operation := fun r => by
    rw [mem_matching, mem_matching, ← hmem]
  cases hlast : g.decisive? t path operation with
  | none =>
    rw [decisive?_eq_none_iff] at hlast ⊢
    exact fun r hr => hlast r ((hmem r).1 hr)
  | some r =>
    have hr := mem_of_decisive? hlast
    have hmax : ∀ x ∈ g.matching t path operation, ¬ r.Below x := fun x hx =>
      not_below_of_decisive? hlast hx
    -- the order matters only among rules that tie, and there it is the same
    have hsame : (({ g with rules := rules } : Guard).matching t path operation).filter r.ties =
        (g.matching t path operation).filter r.ties := by
      rw [matching, matching, List.filter_comm, hrules, List.filter_comm]
    rw [decisive?_eq ((hmatching r).2 hr) fun x hx => hmax x ((hmatching x).1 hx), hsame,
      ← decisive?_eq hr hmax, hlast]

/-- The rule that prevails decides; there is one unless no rule matches. Declaring the rules in
another order changes nothing as long as rules that tie stay in theirs. -/
theorem decide_most_specific (g : Guard) (t : Ticket) (path : String) (operation : Operation)
    (otherwise : Bool) :
    (∀ r, g.Prevails t path operation r →
      g.decide t path operation otherwise = (r.verdict == .allow)) ∧
    ((∃ r, g.Prevails t path operation r) ∨
      (∀ r ∈ g.rules, r.appliesTo t.role operation path = false) ∧
        g.decide t path operation otherwise = otherwise) ∧
    ∀ rules : List AccessRule,
      (∀ r : AccessRule, rules.filter r.ties = g.rules.filter r.ties) →
      ({ g with rules := rules } : Guard).decide t path operation otherwise =
        g.decide t path operation otherwise := by
  refine ⟨fun r hr => ?_, ?_, fun rules hrules => ?_⟩
  · rw [decide_eq, hr.decisive?]
  · cases hlast : g.decisive? t path operation with
    | none => exact Or.inr ⟨decisive?_eq_none_iff.1 hlast, by rw [decide_eq, hlast]⟩
    | some r => exact Or.inl ⟨r, prevails_of_decisive? hlast⟩
  · rw [decide_eq, decide_eq, decisive?_congr hrules]

/-- A rule for guests stands above one for everybody, in either order. -/
theorem decide_most_specific_guests :
    let everybody : AccessRule := ⟨"*", "/Docs/", .deny, .read⟩
    let guests : AccessRule := ⟨"guest", "/docs/", .allow, .read⟩
    let g : Guard := { rules := [guests, everybody] }
    g.Prevails {} "/docs/a" .read guests ∧ g.decide {} "/docs/a" .read false = true ∧
      ({ g with rules := [everybody, guests] } : Guard).decide {} "/docs/a" .read false = true := by
  intro everybody guests g
  have hprevails : g.Prevails {} "/docs/a" .read guests :=
    ⟨by decide, [], [everybody], rfl, by simp,
      by simp [AccessRule.Below, everybody, guests]; decide⟩
  obtain ⟨hverdict, -, hother⟩ := decide_most_specific g {} "/docs/a" .read false
  have hswap : ∀ r : AccessRule, [everybody, guests].filter r.ties = g.rules.filter r.ties := by
    intro r
    -- the two rules never tie with the same rule, so swapping them changes no row of ties
    have hapart : ¬ (r.isSpecific = everybody.isSpecific ∧ r.isSpecific = guests.isSpecific) := by
      rw [show everybody.isSpecific = false from rfl, show guests.isSpecific = true from rfl]
      simp
    have hties : r.ties everybody = false ∨ r.ties guests = false := by
      by_contra h
      rw [not_or, Bool.not_eq_false, Bool.not_eq_false] at h
      exact hapart ⟨(AccessRule.ties_iff.1 h.1).2, (AccessRule.ties_iff.1 h.2).2⟩
    rcases hties with h | h <;> simp [g, List.filter_cons, h]
  have hallow := hverdict guests hprevails
  exact ⟨hprevails, hallow, (hother _ hswap).trans hallow⟩

end Guard

end TreeScript
