import TreeScript.Proofs.Outcome
import TreeScript.Proofs.Twin.Content

/-!
# TreeScript — dumps

A dump tells the name and the value of a node and, in the same way, what the node holds. It has
no handles: of a node that is gone, and of what a reference points at, it only says so. Two nodes
have the same dump exactly if they say the same downwards, wherever the references point.

* `Dump`, `Store.dump` — what is told of a node;
* `Disciplined.exists_dump` — there is a dump of every node;
* `Echoes.dump` — nodes that say the same downwards have the same dump;
* `Told`, `told_echoes` — and nodes with the same dump say the same downwards.
-/

namespace TreeScript

open Paired

/-- What is told of a node: `gone` if there is none, `plain` with a scalar or nothing, `holder` if
it owns another node, `pointer` if it refers to one. -/
inductive Dump where
  | gone
  | plain (name : String) (value : Option Scalar) (children : List Dump)
  | holder (name : String) (nested : Dump) (children : List Dump)
  | pointer (name : String) (children : List Dump)

instance : HandleFree Dump where

namespace Store

/-- What is told of a node whose nodes are nested at most `fuel` deep. -/
def dumpWithin (s : Store) : (fuel : Nat) → Handle → Except Fault Dump
  | 0, _ => .error .endless
  | fuel + 1, h =>
    match s.node? h with
    | none => .ok .gone
    | some n => do
      let below ← n.children.mapM (s.dumpWithin fuel)
      match n.value with
      | none => return .plain n.name none below
      | some (.scalar v) => return .plain n.name (some v) below
      | some (.node nested) => return .holder n.name (← s.dumpWithin fuel nested) below
      | some (.ref _) => return .pointer n.name below

/-- What is told of a node. Nodes cannot be nested deeper than there are slots. -/
def dump (s : Store) (h : Handle) : Except Fault Dump := s.dumpWithin (s.slots.size + 1) h

variable {R ρ : Pairing} {s t s' t' : Store} {a b h : Handle}

/-- What is told of a node, once it is known what is told of those that it holds. -/
inductive Tells (s : Store) (fuel : Nat) (h : Handle) : Dump → Prop
  | gone : s.node? h = none → Tells s fuel h .gone
  | empty {n : Node} {xs : List Dump} : s.node? h = some n →
      n.children.mapM (s.dumpWithin fuel) = .ok xs → n.value = none →
      Tells s fuel h (.plain n.name none xs)
  | scalar {n : Node} {v : Scalar} {xs : List Dump} : s.node? h = some n →
      n.children.mapM (s.dumpWithin fuel) = .ok xs → n.value = some (.scalar v) →
      Tells s fuel h (.plain n.name (some v) xs)
  | holder {n : Node} {g : Handle} {x : Dump} {xs : List Dump} : s.node? h = some n →
      n.children.mapM (s.dumpWithin fuel) = .ok xs → n.value = some (.node g) →
      s.dumpWithin fuel g = .ok x → Tells s fuel h (.holder n.name x xs)
  | pointer {n : Node} {g : Handle} {xs : List Dump} : s.node? h = some n →
      n.children.mapM (s.dumpWithin fuel) = .ok xs → n.value = some (.ref g) →
      Tells s fuel h (.pointer n.name xs)

/-- A dump tells what its node says and how its parts are dumped. -/
theorem tells_of_dumpWithin {fuel : Nat} {x : Dump} (hok : s.dumpWithin (fuel + 1) h = .ok x) :
    Tells s fuel h x := by
  rw [dumpWithin] at hok
  split at hok
  next hn =>
    obtain rfl := Except.ok.inj hok
    exact .gone hn
  next n hn =>
    -- the children are told first, then the value decides
    obtain ⟨xs, hxs, hok⟩ := bind_eq_ok_iff.1 hok
    split at hok
    next hv =>
      obtain rfl := Except.ok.inj hok
      exact .empty hn hxs hv
    next v hv =>
      obtain rfl := Except.ok.inj hok
      exact .scalar hn hxs hv
    next g hv =>
      obtain ⟨y, hy, hok⟩ := bind_eq_ok_iff.1 hok
      obtain rfl := Except.ok.inj hok
      exact .holder hn hxs hv hy
    next g hv =>
      obtain rfl := Except.ok.inj hok
      exact .pointer hn hxs hv

-- ---------------------------------------------------------------------------
-- There is a dump
-- ---------------------------------------------------------------------------

/-- A node has a dump if all that it holds has. -/
theorem exists_dumpWithin_succ {fuel : Nat}
    (hheld : ∀ x, s.Holds h x → ∃ d, s.dumpWithin fuel x = .ok d) :
    ∃ d, s.dumpWithin (fuel + 1) h = .ok d := by
  rw [dumpWithin]
  cases hn : s.node? h with
  | none => exact ⟨_, rfl⟩
  | some n =>
    obtain ⟨xs, hxs⟩ := exists_mapM_eq_ok_iff.2 fun c hc => hheld c ⟨n, hn, .inl hc⟩
    simp only [hxs, bind, Except.bind]
    split
    next => exact ⟨_, rfl⟩
    next => exact ⟨_, rfl⟩
    next g hv =>
      obtain ⟨y, hy⟩ := hheld g ⟨n, hn, .inr (by rw [Node.owned?, hv]; rfl)⟩
      rw [hy]
      exact ⟨_, rfl⟩
    next => exact ⟨_, rfl⟩

/-- In a disciplined store every node has a dump: what is held goes down only so far. -/
theorem Disciplined.exists_dump (hd : Disciplined s) (h : Handle) : ∃ d, s.dump h = .ok d :=
  hd.of_holds (P := fun fuel h => ∃ d, s.dumpWithin fuel h = .ok d) exists_dumpWithin_succ h

-- ---------------------------------------------------------------------------
-- Dumps of nodes that say the same
-- ---------------------------------------------------------------------------

/-- Nodes that say the same downwards have the same dump, as far as both come to an end. -/
theorem Echoes.dumpWithin (hst : Echoes R ρ s t) {n m : Nat} (hab : R a b) :
    Concur ρ (s.dumpWithin n a) (t.dumpWithin m b) := by
  induction n generalizing m a b with
  | zero => exact .left _
  | succ n ih =>
    cases m with
    | zero => exact .right _
    | succ m =>
      rw [Store.dumpWithin, Store.dumpWithin]
      cases hst.echo hab with
      | gone ha hb =>
        rw [ha, hb]
        exact .ok rfl
      | @live k l hk hl hkl =>
        rw [hk, hl]
        -- the children tell the same by induction, so the two rows are equal
        refine Concur.bind (.mapM hkl.children fun _ _ hxy => ih hxy) fun xs ys hxs => ?_
        obtain rfl := Plain.eq hxs
        have hvalue := hkl.value
        rw [hkl.name]
        generalize k.value = v, l.value = w at hvalue
        cases hvalue with
        | none => exact .ok rfl
        | some hvw =>
          cases hvw with
          | scalar v => exact .ok rfl
          | node hgh => exact (ih hgh).bind fun x y hxy => by rw [Plain.eq hxy]; exact .ok rfl
          | ref hgh => exact .ok rfl

theorem Echoes.dump (hst : Echoes R ρ s t) (hs : Disciplined s) (ht : Disciplined t) (hab : R a b) :
    ∃ x, s.dump a = .ok x ∧ t.dump b = .ok x := by
  obtain ⟨x, hx⟩ := hs.exists_dump a
  obtain ⟨y, hy⟩ := ht.exists_dump b
  have hsame := hst.dumpWithin hab (n := s.slots.size + 1) (m := t.slots.size + 1)
  rw [← Store.dump, ← Store.dump, hx, hy] at hsame
  cases hsame with
  | ok hxy => exact ⟨x, hx, by rw [hy, Plain.eq hxy]⟩

-- ---------------------------------------------------------------------------
-- Nodes with the same dump
-- ---------------------------------------------------------------------------

/-- The same is told of two nodes. -/
def Told (s t : Store) (a b : Handle) : Prop :=
  ∃ n m x, s.dumpWithin n a = .ok x ∧ t.dumpWithin m b = .ok x

/-- Lists with the same dumps are told alike, member by member. -/
theorem told_of_mapM {n m : Nat} {as bs : List Handle} {xs : List Dump}
    (has : as.mapM (s.dumpWithin n) = .ok xs) (hbs : bs.mapM (t.dumpWithin m) = .ok xs) :
    Matches (Told s t) as bs := by
  have hleft := mapM_eq_ok_iff.1 has
  have hright := mapM_eq_ok_iff.1 hbs
  clear has hbs
  induction hleft generalizing bs with
  | nil =>
    cases hright
    exact .nil
  | cons hx _ ih =>
    cases hright with
    | cons hy hrest => exact .cons ⟨_, _, _, hx, hy⟩ (ih hrest)

/-- Nodes with the same dump say the same downwards. -/
theorem told_echoes (s t : Store) : Echoes (Told s t) ⊤ s t where
  echo {a b} hab := by
    obtain ⟨n, m, x, hx, hy⟩ := hab
    cases n with
    | zero => simp [Store.dumpWithin] at hx
    | succ n =>
      cases m with
      | zero => simp [Store.dumpWithin] at hy
      | succ m =>
        have hy := tells_of_dumpWithin hy
        -- what is told of a node gives away how it was read, and the same is told of both
        cases tells_of_dumpWithin hx with
        | gone ha => cases hy with | gone hb => exact .gone ha hb
        | @empty k xs hk hxs hv =>
          generalize hname : k.name = name at hy
          cases hy with
          | @empty l _ hl hys hw =>
            exact .live hk hl ⟨hname, by rw [hv, hw]; exact .none, told_of_mapM hxs hys⟩
        | @scalar k v xs hk hxs hv =>
          generalize hname : k.name = name at hy
          cases hy with
          | @scalar l _ _ hl hys hw =>
            exact .live hk hl ⟨hname, by rw [hv, hw]; exact .some (.scalar v), told_of_mapM hxs hys⟩
        | @holder k g x xs hk hxs hv hinner =>
          generalize hname : k.name = name at hy
          cases hy with
          | @holder l g' _ _ hl hys hw hinner' =>
            exact .live hk hl ⟨hname, by rw [hv, hw]; exact .some (.node ⟨_, _, _, hinner, hinner'⟩),
              told_of_mapM hxs hys⟩
        | @pointer k g xs hk hxs hv =>
          generalize hname : k.name = name at hy
          cases hy with
          | @pointer l g' _ hl hys hw =>
            exact .live hk hl ⟨hname, by rw [hv, hw]; exact .some (.ref trivial),
              told_of_mapM hxs hys⟩

/-- Nodes with the same dump are told alike. -/
theorem Told.of_dump {x : Dump} (ha : s.dump a = .ok x) (hb : t.dump b = .ok x) : Told s t a b :=
  ⟨_, _, x, ha, hb⟩

end Store

end TreeScript
