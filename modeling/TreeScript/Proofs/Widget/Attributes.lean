import Mathlib.Data.List.Nodup
import TreeScript.Widget

/-!
# TreeScript — attributes of a widget

Attributes stand in a list in the order in which they were first set, and are looked up by name.
Setting one that is there changes it in its place and moves no other; a new one comes last.

* `setIn_of_not_mem`, `setIn_append_cons`, `setIn_of_getElem?` — what setting does to the list;
* `map_fst_setIn`, `filter_setIn` — the names, and all other attributes;
* `setAllIn`, `setAllIn_of_nodup`, `nodup_of_length_setAllIn` — several attributes;
* `attribute?_setAttribute`, `attribute?_removeAttribute` — what is looked up afterwards;
* `Built`, `Built.nodup` — widgets as they are made, and that no name occurs twice in them.
-/

namespace TreeScript.Widget

variable {w : Widget} {name other value old : String} {front rest l : List (String × String)}
  {i : Nat}

-- ---------------------------------------------------------------------------
-- The list
-- ---------------------------------------------------------------------------

/-- A name that is missing in front is set behind. -/
theorem setIn_append_of_not_mem (hfront : name ∉ front.map Prod.fst) :
    setIn name value (front ++ l) = front ++ setIn name value l := by
  induction front with
  | nil => rfl
  | cons a front ih =>
    rw [List.map_cons, List.mem_cons, not_or] at hfront
    rw [List.cons_append, setIn, if_neg (Ne.symm hfront.1), ih hfront.2, List.cons_append]

/-- A new attribute comes last. -/
theorem setIn_of_not_mem (hl : name ∉ l.map Prod.fst) :
    setIn name value l = l ++ [(name, value)] := by
  have happend : setIn name value (l ++ []) = l ++ setIn name value [] :=
    setIn_append_of_not_mem hl
  rwa [List.append_nil] at happend

/-- An attribute that is there is changed where it is found first. -/
theorem setIn_append_cons (hfront : name ∉ front.map Prod.fst) :
    setIn name value (front ++ (name, old) :: rest) = front ++ (name, value) :: rest := by
  rw [setIn_append_of_not_mem hfront, setIn, if_pos rfl]

/-- The list is parted where a name is found first. -/
theorem exists_append_cons (hl : name ∈ l.map Prod.fst) :
    ∃ front old rest, l = front ++ (name, old) :: rest ∧ name ∉ front.map Prod.fst := by
  induction l with
  | nil => simp at hl
  | cons a l ih =>
    by_cases ha : a.1 = name
    · exact ⟨[], a.2, l, by rw [← ha]; rfl, by simp⟩
    · have hrest : name ∈ l.map Prod.fst := by
        simpa [Ne.symm ha] using hl
      obtain ⟨front, old, rest, rfl, hfront⟩ := ih hrest
      refine ⟨a :: front, old, rest, rfl, ?_⟩
      rw [List.map_cons, List.mem_cons, not_or]
      exact ⟨Ne.symm ha, hfront⟩

/-- An attribute is changed in its place. -/
theorem setIn_of_getElem? (hnodup : (l.map Prod.fst).Nodup) (hi : l[i]? = some (name, old)) :
    setIn name value l = l.set i (name, value) := by
  induction l generalizing i with
  | nil => simp at hi
  | cons a l ih =>
    rw [List.map_cons, List.nodup_cons] at hnodup
    cases i with
    | zero =>
      obtain rfl : a = (name, old) := by simpa using hi
      rw [setIn, if_pos rfl, List.set_cons_zero]
    | succ i =>
      rw [List.getElem?_cons_succ] at hi
      have hmem : name ∈ l.map Prod.fst := List.mem_map_of_mem (List.mem_of_getElem? hi)
      rw [setIn, if_neg fun heq : a.1 = name => hnodup.1 (heq ▸ hmem), ih hnodup.2 hi,
        List.set_cons_succ]

/-- The names keep their order. -/
theorem map_fst_setIn (name value : String) (l : List (String × String)) :
    (setIn name value l).map Prod.fst =
      if name ∈ l.map Prod.fst then l.map Prod.fst else l.map Prod.fst ++ [name] := by
  split
  next hmem =>
    obtain ⟨front, old, rest, rfl, hfront⟩ := exists_append_cons hmem
    rw [setIn_append_cons hfront]
    simp
  next hnot =>
    rw [setIn_of_not_mem hnot]
    simp

/-- All other attributes stay as they are and in their order. -/
theorem filter_setIn (name value : String) (l : List (String × String)) :
    (setIn name value l).filter (·.1 != name) = l.filter (·.1 != name) := by
  by_cases hmem : name ∈ l.map Prod.fst
  · obtain ⟨front, old, rest, rfl, hfront⟩ := exists_append_cons hmem
    rw [setIn_append_cons hfront]
    simp
  · rw [setIn_of_not_mem hmem]
    simp

theorem nodup_setIn (hnodup : (l.map Prod.fst).Nodup) :
    ((setIn name value l).map Prod.fst).Nodup := by
  rw [map_fst_setIn]
  split
  next => exact hnodup
  next hnot => exact List.Nodup.append hnodup (List.nodup_singleton name) (by simpa using hnot)

-- ---------------------------------------------------------------------------
-- Several attributes
-- ---------------------------------------------------------------------------

/-- Attributes are set one after the other. -/
def setAllIn (l todo : List (String × String)) : List (String × String) :=
  todo.foldl (fun l a => setIn a.1 a.2 l) l

variable {todo : List (String × String)}

/-- The first attribute is set, and then the others. -/
theorem setAllIn_cons (l : List (String × String)) (a : String × String)
    (todo : List (String × String)) :
    setAllIn l (a :: todo) = setAllIn (setIn a.1 a.2 l) todo := List.foldl_cons ..

/-- New attributes with different names are set in their order. -/
theorem setAllIn_of_nodup (hnodup : ((l ++ todo).map Prod.fst).Nodup) :
    setAllIn l todo = l ++ todo := by
  induction todo generalizing l with
  | nil => simp [setAllIn]
  | cons a todo ih =>
    have hnew : a.1 ∉ l.map Prod.fst := by
      rw [List.map_append, List.map_cons] at hnodup
      exact fun hmem => (List.nodup_append.1 hnodup).2.2 _ hmem _ List.mem_cons_self rfl
    rw [List.append_cons] at hnodup ⊢
    rw [setAllIn_cons, setIn_of_not_mem hnew]
    exact ih hnodup

/-- Setting a name makes a new entry only if there is none. -/
theorem length_setIn (name value : String) (l : List (String × String)) :
    (setIn name value l).length = if name ∈ l.map Prod.fst then l.length else l.length + 1 := by
  have hlen := congrArg List.length (map_fst_setIn name value l)
  rw [List.length_map] at hlen
  rw [hlen]
  split
  · rw [List.length_map]
  · rw [List.length_append, List.length_map, List.length_singleton]

/-- There are no more entries than attributes that have been set. -/
theorem length_setAllIn_le (l todo : List (String × String)) :
    (setAllIn l todo).length ≤ l.length + todo.length := by
  induction todo generalizing l with
  | nil => simp [setAllIn]
  | cons a todo ih =>
    have hone : (setIn a.1 a.2 l).length ≤ l.length + 1 := by
      rw [length_setIn]
      split <;> omega
    have hrest := ih (setIn a.1 a.2 l)
    rw [setAllIn_cons, List.length_cons]
    omega

/-- Where every one counts, the names are all different. -/
theorem nodup_of_length_setAllIn (hl : (l.map Prod.fst).Nodup)
    (hlen : (setAllIn l todo).length = l.length + todo.length) :
    ((l ++ todo).map Prod.fst).Nodup := by
  induction todo generalizing l with
  | nil => simpa using hl
  | cons a todo ih =>
    rw [setAllIn_cons, List.length_cons] at hlen
    have hrest := length_setAllIn_le (setIn a.1 a.2 l) todo
    have hone := length_setIn a.1 a.2 l
    by_cases hmem : a.1 ∈ l.map Prod.fst
    · rw [if_pos hmem] at hone
      omega
    · rw [if_neg hmem] at hone
      have hset : ((setIn a.1 a.2 l).map Prod.fst).Nodup := nodup_setIn hl
      have hnext := ih hset (by omega)
      rwa [setIn_of_not_mem hmem, ← List.append_cons] at hnext

-- ---------------------------------------------------------------------------
-- Looking up
-- ---------------------------------------------------------------------------

/-- An attribute is read as it was set, and the others as they were. -/
theorem attribute?_setAttribute (w : Widget) (name value other : String) :
    (w.setAttribute name value).attribute? other =
      if other = name then some value else w.attribute? other := by
  obtain ⟨id, element, visible, invisibleElement, hasId, renderType, l⟩ := w
  simp only [attribute?, setAttribute]
  induction l with
  | nil =>
    by_cases hother : other = name
    · simp [setIn, hother]
    · simp [setIn, hother, Ne.symm hother]
  | cons a l ih =>
    rw [setIn]
    -- the first attribute of that name is the one that is written
    by_cases ha : a.1 = name
    · rw [if_pos ha]
      by_cases hother : other = name
      · simp [hother]
      · have hne : a.1 ≠ other := fun heq => hother (heq.symm.trans ha)
        simp [hother, Ne.symm hother, hne]
    · rw [if_neg ha]
      by_cases hother : a.1 = other
      · have hne : other ≠ name := fun heq => ha (hother.trans heq)
        simp [hother, hne]
      · simpa [hother] using ih

/-- An attribute that has been removed is not read, and the others are as they were. -/
theorem attribute?_removeAttribute (w : Widget) (name other : String) :
    (w.removeAttribute name).attribute? other =
      if other = name then none else w.attribute? other := by
  rw [attribute?, removeAttribute, List.find?_filter]
  split
  next hother =>
    subst hother
    simp
  next hother =>
    rw [attribute?]
    congr 2
    funext a
    by_cases ha : a.1 = other
    · simp [ha, hother]
    · simp [ha]

-- ---------------------------------------------------------------------------
-- Widgets as they are made
-- ---------------------------------------------------------------------------

/-- A widget begins with some built-in properties and no attributes; attributes are then set and
removed. -/
inductive Built : Widget → Prop
  | plain (id element : String) (visible : Bool) (invisibleElement : String) (hasId : Bool)
      (renderType : RenderType) :
      Built { id, element, visible, invisibleElement, hasId, renderType }
  | set {w : Widget} (name value : String) : Built w → Built (w.setAttribute name value)
  | unset {w : Widget} (name : String) : Built w → Built (w.removeAttribute name)

/-- Removing an attribute makes no second entry. -/
theorem nodup_removeAttribute (hnodup : (w.attributes.map Prod.fst).Nodup) (name : String) :
    ((w.removeAttribute name).attributes.map Prod.fst).Nodup :=
  hnodup.sublist (List.filter_sublist.map Prod.fst)

/-- No name occurs twice. -/
theorem Built.nodup (hw : w.Built) : (w.attributes.map Prod.fst).Nodup := by
  induction hw with
  | plain => exact List.nodup_nil
  | set name value _ ih => exact nodup_setIn ih
  | unset name _ ih => exact nodup_removeAttribute ih name

end TreeScript.Widget
