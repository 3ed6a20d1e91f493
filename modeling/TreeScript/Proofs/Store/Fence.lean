import TreeScript.Proofs.Store.LiveChildren
import TreeScript.Engine.Control
import TreeScript.Store.View

/-!
# TreeScript — fenced-off slots

A fence names slots that are not to be touched. Nodes inside point only at nodes
inside, so whatever begins inside stays there: each operation that is given handles
from inside leaves the fenced-off slots as they are, makes new nodes inside only,
and lets no node inside point out.

One node, the door, may stand below a node that is fenced off. It may be given a value
and children, but it is neither renamed, moved nor freed, so nothing inside holds it.

* `Fence`, `Fence.Inside`, `Fence.Contains` — fences and what they ask of a node;
* `Fence.Sealed` — fences without a door;
* `Store.Fenced` — a store that has kept to a fence since a base store;
* `Fenced.modify`, `Fenced.allocate`, `Fenced.releaseAll` — operations on slots;
* `Fenced.plant`, `Fenced.shape` — copies;
* `Fenced.moveBelow` and so on — one lemma for each edit.
-/

namespace TreeScript

/-- Slots that are fenced off, the node at the door, and the nodes that references may
point at. -/
structure Fence where
  off : Nat → Prop
  door : Option Handle
  refs : Handle → Prop

namespace Fence

/-- The slot of a handle may be touched. -/
def Open (F : Fence) (h : Handle) : Prop := ¬ F.off h.index

/-- A node that may be moved and freed. -/
def Inside (F : Fence) (h : Handle) : Prop := F.Open h ∧ some h ≠ F.door

/-- A value that does not point out. -/
def Admits (F : Fence) : Value → Prop
  | .scalar _ => True
  | .node h => F.Inside h
  | .ref h => F.refs h

/-- A node that does not point out; the door may have any parent. -/
structure Contains (F : Fence) (h : Handle) (n : Node) : Prop where
  parent : some h ≠ F.door → ∀ p, n.parent = some p → F.Open p
  children : ∀ c ∈ n.children, F.Inside c
  value : ∀ v, n.value = some v → F.Admits v

theorem Contains.owned {F : Fence} {h : Handle} {n : Node} (hn : F.Contains h n) {g : Handle}
    (hg : n.owned? = some g) : F.Inside g := by
  obtain ⟨v, hv, hg⟩ := Option.bind_eq_some_iff.1 hg
  have hadmits := hn.value v hv
  cases v with
  | node g' =>
    obtain rfl : g' = g := by simpa [Value.owned?] using hg
    exact hadmits
  | scalar _ => simp [Value.owned?] at hg
  | ref _ => simp [Value.owned?] at hg

/-- A fence that nothing inside can be seen across: it has no door, and references point
at nodes inside. -/
structure Sealed (F : Fence) : Prop where
  door : F.door = none
  refs (h : Handle) : F.refs h ↔ F.Inside h

theorem Sealed.inside {F : Fence} (hseal : F.Sealed) {h : Handle} (hh : F.Open h) :
    F.Inside h := ⟨hh, by simp [hseal.door]⟩

/-- The node that a value points at, either way. -/
theorem Sealed.inside_target {F : Fence} (hseal : F.Sealed) {v : Value} (hv : F.Admits v)
    {t : Handle} (ht : v.target? = some t) : F.Inside t := by
  cases v with
  | scalar _ => simp [Value.target?] at ht
  | node g =>
    obtain rfl : g = t := by simpa [Value.target?] using ht
    exact hv
  | ref g =>
    obtain rfl : g = t := by simpa [Value.target?] using ht
    exact (hseal.refs g).1 hv

end Fence

mutual

/-- A content whose references do not point out. -/
def Shape.Admitted (F : Fence) : Shape → Prop
  | .plain _ _ children => Shape.AllAdmitted F children
  | .holder _ nested children => Shape.Admitted F nested ∧ Shape.AllAdmitted F children
  | .pointer _ target children => F.refs target ∧ Shape.AllAdmitted F children

def Shape.AllAdmitted (F : Fence) : List Shape → Prop
  | [] => True
  | x :: rest => Shape.Admitted F x ∧ Shape.AllAdmitted F rest

end

namespace Store

/-- A node that still has its name and its place. -/
def InPlace (b : Store) (d : Handle) (s : Store) : Prop :=
  ∃ m n, b.node? d = some m ∧ s.node? d = some n ∧ n.name = m.name ∧ n.parent = m.parent

/-- A store that comes from a base store, with the fenced-off slots as they were, the
node at the door in its place, and no node inside pointing out. -/
structure Fenced (F : Fence) (b s : Store) : Prop where
  balanced : Balanced s
  slots {i : Nat} : F.off i → s.slots[i]? = b.slots[i]?
  size {i : Nat} : F.off i → i < s.slots.size
  free {i : Nat} : i ∈ s.free → ¬ F.off i
  door {d : Handle} : F.door = some d → InPlace b d s
  nodes {x : Handle} {n : Node} : F.Open x → s.node? x = some n → F.Contains x n

variable {F : Fence} {b s s' : Store}

/-- A node behind the fence is as it was. -/
theorem Fenced.node?_off (hF : Fenced F b s) {x : Handle} (hx : ¬ F.Open x) :
    s.node? x = b.node? x := by
  unfold node?
  rw [hF.slots (Classical.not_not.1 hx)]

/-- A node that still has its place is alive. -/
theorem InPlace.isAlive {d : Handle} (hd : InPlace b d s) : s.isAlive d = true := by
  obtain ⟨-, n, -, hn, -⟩ := hd
  exact isAlive_iff.2 ⟨n, hn⟩

/-- A node that is left alone stays in its place. -/
theorem InPlace.of_node? {d : Handle} (hd : InPlace b d s) (h : s'.node? d = s.node? d) :
    InPlace b d s' := by
  obtain ⟨m, n, hm, hn, hsame⟩ := hd
  exact ⟨m, n, hm, h.trans hn, hsame⟩

-- ---------------------------------------------------------------------------
-- Operations on slots
-- ---------------------------------------------------------------------------

/-- A node on an open slot may be changed as long as it does not point out then. The door has to
keep its name and its place. -/
theorem Fenced.modify (hF : Fenced F b s) {h : Handle} (hh : F.Open h) {f : Node → Node}
    (hf : ∀ n, s.node? h = some n → F.Contains h n → F.Contains h (f n))
    (hdoor : some h = F.door → ∀ n, (f n).name = n.name ∧ (f n).parent = n.parent) :
    Fenced F b (s.modify h f) := by
  refine ⟨hF.balanced.modify h f, ?_, ?_, ?_, ?_, ?_⟩
  -- the slots outside the fence, the size and the free list stay
  · intro i hi
    have hne : h.index ≠ i := fun heq => hh (heq ▸ hi)
    unfold Store.modify
    split
    · rw [Array.getElem?_setIfInBounds_ne hne, hF.slots hi]
    · exact hF.slots hi
  · intro i hi
    unfold Store.modify
    split
    · simpa using hF.size hi
    · exact hF.size hi
  · intro i hi
    refine hF.free (?_ : i ∈ s.free)
    unfold Store.modify at hi
    split at hi
    · exact hi
    · exact hi
  -- the node at the door may change, but not in its name or its parent
  · intro d hd
    by_cases heq : d = h
    · subst heq
      obtain ⟨m, n, hm, hn, hname, hparent⟩ := hF.door hd
      obtain ⟨hname', hparent'⟩ := hdoor hd.symm n
      exact ⟨m, f n, hm, by simp [hn], hname'.trans hname, hparent'.trans hparent⟩
    · exact (hF.door hd).of_node? (by rw [node?_modify, if_neg heq])
  -- what is inside stays inside by assumption
  · intro x n hx hn
    rw [node?_modify] at hn
    split at hn
    next heq =>
      subst heq
      obtain ⟨m, hm, rfl⟩ := Option.map_eq_some_iff.1 hn
      exact hf m hm (hF.nodes hx hm)
    next => exact hF.nodes hx hn

/-- A new node is inside. -/
theorem Fenced.inside_allocate (hF : Fenced F b s) (n : Node) : F.Inside (s.allocate n).1 := by
  refine ⟨?_, fun hdoor => ?_⟩
  · show ¬ F.off (s.allocate n).1.index
    unfold Store.allocate
    split
    next i rest hfree => exact hF.free (by simp [hfree])
    next => exact fun hoff => Nat.lt_irrefl _ (hF.size hoff)
  · have halive := (hF.door hdoor.symm).isAlive
    rw [isAlive, hF.balanced.node?_allocate_fst] at halive
    simp at halive

/-- A new node on an open slot may not point out. It gets a free slot, and those behind the fence
are in use. -/
theorem Fenced.allocate (hF : Fenced F b s) {n : Node} (hn : F.Contains (s.allocate n).1 n) :
    Fenced F b (s.allocate n).2 := by
  have hnew := (hF.inside_allocate n).1
  have hview := hF.balanced.node?_allocate n
  -- a new node takes no slot that lies outside the fence
  have hslots : ∀ i, F.off i → (s.allocate n).2.slots[i]? = s.slots[i]? := by
    intro i hi
    have hne : (s.allocate n).1.index ≠ i := fun heq => hnew (heq ▸ hi)
    unfold Store.allocate at hne ⊢
    split
    next => exact Array.getElem?_setIfInBounds_ne (by simp_all)
    next hfree =>
      rw [Array.getElem?_push, if_neg]
      simpa [hfree, eq_comm] using hne
  refine ⟨(Evolves.allocate s n).balanced hF.balanced, ?_, ?_, ?_, ?_, ?_⟩
  · intro i hi
    rw [hslots i hi, hF.slots hi]
  · intro i hi
    have hlt := hF.size hi
    have hsome := hslots i hi
    rw [Array.getElem?_eq_getElem hlt] at hsome
    exact (Array.getElem?_eq_some_iff.1 hsome).1
  · intro i hi
    refine hF.free ?_
    unfold Store.allocate at hi
    split at hi
    next j rest hfree => rw [hfree]; exact List.mem_cons_of_mem _ hi
    next => exact hi
  -- the node at the door is alive, so it is not the new one
  · intro d hd
    have halive := (hF.door hd).isAlive
    have hne : d ≠ (s.allocate n).1 := by
      rintro rfl
      simp [isAlive, hF.balanced.node?_allocate_fst] at halive
    exact (hF.door hd).of_node? (by rw [hview, if_neg hne])
  · intro x m hx hm
    rw [hview] at hm
    split at hm
    next heq =>
      obtain rfl := Option.some.inj hm
      exact heq ▸ hn
    next => exact hF.nodes hx hm

theorem Fenced.release (hF : Fenced F b s) {h : Handle} (hh : F.Inside h) {n : Node}
    (hr : s.release h = some (n, s')) : Fenced F b s' := by
  have hview := node?_release hr
  obtain ⟨-, heq⟩ := release_eq_some hr
  refine ⟨(Evolves.release hr).balanced hF.balanced, ?_, ?_, ?_, ?_, ?_⟩
  -- a slot is emptied that lies inside the fence
  · intro i hi
    have hne : h.index ≠ i := fun heq => hh.1 (heq ▸ hi)
    rw [heq, Array.getElem?_setIfInBounds_ne hne, hF.slots hi]
  · intro i hi
    rw [heq]
    simpa using hF.size hi
  · intro i hi
    rw [heq] at hi
    rcases List.mem_cons.1 hi with rfl | hi
    · exact hh.1
    · exact hF.free hi
  -- the node at the door is not the one that is freed
  · intro d hd
    have hne : d ≠ h := by
      rintro rfl
      exact hh.2 hd.symm
    exact (hF.door hd).of_node? (by rw [hview, if_neg hne])
  · intro x m hx hm
    rw [hview] at hm
    split at hm
    next => simp at hm
    next => exact hF.nodes hx hm

/-- All that is freed from inside is inside. -/
theorem Fenced.releaseAll (hF : Fenced F b s) {stack : List Handle}
    (hstack : ∀ h ∈ stack, F.Inside h) : Fenced F b (s.releaseAll stack) := by
  fun_induction Store.releaseAll s stack with
  | case1 => exact hF
  | case2 s h stack hr ih => exact ih hF fun x hx => hstack x (List.mem_cons_of_mem _ hx)
  | case3 s h stack n s' hr ih =>
    have hh := hstack h (by simp)
    have hn := hF.nodes hh.1 (node?_of_release hr)
    refine ih (hF.release hh hr) fun x hx => ?_
    rcases List.mem_append.1 hx with hx | hx
    · exact hn.owned (by simpa using hx)
    · rcases List.mem_append.1 hx with hx | hx
      · exact hn.children x (List.mem_reverse.1 hx)
      · exact hstack x (List.mem_cons_of_mem _ hx)

-- ---------------------------------------------------------------------------
-- Links
-- ---------------------------------------------------------------------------

/-- The parent of a node inside is on an open slot. -/
theorem Fenced.parent? (hF : Fenced F b s) {h p : Handle} (hh : F.Inside h)
    (hp : s.parent? h = some p) : F.Open p := by
  obtain ⟨m, hm, hmp⟩ := childOf_iff.1 (show s.ChildOf h p from hp)
  exact (hF.nodes hh.1 hm).parent hh.2 p hmp

/-- The children of a node on an open slot are inside. -/
theorem Fenced.childList (hF : Fenced F b s) {h c : Handle} (hh : F.Open h)
    (hc : c ∈ s.childList h) : F.Inside c := by
  cases hn : s.node? h with
  | none => simp [Store.childList, hn] at hc
  | some n =>
    rw [childList_eq hn] at hc
    exact (hF.nodes hh hn).children c hc

theorem Fenced.detach (hF : Fenced F b s) {h : Handle} (hh : F.Inside h) :
    Fenced F b (s.detach h) := by
  unfold Store.detach
  split
  next => exact hF
  next p hp =>
    have hmid : Fenced F b (s.modify p fun n => { n with children := n.children.filter (· != h) }) :=
      hF.modify (hF.parent? hh hp) (fun n _ hn =>
        ⟨hn.parent, fun c hc => hn.children c (List.mem_filter.1 hc).1, hn.value⟩)
        fun _ _ => ⟨rfl, rfl⟩
    exact hmid.modify hh.1 (fun n _ hn => ⟨fun _ q hq => by simp at hq, hn.children, hn.value⟩)
      fun hdoor => absurd hdoor hh.2

/-- A node inside may be linked below one on an open slot. -/
theorem Fenced.link (hF : Fenced F b s) {p c : Handle} (hp : F.Open p) (hc : F.Inside c)
    (i : Nat) : Fenced F b (s.link p i c) := by
  have hmid : Fenced F b (s.modify c fun n => { n with parent := some p }) := by
    refine hF.modify hc.1 (fun n _ hn => ⟨fun _ q hq => ?_, hn.children, hn.value⟩)
      fun hdoor => absurd hdoor hc.2
    obtain rfl : p = q := Option.some.inj hq
    exact hp
  refine hmid.modify hp (fun n _ hn => ⟨hn.parent, fun x hx => ?_, hn.value⟩)
    fun _ _ => ⟨rfl, rfl⟩
  rcases List.eq_or_mem_of_mem_insertIdx hx with rfl | hx
  · exact hc
  · exact hn.children x hx

/-- A node inside may be moved below one on an open slot. -/
theorem Fenced.moveBelow (hF : Fenced F b s) {p c : Handle} (hp : F.Open p) (hc : F.Inside c)
    {i : Nat} (hok : s.moveBelow p i c = .ok s') : Fenced F b s' := by
  obtain ⟨-, -, j, -, rfl⟩ := moveBelow_eq_ok hok
  exact (hF.detach hc).link hp hc j

-- ---------------------------------------------------------------------------
-- Freeing
-- ---------------------------------------------------------------------------

/-- A node inside may be removed, with all that it leads to. -/
theorem Fenced.remove (hF : Fenced F b s) {h : Handle} (hh : F.Inside h) :
    Fenced F b (s.remove h) := by
  unfold Store.remove
  split
  · exact (hF.detach hh).releaseAll (by simpa using hh)
  · exact hF

/-- Nodes inside may be removed one after another. -/
theorem Fenced.removeEach (hF : Fenced F b s) {hs : List Handle} (hhs : ∀ h ∈ hs, F.Inside h)
    (hok : s.removeEach hs = .ok s') : Fenced F b s' := by
  induction hs generalizing s with
  | nil =>
    obtain rfl : s = s' := by simpa [Store.removeEach] using hok
    exact hF
  | cons h rest ih =>
    have hh := hhs h (by simp)
    unfold Store.removeEach at hok
    split at hok
    next =>
      have hmid : Fenced F b (s.modify h fun n => { n with parent := none }) :=
        hF.modify hh.1 (fun n _ hn => ⟨fun _ q hq => by simp at hq, hn.children, hn.value⟩)
          fun hdoor => absurd hdoor hh.2
      exact ih (hmid.releaseAll (by simpa using hh)) (fun x hx => hhs x (List.mem_cons_of_mem _ hx)) hok
    next => simp at hok

/-- A node on an open slot may be cleared. -/
theorem Fenced.clear (hF : Fenced F b s) {h : Handle} (hh : F.Open h)
    (hok : s.clear h = .ok s') : Fenced F b s' := by
  obtain ⟨n, hn, hremove⟩ := clear_eq_ok hok
  have hmid : Fenced F b (s.modify h fun n => { n with children := [] }) :=
    hF.modify hh (fun n _ hn => ⟨hn.parent, by simp, hn.value⟩) fun _ _ => ⟨rfl, rfl⟩
  exact hmid.removeEach (hF.nodes hh hn).children hremove

-- ---------------------------------------------------------------------------
-- Values and new nodes
-- ---------------------------------------------------------------------------

/-- A node on an open slot may be given a value that does not point out. -/
theorem Fenced.write (hF : Fenced F b s) {h : Handle} (hh : F.Open h) {v : Option Value}
    (hv : ∀ x, v = some x → F.Admits x) : Fenced F b (s.write h v) := by
  have hset : ∀ {t : Store}, Fenced F b t → Fenced F b (t.modify h fun n => { n with value := v }) :=
    fun ht => ht.modify hh (fun n _ hn => ⟨hn.parent, hn.children, hv⟩) fun _ _ => ⟨rfl, rfl⟩
  unfold Store.write
  split
  next g hg =>
    obtain ⟨x, rfl, hx⟩ := Option.bind_eq_some_iff.1 hg
    have hadmits := hv x rfl
    cases x with
    | node g' =>
      obtain rfl : g' = g := by simpa [Value.owned?] using hx
      exact hset (hF.detach hadmits)
    | scalar _ => simp [Value.owned?] at hx
    | ref _ => simp [Value.owned?] at hx
  next => exact hset hF

/-- The same if what it owned before is freed. -/
theorem Fenced.assign (hF : Fenced F b s) {h : Handle} (hh : F.Open h) {v : Option Value}
    (hv : ∀ x, v = some x → F.Admits x) : Fenced F b (s.assign h v) := by
  rcases s.assign_cases h v with ⟨heq, -⟩ | ⟨old, hold, -, heq⟩
  · exact heq ▸ hF.write hh hv
  · obtain ⟨n, hn, hown⟩ := Option.bind_eq_some_iff.1 hold
    exact heq ▸ (hF.write hh hv).remove ((hF.nodes hh hn).owned hown)

/-- A value taken from a node on an open slot does not point out. -/
theorem Fenced.takeValue (hF : Fenced F b s) {h : Handle} (hh : F.Open h) {v : Option Value}
    (hok : s.takeValue h = .ok (v, s')) : Fenced F b s' ∧ ∀ x, v = some x → F.Admits x := by
  obtain ⟨n, hn, rfl, rfl⟩ := takeValue_eq_ok hok
  exact ⟨hF.modify hh (fun n _ hn => ⟨hn.parent, hn.children, by simp⟩) fun _ _ => ⟨rfl, rfl⟩,
    (hF.nodes hh hn).value⟩

theorem Fenced.create (hF : Fenced F b s) (name : String) {v : Option Value}
    (hv : ∀ x, v = some x → F.Admits x) :
    Fenced F b (s.create name v).2 ∧ F.Inside (s.create name v).1 := by
  have hnew := hF.inside_allocate { name }
  have halloc : Fenced F b (s.allocate { name }).2 :=
    hF.allocate ⟨by simp, by simp, by simp⟩
  refine ⟨?_, create_fst s name v ▸ hnew⟩
  cases v with
  | none => exact halloc
  | some v =>
    rw [hF.balanced.create_eq_write]
    exact halloc.write hnew.1 hv

theorem Fenced.add (hF : Fenced F b s) {p h : Handle} {name : String} {v : Option Value}
    (hp : F.Open p) (hv : ∀ x, v = some x → F.Admits x) (hok : s.add p name v = .ok (h, s')) :
    Fenced F b s' ∧ F.Inside h := by
  obtain ⟨-, rfl, -, rfl⟩ := add_eq_ok hok
  have hcreate := hF.create name hv
  exact ⟨hcreate.1.link hp hcreate.2 _, hcreate.2⟩

mutual

/-- Planting makes nodes inside. -/
theorem Fenced.plant {s : Store} (hF : Fenced F b s) : {x : Shape} → x.Admitted F →
    Fenced F b (s.plant x).2 ∧ F.Inside (s.plant x).1
  | .plain name value children, hx => by
    rw [Shape.Admitted] at hx
    rw [Store.plant]
    have hcreate := hF.create name (v := value.map Value.scalar) (by
      intro v hv
      obtain ⟨v, -, rfl⟩ := Option.map_eq_some_iff.1 hv
      trivial)
    exact ⟨hcreate.1.plantBelow hcreate.2.1 hx, hcreate.2⟩
  | .holder name nested children, hx => by
    rw [Shape.Admitted] at hx
    rw [Store.plant]
    -- the owned tree is inside, so the node that owns it may be
    have hnested := hF.plant hx.1
    have hcreate := hnested.1.create name (v := some (.node (s.plant nested).1)) (by
      intro v hv
      obtain rfl := Option.some.inj hv
      exact hnested.2)
    exact ⟨hcreate.1.plantBelow hcreate.2.1 hx.2, hcreate.2⟩
  | .pointer name target children, hx => by
    rw [Shape.Admitted] at hx
    rw [Store.plant]
    have hcreate := hF.create name (v := some (.ref target)) (by
      intro v hv
      obtain rfl := Option.some.inj hv
      exact hx.1)
    exact ⟨hcreate.1.plantBelow hcreate.2.1 hx.2, hcreate.2⟩

/-- Contents that do not point out may be planted below a node on an open slot. -/
theorem Fenced.plantBelow {s : Store} (hF : Fenced F b s) {p : Handle} (hp : F.Open p) :
    {xs : List Shape} → Shape.AllAdmitted F xs → Fenced F b (s.plantBelow p xs)
  | [], _ => by
    rw [Store.plantBelow]
    exact hF
  | x :: rest, hxs => by
    rw [Shape.AllAdmitted] at hxs
    rw [Store.plantBelow]
    have hplant := hF.plant hxs.1
    exact (hplant.1.link hp hplant.2 _).plantBelow hp hxs.2

end

/-- Contents that are read one by one do not point out if none of them does. -/
theorem admitted_of_mapM {f : Handle → Except Fault Shape} {hs : List Handle} {xs : List Shape}
    (hok : hs.mapM f = .ok xs) (hf : ∀ h ∈ hs, ∀ x, f h = .ok x → x.Admitted F) :
    Shape.AllAdmitted F xs := by
  induction hs generalizing xs with
  | nil =>
    obtain rfl : xs = [] := by simpa [pure, Except.pure, eq_comm] using hok
    trivial
  | cons h rest ih =>
    rw [List.mapM_cons] at hok
    cases hx : f h with
    | error e => simp [hx, bind, Except.bind] at hok
    | ok x =>
      cases hrest : rest.mapM f with
      | error e => simp [hx, hrest, bind, Except.bind] at hok
      | ok ys =>
        obtain rfl : x :: ys = xs := by
          simpa [hx, hrest, bind, Except.bind, pure, Except.pure] using hok
        exact ⟨hf h (by simp) x hx, ih hrest fun g hg => hf g (List.mem_cons_of_mem _ hg)⟩

/-- A content is admitted if that of all nodes that are reached is, in whatever way. -/
theorem admitted_of_closed {R : Handle → Prop}
    (hheld : ∀ x n, R x → s.node? x = some n → (∀ c ∈ n.children, R c) ∧
      (∀ g, n.value = some (.node g) → R g) ∧
      ∀ t, n.value = some (.ref t) → F.refs t) {fuel : Nat} {h : Handle} {x : Shape}
    (hh : R h) (hok : s.shapeWithin fuel h = .ok x) : x.Admitted F := by
  induction fuel generalizing h x with
  | zero => simp [shapeWithin] at hok
  | succ fuel ih =>
    obtain ⟨n, xs, hn, hxs, hcases⟩ := shapeWithin_succ_eq_ok hok
    obtain ⟨hchildren, hnode, href⟩ := hheld h n hh hn
    have hall : Shape.AllAdmitted F xs :=
      admitted_of_mapM hxs fun c hc y hy => ih (hchildren c hc) hy
    rcases hcases with ⟨-, rfl⟩ | ⟨v, -, rfl⟩ | ⟨g, y, hv, hy, rfl⟩ | ⟨t, hv, rfl⟩
    · exact hall
    · exact hall
    · exact ⟨ih (hnode g hv) hy, hall⟩
    · exact ⟨href t hv, hall⟩

/-- The content of a node inside is admitted. -/
theorem Fenced.shape (hF : Fenced F b s) {h : Handle} (hh : F.Open h) {x : Shape}
    (hok : s.shape h = .ok x) : x.Admitted F := by
  refine admitted_of_closed (R := F.Open) (fun y n hy hn => ?_) hh hok
  have hcontains := hF.nodes hy hn
  exact ⟨fun c hc => (hcontains.children c hc).1, fun g hg => (hcontains.value _ hg).1,
    fun t ht => hcontains.value _ ht⟩

mutual

/-- A document has no references. -/
theorem admitted_ofDoc : (d : Doc) → (Shape.ofDoc d).Admitted F
  | .plain name value children => by
    rw [Shape.ofDoc, Shape.Admitted]
    exact allAdmitted_ofForest children
  | .holder name nested children => by
    rw [Shape.ofDoc, Shape.Admitted, Shape.Admitted]
    exact ⟨allAdmitted_ofForest nested, allAdmitted_ofForest children⟩

/-- What is read from text has no references. -/
theorem allAdmitted_ofForest : (ds : List Doc) → Shape.AllAdmitted F (Shape.ofForest ds)
  | [] => by
    rw [Shape.ofForest]
    trivial
  | d :: ds => by
    rw [Shape.ofForest]
    exact ⟨admitted_ofDoc d, allAdmitted_ofForest ds⟩

end

/-- A text that is read becomes a tree inside. -/
theorem Fenced.parse (hF : Fenced F b s) {text : String} {h : Handle}
    (hok : s.parse text = .ok (h, s')) : Fenced F b s' ∧ F.Inside h := by
  unfold Store.parse at hok
  split at hok
  next docs _ =>
    have hplant := hF.plant (x := .plain "" none (Shape.ofForest docs)) (by
      rw [Shape.Admitted]
      exact allAdmitted_ofForest docs)
    simpa [Except.ok.inj hok] using hplant
  next => simp at hok

-- ---------------------------------------------------------------------------
-- Signals
-- ---------------------------------------------------------------------------

theorem Fenced.root? (hF : Fenced F b s) (hdoor : F.door = none) {h r : Handle} (hh : F.Inside h)
    (hr : s.root? h = some r) : F.Inside r := by
  -- a parent is inside as well, and the ancestors by induction on the way up
  have hall : ∀ fuel h, F.Inside h → ∀ a ∈ s.ancestorsWithin fuel h, F.Inside a := by
    intro fuel
    induction fuel with
    | zero => simp [ancestorsWithin]
    | succ fuel ih =>
      intro h hh a ha
      rw [ancestorsWithin] at ha
      split at ha
      next => simp at ha
      next p hp =>
        have hpin : F.Inside p := ⟨hF.parent? hh hp, by simp [hdoor]⟩
        rcases List.mem_cons.1 ha with rfl | ha
        · exact hpin
        · exact ih p hpin a ha
  unfold Store.root? at hr
  split at hr
  next =>
    obtain rfl := Option.some.inj hr
    cases hlast : (s.ancestors h).getLast? with
    | none => simpa using hh
    | some a => simpa using hall _ h hh a (List.mem_of_getLast? hlast)
  next => simp at hr

theorem Fenced.frontOf? (hF : Fenced F b s) (hdoor : F.door = none) {h f : Handle}
    (hh : F.Inside h) (hf : s.frontOf? h = some f) : F.Inside f := by
  obtain ⟨r, hr, hfirst⟩ := Option.bind_eq_some_iff.1 hf
  exact hF.childList (hF.root? hdoor hh hr).1 (List.mem_of_head? hfirst)

/-- Without a door, a signal is raised inside. -/
theorem Fenced.signal (hF : Fenced F b s) (hdoor : F.door = none) {h : Handle} (hh : F.Inside h)
    {c : Control} (hok : s.signal h c = .ok s') : Fenced F b s' := by
  unfold Store.signal at hok
  split at hok
  next r name hr _ =>
    have hcreate := hF.create name (v := none) (by simp)
    exact hcreate.1.moveBelow (hF.root? hdoor hh hr).1 hcreate.2 hok
  next =>
    obtain rfl := Except.ok.inj hok
    exact hF

/-- Without a door, a signal is cleared inside. -/
theorem Fenced.clearSignal (hF : Fenced F b s) (hdoor : F.door = none) {h : Handle}
    (hh : F.Inside h) {c : Control} (hok : s.clearSignal h = .ok (c, s')) : Fenced F b s' := by
  unfold Store.clearSignal Store.name at hok
  split at hok
  next =>
    obtain ⟨-, rfl⟩ := Prod.mk.inj (Except.ok.inj hok)
    exact hF
  next f hf =>
    cases hn : s.node f with
    | error e => simp [hn, Except.map, bind, Except.bind] at hok
    | ok n =>
      simp only [hn, Except.map, bind, Except.bind, Except.ok.injEq, Prod.mk.injEq] at hok
      obtain ⟨-, rfl⟩ := hok
      split
      · exact hF.remove (hF.frontOf? hdoor hh hf)
      · exact hF

/-- A return is taken away below a node on an open slot. -/
theorem Fenced.stripReturn (hF : Fenced F b s) {h : Handle} (hh : F.Open h)
    (hok : s.stripReturn h = .ok s') : Fenced F b s' := by
  unfold Store.stripReturn Store.name at hok
  split at hok
  next =>
    obtain rfl := Except.ok.inj hok
    exact hF
  next f hf =>
    cases hn : s.node f with
    | error e => simp [hn, Except.map, bind, Except.bind] at hok
    | ok n =>
      simp only [hn, Except.map, bind, Except.bind, Except.ok.injEq] at hok
      obtain rfl := hok
      split
      · exact hF.remove (hF.childList hh (List.mem_of_head? hf))
      · exact hF

end Store

end TreeScript
