import TreeScript.Proofs.Store.Links

/-!
# TreeScript — edits keep the links

Giving a node a value, making a node and moving one keep parents and children in
order. A new node gets a handle that nobody has seen, so no list of children
names it by accident.

* `Balanced.not_issued_allocate` — the handle of a new node is new;
* `Linked.assign`, `Linked.create`, `Linked.add` — values and new nodes;
* `Linked.moveBelow` — moving a node that does not stand above its new parent;
* `Evolves.assign` and so on — each edit is a sequence of operations on slots.
-/

namespace TreeScript.Store

-- ---------------------------------------------------------------------------
-- Values
-- ---------------------------------------------------------------------------

/-- The node that a value owns is taken out of its place, and the value is written. -/
def write (s : Store) (h : Handle) (v : Option Value) : Store :=
  (match v.bind Value.owned? with
    | some nested => s.detach nested
    | none => s).modify h fun n => { n with value := v }

/-- Giving a node a value is writing the value and freeing the node that the old
value owned, unless the new value owns it too. -/
theorem assign_cases (s : Store) (h : Handle) (v : Option Value) :
    s.assign h v = s.write h v ∧
        (∀ old, (s.node? h).bind Node.owned? = some old → v.bind Value.owned? = some old) ∨
      ∃ old, (s.node? h).bind Node.owned? = some old ∧ v.bind Value.owned? ≠ some old ∧
        s.assign h v = (s.write h v).remove old := by
  -- detaching the new tree does not change what the node owns
  have hsame : ∀ g, ((s.detach g).node? h).bind Node.owned? = (s.node? h).bind Node.owned? := by
    intro g
    unfold detach
    split
    · rfl
    · simp only [node?_modify]
      cases hn : s.node? h <;> grind [Node.owned?]
  unfold assign write
  cases hv : v.bind Value.owned? with
  | none =>
    simp only
    cases ho : (s.node? h).bind Node.owned? with
    | none => simp
    | some old => simp
  | some g =>
    simp only [hsame g]
    cases ho : (s.node? h).bind Node.owned? with
    | none => simp
    | some old =>
      by_cases heq : g = old
      · simp [heq]
      · simp [heq]

/-- Giving a value to a node that owns nothing frees nothing. -/
theorem assign_eq_write {s : Store} {h : Handle} {n : Node} (hn : s.node? h = some n)
    (ho : n.owned? = none) (v : Option Value) : s.assign h v = s.write h v := by
  rcases s.assign_cases h v with ⟨heq, -⟩ | ⟨old, hold, -, -⟩
  · exact heq
  · simp [hn, ho] at hold

theorem Evolves.write (s : Store) (h : Handle) (v : Option Value) : Evolves s (s.write h v) := by
  refine Evolves.trans ?_ (.modify _ _ _)
  split
  · exact .detach _ _
  · exact .refl _

theorem Evolves.assign (s : Store) (h : Handle) (v : Option Value) : Evolves s (s.assign h v) := by
  rcases s.assign_cases h v with ⟨heq, -⟩ | ⟨old, -, -, heq⟩
  · exact heq ▸ .write s h v
  · exact heq ▸ (Evolves.write s h v).trans (.remove _ _)

/-- Writing a value keeps parents and children in agreement: what it owns is detached first. -/
theorem Linked.write {s : Store} (hl : Linked s) (h : Handle) (v : Option Value) :
    Linked (s.write h v) := by
  refine Linked.modify ?_ h (fun _ => rfl) fun _ => rfl
  split
  · exact hl.detach _
  · exact hl

/-- Giving a node a value keeps the links in order. -/
theorem Linked.assign {s : Store} (hl : Linked s) (h : Handle) (v : Option Value)
    (hu : Unwrapped (s.assign h v) ∨ LiveChildren (s.assign h v)) : Linked (s.assign h v) := by
  rcases s.assign_cases h v with ⟨heq, -⟩ | ⟨old, -, -, heq⟩
  · exact heq ▸ hl.write h v
  · rw [heq] at hu ⊢
    exact (hl.write h v).remove old hu

-- ---------------------------------------------------------------------------
-- New nodes
-- ---------------------------------------------------------------------------

/-- The handle of a new node has not been given out before. -/
theorem Balanced.not_issued_allocate {s : Store} (hs : Balanced s) (hu : Unwrapped s) (n : Node) :
    ¬ s.Issued (s.allocate n).1 := by
  rintro (hlt | halive)
  · have hgen : (s.allocate n).1.generation.toNat = s.freedAt (s.allocate n).1.index := by
      unfold Store.allocate
      split
      next i rest _ =>
        simpa [Slot.generation] using hu i
      next => simp [freedAt]
    omega
  · simp [isAlive, hs.node?_allocate_fst] at halive

/-- A new node without links keeps the links in order. -/
theorem Linked.allocate {s : Store} (hl : Linked s) (hs : Balanced s) {n : Node}
    (hp : n.parent = none) (hc : n.children = [])
    (hu : Unwrapped (s.allocate n).2 ∨ LiveChildren s) : Linked (s.allocate n).2 := by
  have he := Evolves.allocate s n
  have hview := hs.node?_allocate n
  -- the handle of the new node is not in an old list
  have hnew : ∀ p, (s.allocate n).1 ∉ s.childList p := by
    intro p hmem
    rcases hu with hu | hlive
    · exact hs.not_issued_allocate (he.unwrapped hu) n (hl.issued_of_mem_childList hmem)
    · obtain ⟨k, hk, hmem⟩ := mem_childList_iff.1 hmem
      simpa [isAlive, hs.node?_allocate_fst n] using hlive hk hmem
  have hlist : ∀ x, (s.allocate n).2.childList x = s.childList x := by
    intro x
    by_cases hx : x = (s.allocate n).1
    · simp [childList, hview, hx, hc, hs.node?_allocate_fst n]
    · simp [childList, hview, hx]
  have hparent : ∀ x, (s.allocate n).2.parent? x = s.parent? x := by
    intro x
    by_cases hx : x = (s.allocate n).1
    · simp [parent?, hview, hx, hp, hs.node?_allocate_fst n]
    · simp [parent?, hview, hx]
  refine hl.thin (fun p => by rw [hlist]) (fun {c p} hmem halive => ?_) (fun {c p} hcp => ?_)
    fun {c p} hmem => ?_
  · rw [hlist] at hmem
    have hne : c ≠ (s.allocate n).1 := fun heq => hnew p (heq ▸ hmem)
    exact ⟨by simpa [isAlive, hview, hne] using halive, hparent c⟩
  · rw [hparent] at hcp
    rw [hlist]
    exact hl.mem_childList_of_parent? hcp
  · rw [hlist] at hmem
    rcases hu with hu | hlive
    · exact he.issued hu (hl.issued_of_mem_childList hmem)
    · obtain ⟨k, hk, hmem'⟩ := mem_childList_iff.1 hmem
      have hne : c ≠ (s.allocate n).1 := fun heq => hnew p (heq ▸ hmem)
      exact Or.inr (by simpa [isAlive, hview, hne] using hlive hk hmem')

/-- A node without a value is brought in as it is. -/
theorem create_none (s : Store) (name : String) :
    s.create name none = s.allocate { name } := rfl

/-- A node with a value is brought in without one, and is then assigned it. -/
theorem create_some (s : Store) (name : String) (v : Value) :
    s.create name (some v) =
      ((s.allocate { name }).1, (s.allocate { name }).2.assign (s.allocate { name }).1 (some v)) :=
  rfl

/-- A new node owns nothing yet, so giving it a value frees nothing. -/
theorem Balanced.create_eq_write {s : Store} (hs : Balanced s) (name : String) (v : Value) :
    (s.create name (some v)).2 = (s.allocate { name }).2.write (s.allocate { name }).1 (some v) := by
  have hself : (s.allocate { name }).2.node? (s.allocate { name }).1 = some { name } := by
    rw [hs.node?_allocate, if_pos rfl]
  rw [create_some]
  exact assign_eq_write hself rfl _

/-- A new node gets the handle that is next, whatever its value. -/
theorem create_fst (s : Store) (name : String) (v : Option Value) :
    (s.create name v).1 = (s.allocate { name }).1 := by
  cases v <;> rfl

theorem Evolves.create (s : Store) (name : String) (v : Option Value) :
    Evolves s (s.create name v).2 := by
  cases v with
  | none => exact .allocate _ _
  | some v => exact (Evolves.allocate _ _).trans (.assign _ _ _)

theorem Linked.create {s : Store} (hl : Linked s) (hs : Balanced s) (name : String)
    (v : Option Value) (hu : Unwrapped (s.create name v).2 ∨ LiveChildren s) :
    Linked (s.create name v).2 := by
  cases v with
  | none => exact hl.allocate hs rfl rfl hu
  | some v =>
    rw [hs.create_eq_write] at hu ⊢
    exact (hl.allocate hs rfl rfl (hu.imp_left (Evolves.write _ _ _).unwrapped)).write _ _

theorem LiveChildren.write {s : Store} (hlive : LiveChildren s) (h : Handle) (v : Option Value) :
    LiveChildren (s.write h v) := by
  unfold Store.write
  split
  · exact (hlive.detach _).modify _ fun n _ c hc => Or.inl hc
  · exact hlive.modify _ fun n _ c hc => Or.inl hc

theorem LiveChildren.allocate {s : Store} (hlive : LiveChildren s) (hs : Balanced s) {n : Node}
    (hc : n.children = []) : LiveChildren (s.allocate n).2 := by
  intro p k c hk hmem
  rw [hs.node?_allocate] at hk
  split at hk
  next =>
    obtain rfl := Option.some.inj hk
    simp [hc] at hmem
  next =>
    obtain ⟨m, hm⟩ := isAlive_iff.1 (hlive hk hmem)
    have hne : c ≠ (s.allocate n).1 := by
      rintro rfl
      simp [hs.node?_allocate_fst] at hm
    exact isAlive_iff.2 ⟨m, by rw [hs.node?_allocate, if_neg hne, hm]⟩

theorem LiveChildren.create {s : Store} (hlive : LiveChildren s) (hs : Balanced s) (name : String)
    (v : Option Value) : LiveChildren (s.create name v).2 := by
  cases v with
  | none => exact hlive.allocate hs rfl
  | some v =>
    rw [hs.create_eq_write]
    exact (hlive.allocate hs rfl).write _ _

/-- A new node has its name, its value and nothing else. -/
theorem Balanced.node?_create_self {s : Store} (hs : Balanced s) (name : String)
    (v : Option Value) :
    (s.create name v).2.node? (s.create name v).1 = some { name, value := v } := by
  have hself : (s.allocate { name }).2.node? (s.allocate { name }).1 = some { name } := by
    rw [hs.node?_allocate, if_pos rfl]
  cases v with
  | none => exact hself
  | some v =>
    rw [hs.create_eq_write, create_fst, write, node?_modify_self]
    split
    next g _ =>
      -- a node without parent is not moved, and it lists nobody
      unfold detach
      split
      · simp [hself]
      · simp only [node?_modify]
        grind
    next => simp [hself]

-- ---------------------------------------------------------------------------
-- New places
-- ---------------------------------------------------------------------------

theorem Evolves.link (s : Store) (p : Handle) (i : Nat) (c : Handle) : Evolves s (s.link p i c) :=
  (Evolves.modify _ _ _).trans (.modify _ _ _)

/-- A node without children stands above nobody. -/
theorem Linked.not_above_of_childless {s : Store} (hl : Linked s) {p c : Handle} {m : Node}
    (hc : s.node? c = some m) (hnil : m.children = []) (hne : p ≠ c) :
    ¬ Relation.ReflTransGen s.ChildOf p c := by
  intro hup
  rcases Relation.ReflTransGen.cases_tail hup with heq | ⟨x, -, hx⟩
  · exact hne heq.symm
  · obtain ⟨k, hk, hkc⟩ := childOf_iff.1 hx
    obtain ⟨m', hm', hmem⟩ := hl.lists hk hkc
    obtain rfl : m = m' := Option.some.inj (hc.symm.trans hm')
    simp [hnil] at hmem

/-- Linking a root behind the children of a node that does not stand below it keeps parents and
children in agreement. -/
theorem Linked.linkLast {s : Store} (hl : Linked s) {p c : Handle} {m : Node}
    (hp : s.isAlive p = true) (hc : s.node? c = some m) (hroot : m.parent = none)
    (hup : ¬ Relation.ReflTransGen s.ChildOf p c) : Linked (s.linkLast p c) := by
  obtain ⟨n, hn⟩ := isAlive_iff.1 hp
  exact hl.link hn hc hroot (by simp [childList_eq hn]) hup

/-- The shape of a successful `add`. -/
theorem add_eq_ok {s s' : Store} {parent h : Handle} {name : String} {v : Option Value}
    (hok : s.add parent name v = .ok (h, s')) :
    s.isAlive parent = true ∧ h = (s.create name v).1 ∧
      (s.create name v).2.isAlive parent = true ∧
      s' = (s.create name v).2.linkLast parent h := by
  unfold add at hok
  split at hok
  next halive =>
    simp only at hok
    split at hok
    next halive' =>
      obtain ⟨rfl, rfl⟩ := Prod.mk.inj (Except.ok.inj hok)
      exact ⟨halive, rfl, halive', rfl⟩
    next => simp at hok
  next => simp at hok

theorem Evolves.add {s s' : Store} {parent h : Handle} {name : String} {v : Option Value}
    (hok : s.add parent name v = .ok (h, s')) : Evolves s s' := by
  obtain ⟨-, rfl, -, rfl⟩ := add_eq_ok hok
  exact (Evolves.create _ _ _).trans (.link _ _ _ _)

theorem Linked.add {s s' : Store} (hl : Linked s) (hs : Balanced s) {parent h : Handle}
    {name : String} {v : Option Value} (hok : s.add parent name v = .ok (h, s'))
    (hu : Unwrapped s' ∨ LiveChildren s) : Linked s' := by
  obtain ⟨halive, rfl, halive', rfl⟩ := add_eq_ok hok
  have hcreate := hl.create hs name v (hu.imp_left (Evolves.link _ _ _ _).unwrapped)
  have hself := hs.node?_create_self name v
  have hne : parent ≠ (s.create name v).1 := by
    rintro heq
    rw [heq, create_fst] at halive
    simp [isAlive, hs.node?_allocate_fst] at halive
  exact hcreate.linkLast halive' hself rfl (hcreate.not_above_of_childless hself rfl hne)

/-- The shape of a successful move. -/
theorem moveBelow_eq_ok {s s' : Store} {parent child : Handle} {index : Nat}
    (hok : s.moveBelow parent index child = .ok s') :
    s.isAlive parent = true ∧ s.isAlive child = true ∧
      ∃ i, i ≤ ((s.detach child).childList parent).length ∧
        s' = (s.detach child).link parent i child := by
  unfold moveBelow at hok
  simp only [isAlive_detach] at hok
  split at hok
  next halive =>
    exact ⟨halive.1, halive.2, _, Nat.min_le_right _ _, (Except.ok.inj hok).symm⟩
  next => simp at hok

theorem Evolves.moveBelow {s s' : Store} {parent child : Handle} {index : Nat}
    (hok : s.moveBelow parent index child = .ok s') : Evolves s s' := by
  obtain ⟨-, -, i, -, rfl⟩ := moveBelow_eq_ok hok
  exact (Evolves.detach _ _).trans (.link _ _ _ _)

/-- Taking a node out of its place leaves no new way up. -/
theorem Linked.childOf_detach {s : Store} (hl : Linked s) {h c p : Handle}
    (hcp : (s.detach h).ChildOf c p) : s.ChildOf c p := by
  obtain ⟨m', hm', hp⟩ := childOf_iff.1 hcp
  rw [hl.node?_detach, Option.map_eq_some_iff] at hm'
  obtain ⟨m, hm, rfl⟩ := hm'
  by_cases hc : c = h
  · simp [hc] at hp
  · exact childOf_iff.2 ⟨m, hm, by simpa [hc] using hp⟩

/-- Moving a node below one that it does not stand above keeps the links in order. -/
theorem Linked.moveBelow {s s' : Store} (hl : Linked s) {parent child : Handle} {index : Nat}
    (hok : s.moveBelow parent index child = .ok s')
    (hup : ¬ Relation.ReflTransGen s.ChildOf parent child) : Linked s' := by
  obtain ⟨hp, hc, i, hi, rfl⟩ := moveBelow_eq_ok hok
  obtain ⟨m, hm⟩ := isAlive_iff.1 hc
  obtain ⟨n, hn⟩ := isAlive_iff.1 ((isAlive_detach s child parent).trans hp)
  rw [childList_eq hn] at hi
  have hm' : (s.detach child).node? child = some
      { m with parent := none, children := m.children.filter (· != child) } := by
    rw [hl.node?_detach, hm]
    simp [hc]
  refine (hl.detach child).link hn hm' rfl hi fun hback => hup ?_
  exact Relation.ReflTransGen.mono (fun c p h => hl.childOf_detach h) _ _ hback

end TreeScript.Store
