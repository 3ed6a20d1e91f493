import TreeScript.Proofs.Store.Calls

/-!
# TreeScript — stale handles among the children

Freeing a node frees what it owns, but only the topmost freed node is taken out of
its parent's children. Lists of children therefore stay free of stale handles as
long as no node has a parent and another node that owns it. Moving a node does not
ask whether it is owned, so this is a condition on the history.

* `OwnsApart` — a node that another node owns has no parent;
* `LiveChildren.remove`, `LiveChildren.clear`, `LiveChildren.assign` — freeing
  under this condition;
* `performAll_liveChildren` — histories under this condition;
* `HandsOutLive` — no way of finding one's way meets a stale handle;
* `stale_child_of_remove` — where the condition is broken, freeing the owner
  leaves a stale child.
-/

namespace TreeScript.Store

/-- The first node owns the second one as its value. -/
def Owns (s : Store) (o c : Handle) : Prop := (s.node? o).bind Node.owned? = some c

/-- A node that another node owns has no parent. -/
def OwnsApart (s : Store) : Prop := ∀ ⦃o c : Handle⦄, o ≠ c → s.Owns o c → s.parent? c = none

theorem owns_iff {s : Store} {o c : Handle} :
    s.Owns o c ↔ ∃ n, s.node? o = some n ∧ n.owned? = some c := Option.bind_eq_some_iff

/-- A node that is given a value owns what that one says. -/
theorem owns_modify_value {s : Store} {h : Handle} {v : Option Value} {o c : Handle} :
    (s.modify h fun n => { n with value := v }).Owns o c ↔
      if o = h then s.isAlive h = true ∧ v.bind Value.owned? = some c else s.Owns o c := by
  unfold Owns
  rw [node?_modify]
  by_cases ho : o = h
  · subst ho
    cases hn : s.node? o <;> simp [isAlive, hn, Node.owned?]
  · simp [ho]

-- ---------------------------------------------------------------------------
-- Freeing
-- ---------------------------------------------------------------------------

/-- The last step of a way down comes from another node. -/
theorem Reaches.cases_last_ne {s : Store} {h x : Handle} (hx : s.Reaches h x) :
    h = x ∨ ∃ d, d ≠ x ∧ s.Reaches h d ∧ s.Holds d x := by
  induction hx with
  | refl => exact Or.inl rfl
  | @tail b c hb hc ih =>
    by_cases heq : b = c
    · exact heq ▸ ih
    · exact Or.inr ⟨b, heq, hb, hc⟩

/-- A child is reached only through its parent, unless the way begins at it. -/
theorem OwnsApart.reaches_parent {s : Store} (hapart : OwnsApart s)
    (hlisted : ∀ {p c n m}, s.node? p = some n → c ∈ n.children → s.node? c = some m →
      m.parent = some p)
    {h p c : Handle} (hp : c ∈ s.childList p) (hc : s.isAlive c = true) (hne : h ≠ c)
    (hreach : s.Reaches h c) : s.Reaches h p := by
  obtain ⟨m, hm⟩ := isAlive_iff.1 hc
  have hparent : m.parent = some p := by
    cases hn : s.node? p with
    | none => simp [childList, hn] at hp
    | some n => exact hlisted hn (childList_eq hn ▸ hp) hm
  rcases hreach.cases_last_ne with heq | ⟨d, hd, hhd, k, hk, hmem | hown⟩
  · exact absurd heq hne
  · obtain rfl : p = d := Option.some.inj (hparent.symm.trans (hlisted hk hmem hm))
    exact hhd
  · have := hapart hd (owns_iff.2 ⟨k, hk, hown⟩)
    simp [parent?, hm, hparent] at this

/-- Edits after which nothing is owned anew and nobody has a new parent keep the condition. -/
theorem OwnsApart.thin {s t : Store} (hapart : OwnsApart s)
    (hview : ∀ {x n'}, t.node? x = some n' → ∃ n, s.node? x = some n ∧ n'.owned? = n.owned? ∧
      (n'.parent = n.parent ∨ n'.parent = none)) : OwnsApart t := by
  intro o c hne ho
  obtain ⟨n', hn', hown⟩ := owns_iff.1 ho
  obtain ⟨n, hn, howned, -⟩ := hview hn'
  have hroot := hapart hne (owns_iff.2 ⟨n, hn, howned ▸ hown⟩)
  cases hm' : t.node? c with
  | none => simp [parent?, hm']
  | some m' =>
    obtain ⟨m, hm, -, hpar | hpar⟩ := hview hm'
    · simpa [parent?, hm', hm, hpar] using hroot
    · simp [parent?, hm', hpar]

/-- Detaching leaves what is owned without a parent. -/
theorem OwnsApart.detach {s : Store} (hapart : OwnsApart s) (h : Handle) :
    OwnsApart (s.detach h) := by
  refine hapart.thin fun {x n'} hn' => ?_
  rw [node?_detach, Option.map_eq_some_iff] at hn'
  obtain ⟨n, hn, rfl⟩ := hn'
  refine ⟨n, hn, rfl, ?_⟩
  by_cases hx : x = h
  · exact Or.inr (if_pos hx)
  · exact Or.inl (if_neg hx)

/-- Freeing a node under the condition leaves no stale child. -/
theorem LiveChildren.remove {s : Store} (hlive : LiveChildren s) (hl : Linked s)
    (hapart : OwnsApart s) (h : Handle) : LiveChildren (s.remove h) := by
  unfold Store.remove
  split
  next halive =>
    intro p n c hn hc
    obtain ⟨hn, hnot⟩ := (node?_releaseAll_eq_some _ _ _ _).1 hn
    have hcalive := hlive.detach h hn hc
    refine (isAlive_releaseAll _ _ _).2 ⟨hcalive, fun g hg hreach => hnot g hg ?_⟩
    obtain rfl := List.mem_singleton.1 hg
    -- nobody lists the node that is freed, since it has been taken out of its place
    have hne : g ≠ c := by
      rintro rfl
      rw [hl.node?_detach, Option.map_eq_some_iff] at hn
      obtain ⟨k, -, rfl⟩ := hn
      simp [halive] at hc
    exact (hapart.detach g).reaches_parent (hl.detach g).listed (by rwa [childList_eq hn])
      hcalive hne hreach
  next => exact hlive

/-- Freeing the children of a node under the condition leaves no stale child. -/
theorem LiveChildren.clear {s s' : Store} (hlive : LiveChildren s) (hl : Linked s)
    (hapart : OwnsApart s) {h : Handle} (hok : s.clear h = .ok s') : LiveChildren s' := by
  obtain ⟨k, hk, hremove⟩ := clear_eq_ok hok
  set t := s.modify h fun n => { n with children := [] } with ht
  have hview := node?_removeEach_eq_some hremove
  have hback : ∀ {x n'}, t.node? x = some n' → ∃ n, s.node? x = some n ∧ n'.parent = n.parent ∧
      n'.owned? = n.owned? ∧ (∀ c ∈ n'.children, c ∈ n.children) := by
    intro x n' hn'
    rw [ht, node?_modify] at hn'
    split at hn'
    next heq =>
      obtain ⟨n, hn, rfl⟩ := Option.map_eq_some_iff.1 hn'
      exact ⟨n, heq ▸ hn, rfl, rfl, by simp⟩
    next => exact ⟨n', hn', rfl, rfl, fun _ hc => hc⟩
  have hlisted : ∀ {p c n m}, t.node? p = some n → c ∈ n.children → t.node? c = some m →
      m.parent = some p := by
    intro p c n' m' hn' hc hm'
    obtain ⟨n, hn, -, -, hsub⟩ := hback hn'
    obtain ⟨m, hm, hpar, -, -⟩ := hback hm'
    exact hpar ▸ hl.listed hn (hsub c hc) hm
  have hapart' : OwnsApart t := hapart.thin fun hn' =>
    have ⟨n, hn, hpar, howned, _⟩ := hback hn'
    ⟨n, hn, howned, Or.inl hpar⟩
  intro p n c hn hc
  obtain ⟨hnt, hnot⟩ := (hview p n).1 hn
  obtain ⟨n₀, hn₀, -, -, hsub⟩ := hback hnt
  have hcalive : t.isAlive c = true := by
    rw [ht, isAlive_modify]
    exact hlive hn₀ (hsub c hc)
  obtain ⟨m, hm⟩ := isAlive_iff.1 hcalive
  refine isAlive_iff.2 ⟨m, (hview c m).2 ⟨hm, fun g hg hreach => hnot g hg ?_⟩⟩
  -- a child of `h` is listed by `h` alone, which lists nobody any more
  have hne : g ≠ c := by
    rintro rfl
    obtain ⟨m₀, hm₀, -, -, -⟩ := hback hm
    have hp := hl.listed hk hg hm₀
    obtain rfl : h = p := Option.some.inj (hp.symm.trans (hl.listed hn₀ (hsub _ hc) hm₀))
    rw [ht, node?_modify_self, hk] at hnt
    obtain rfl := Option.some.inj hnt
    simp at hc
  exact hapart'.reaches_parent hlisted (by rwa [childList_eq hnt]) hcalive hne hreach

/-- A value whose owned node has no parent leaves what is owned without one. -/
theorem OwnsApart.modify_value {s : Store} (hapart : OwnsApart s) {h : Handle} {v : Option Value}
    (hv : ∀ c, v.bind Value.owned? = some c → s.parent? c = none) :
    OwnsApart (s.modify h fun n => { n with value := v }) := by
  intro o c hne ho
  rw [parent?_modify_value]
  rw [owns_modify_value] at ho
  split at ho
  next => exact hv c ho.2
  next => exact hapart hne ho

/-- Writing a value keeps the condition: what the value owns is taken out of its place. -/
theorem OwnsApart.write {s : Store} (hapart : OwnsApart s) (h : Handle) (v : Option Value) :
    OwnsApart (s.write h v) := by
  unfold Store.write
  split
  next nested hv =>
    exact (hapart.detach nested).modify_value fun c hc => by
      rw [parent?_detach, if_pos (Option.some.inj (hc.symm.trans hv))]
  next hv => exact hapart.modify_value fun c hc => by simp [hv] at hc

/-- Assigning a value leaves live children only, if what is owned has no parent: the old value is
freed, and nobody lists what goes with it. -/
theorem LiveChildren.assign {s : Store} (hlive : LiveChildren s) (hl : Linked s)
    (hapart : OwnsApart s) (h : Handle) (v : Option Value) : LiveChildren (s.assign h v) := by
  rcases s.assign_cases h v with ⟨heq, -⟩ | ⟨old, -, -, heq⟩
  · exact heq ▸ hlive.write h v
  · exact heq ▸ (hlive.write h v).remove (hl.write h v) (hapart.write h v) old

-- ---------------------------------------------------------------------------
-- Histories
-- ---------------------------------------------------------------------------

theorem LiveChildren.moveBelow {s s' : Store} (hlive : LiveChildren s) {parent child : Handle}
    {index : Nat} (hok : s.moveBelow parent index child = .ok s') : LiveChildren s' := by
  obtain ⟨-, hc, i, -, rfl⟩ := moveBelow_eq_ok hok
  exact (hlive.detach child).link _ _ (by rwa [isAlive_detach])

theorem LiveChildren.afterMove {s s' : Store} (hlive : LiveChildren s) {parent child : Handle}
    {index : Nat} (h : s.afterMove (s.insert parent index child) = some s') : LiveChildren s' := by
  rcases afterMove_insert h with rfl | ⟨-, hok⟩
  · exact hlive
  · exact hlive.moveBelow hok

/-- A call under the condition leaves no stale child. -/
theorem Call.perform_liveChildren {s s' : Store} {call : Call} (h : call.perform s = some s')
    (hs : Balanced s) (hl : Linked s) (hlive : LiveChildren s) (hapart : OwnsApart s) :
    LiveChildren s' := by
  cases call with
  | create name v =>
    obtain rfl := Option.some.inj h
    exact hlive.create hs name v
  | add parent name v =>
    obtain ⟨⟨c, t⟩, hok, rfl⟩ := Option.map_eq_some_iff.1 h
    obtain ⟨-, rfl, -, rfl⟩ := add_eq_ok (toOption_eq_some.1 hok)
    exact (hlive.create hs name v).link _ _ (isAlive_iff.2 ⟨_, hs.node?_create_self name v⟩)
  | rename x name =>
    obtain rfl := rename_eq_ok (toOption_eq_some.1 h)
    exact hlive.modify x fun _ _ _ hc => Or.inl hc
  -- where trees are freed, it matters that no owned tree is a child
  | setValue x v =>
    obtain ⟨-, rfl⟩ := setValue_eq_ok (toOption_eq_some.1 h)
    exact hlive.assign hl hapart x v
  | takeValue x =>
    obtain ⟨⟨v, t⟩, hok, rfl⟩ := Option.map_eq_some_iff.1 h
    obtain ⟨-, -, -, rfl⟩ := takeValue_eq_ok (toOption_eq_some.1 hok)
    exact hlive.modify x fun _ _ _ hc => Or.inl hc
  | append parent child =>
    obtain ⟨index, hmove⟩ := afterMove_append h
    exact hlive.afterMove hmove
  | insert parent index child => exact hlive.afterMove h
  | detach x => exact Option.some.inj h ▸ hlive.detach x
  | remove x => exact Option.some.inj h ▸ hlive.remove hl hapart x
  | clear x => exact hlive.clear hl hapart (toOption_eq_some.1 h)
  | deepClone x =>
    obtain ⟨⟨c, t⟩, hok, rfl⟩ := Option.map_eq_some_iff.1 h
    exact hlive.deepClone hs (toOption_eq_some.1 hok)

/-- A history that keeps owned nodes apart all the way leaves no stale child. -/
theorem performAll_liveChildren {s s' : Store} {calls : List Call}
    (h : s.performAll calls = some s') (hs : Balanced s) (hl : Linked s) (hlive : LiveChildren s)
    (hapart : ∀ before, before <+: calls → ∀ t, s.performAll before = some t → OwnsApart t) :
    LiveChildren s' := by
  induction calls generalizing s with
  | nil => exact Option.some.inj h ▸ hlive
  | cons call rest ih =>
    obtain ⟨t, ht, hrest⟩ := Option.bind_eq_some_iff.1 h
    have hapart₀ : OwnsApart s := hapart [] List.nil_prefix s rfl
    have hlive' := Call.perform_liveChildren ht hs hl hlive hapart₀
    refine ih hrest ((Call.perform_evolves ht).balanced hs)
      (Call.perform_linked ht hs hl (Or.inr ⟨hlive, hlive'⟩)) hlive' fun before hb u hu => ?_
    refine hapart (call :: before) (List.prefix_cons_inj call |>.2 hb) u ?_
    simpa [performAll, ht] using hu

-- ---------------------------------------------------------------------------
-- What one finds
-- ---------------------------------------------------------------------------

/-- Finding one's way in a store gives live handles only and meets no stale one. -/
structure HandsOutLive (s : Store) : Prop where
  children {h : Handle} {cs : List Handle} : s.children h = .ok cs → ∀ c ∈ cs, s.isAlive c = true
  child {h c : Handle} {index : Nat} : s.child? h index = some c → s.isAlive c = true
  firstChild {h c : Handle} : s.firstChild? h = some c → s.isAlive c = true
  nextSibling {h c : Handle} : s.nextSibling? h = some c → s.isAlive c = true
  previousSibling {h c : Handle} : s.previousSibling? h = some c → s.isAlive c = true
  descendants {h : Handle} {ds : List Handle} : s.descendants h = .ok ds →
    ∀ d ∈ ds, s.isAlive d = true
  descendants_ne_stale {h : Handle} : s.isAlive h = true → s.descendants h ≠ .error .stale
  childNamed (h : Handle) (name : String) :
    ∃ found, s.childNamed? h name = .ok found ∧ ∀ c, found = some c → s.isAlive c = true

/-- The children of a node can be asked for just if it is alive. -/
theorem children_eq_ok {s : Store} {h : Handle} {cs : List Handle} :
    s.children h = .ok cs ↔ ∃ n, s.node? h = some n ∧ n.children = cs := by
  unfold Store.children Store.node
  cases s.node? h <;> simp [Except.map]

theorem LiveChildren.of_mem_childList {s : Store} (hlive : LiveChildren s) {p c : Handle}
    (hc : c ∈ s.childList p) : s.isAlive c = true := by
  cases hn : s.node? p with
  | none => simp [childList, hn] at hc
  | some n => exact hlive hn (childList_eq hn ▸ hc)

/-- A walk that starts with live nodes meets live nodes. -/
theorem LiveChildren.walk {s : Store} (hlive : LiveChildren s) {fuel : Nat} {stack : List Handle}
    (hstack : ∀ h ∈ stack, s.isAlive h = true) :
    s.walk fuel stack ≠ .error .stale ∧
      ∀ ds, s.walk fuel stack = .ok ds → ∀ d ∈ ds, s.isAlive d = true := by
  induction fuel generalizing stack with
  | zero =>
    cases stack with
    | nil => simp [Store.walk]
    | cons h stack => simp [Store.walk]
  | succ fuel ih =>
    cases stack with
    | nil => simp [Store.walk]
    | cons h stack =>
      obtain ⟨halive, hrest⟩ := List.forall_mem_cons.1 hstack
      obtain ⟨n, hn⟩ := isAlive_iff.1 halive
      -- the children go on the stack, alive like everything on it
      have hbelow : ∀ x ∈ n.children ++ stack, s.isAlive x = true :=
        List.forall_mem_append.2 ⟨fun c hc => hlive hn hc, hrest⟩
      obtain ⟨hstale, hok⟩ := ih hbelow
      -- one step of the walk
      have hwalk : s.walk (fuel + 1) (h :: stack) =
          (s.walk fuel (n.children ++ stack)).map (h :: ·) := by
        rw [Store.walk, children_eq_ok.2 ⟨n, hn, rfl⟩]
        simp only [bind, Except.bind]
        cases s.walk fuel (n.children ++ stack) <;> rfl
      rw [hwalk]
      cases hw : s.walk fuel (n.children ++ stack) with
      | error e => simpa [Except.map, hw] using hstale
      | ok rest =>
        refine ⟨by simp [Except.map], fun ds hds => ?_⟩
        obtain rfl : h :: rest = ds := Except.ok.inj hds
        exact List.forall_mem_cons.2 ⟨halive, hok rest hw⟩

/-- A search among live nodes comes to an answer, and what it finds is alive. -/
theorem findNamed_of_isAlive {s : Store} {name : String} {hs : List Handle}
    (halive : ∀ h ∈ hs, s.isAlive h = true) :
    ∃ found, s.findNamed name hs = .ok found ∧ ∀ c, found = some c → s.isAlive c = true := by
  induction hs with
  | nil => exact ⟨none, rfl, by simp⟩
  | cons h rest ih =>
    obtain ⟨hh, hrest⟩ := List.forall_mem_cons.1 halive
    obtain ⟨n, hn⟩ := isAlive_iff.1 hh
    by_cases heq : n.name = name
    · exact ⟨some h, by simp [findNamed, hn, heq], by simpa using hh⟩
    · obtain ⟨found, hfound, hlive⟩ := ih hrest
      exact ⟨found, by simpa [findNamed, hn, heq] using hfound, hlive⟩

/-- Where no list of children has a stale handle in it, nobody finds one. -/
theorem LiveChildren.handsOutLive {s : Store} (hlive : LiveChildren s) : HandsOutLive s := by
  -- a child found by its place is in a list
  have hchild : ∀ {h c : Handle} {index : Nat}, s.child? h index = some c → s.isAlive c = true :=
    fun hc => hlive.of_mem_childList (List.mem_of_getElem? hc)
  refine ⟨?_, hchild, ?_, ?_, ?_, ?_, ?_, ?_⟩
  · intro h cs hcs c hc
    obtain ⟨n, hn, rfl⟩ := children_eq_ok.1 hcs
    exact hlive hn hc
  · intro h c hc
    exact hlive.of_mem_childList (List.mem_of_head? hc)
  · intro h c hc
    obtain ⟨p, -, hc⟩ := Option.bind_eq_some_iff.1 hc
    obtain ⟨i, -, hc⟩ := Option.bind_eq_some_iff.1 hc
    exact hchild hc
  · intro h c hc
    obtain ⟨p, -, hc⟩ := Option.bind_eq_some_iff.1 hc
    split at hc
    · exact hchild hc
    · simp at hc
  · intro h ds hds
    cases hcs : s.children h with
    | error e => simp [Store.descendants, hcs, bind, Except.bind] at hds
    | ok cs =>
      obtain ⟨n, hn, rfl⟩ := children_eq_ok.1 hcs
      simp only [Store.descendants, hcs, bind, Except.bind] at hds
      exact (hlive.walk fun c hc => hlive hn hc).2 ds hds
  · intro h halive
    obtain ⟨n, hn⟩ := isAlive_iff.1 halive
    simp only [Store.descendants, children_eq_ok.2 ⟨n, hn, rfl⟩, bind, Except.bind]
    exact (hlive.walk fun c hc => hlive hn hc).1
  · intro h name
    exact findNamed_of_isAlive fun c hc => hlive.of_mem_childList hc

-- ---------------------------------------------------------------------------
-- Where the condition is broken
-- ---------------------------------------------------------------------------

/-- Taking a node out of its place takes it out of lists and changes no value. -/
theorem node?_detach_eq_some {s : Store} (h : Handle) {x : Handle} {n : Node}
    (hn : s.node? x = some n) :
    ∃ n', (s.detach h).node? x = some n' ∧ n'.owned? = n.owned? ∧
      ∀ c ∈ n.children, c ≠ h → c ∈ n'.children := by
  unfold detach
  split
  · exact ⟨n, hn, rfl, fun c hc _ => hc⟩
  · simp only [node?_modify]
    grind [Node.owned?]

/-- Freeing the owner of a node that stands below somebody else leaves a stale child. -/
theorem stale_child_of_remove {s : Store} {o c p : Handle} (hne : o ≠ c) (ho : s.Owns o c)
    (hc : c ∈ s.childList p) (hp : ¬ (s.detach o).Reaches o p) :
    (s.remove o).isAlive p = true ∧ c ∈ (s.remove o).childList p ∧ (s.remove o).isAlive c = false := by
  obtain ⟨k, hk, hown⟩ := owns_iff.1 ho
  obtain ⟨k', hk', hown', -⟩ := node?_detach_eq_some o hk
  have hreach : (s.detach o).Reaches o c := .single ⟨k', hk', Or.inr (hown' ▸ hown)⟩
  have hremove : s.remove o = (s.detach o).releaseAll [o] := if_pos (isAlive_iff.2 ⟨k, hk⟩)
  cases hn : s.node? p with
  | none => simp [childList, hn] at hc
  | some n =>
    rw [childList_eq hn] at hc
    obtain ⟨n', hn', -, hkeep⟩ := node?_detach_eq_some o hn
    have hleft : (s.remove o).node? p = some n' := by
      rw [hremove, node?_releaseAll_eq_some]
      exact ⟨hn', by simpa using hp⟩
    refine ⟨isAlive_iff.2 ⟨n', hleft⟩, childList_eq hleft ▸ hkeep c hc hne.symm, ?_⟩
    rw [← Bool.not_eq_true, hremove, isAlive_releaseAll]
    exact fun hboth => hboth.2 o (by simp) hreach

theorem performAll_append {s t : Store} {calls more : List Call}
    (h : s.performAll calls = some t) : s.performAll (calls ++ more) = t.performAll more := by
  induction calls generalizing s with
  | nil => rw [Option.some.inj h]; rfl
  | cons call rest ih =>
    obtain ⟨u, hu, hrest⟩ := Option.bind_eq_some_iff.1 h
    simpa [performAll, hu] using ih hrest

/-- A history that never leaves a node with a parent and another node that owns it
leaves no stale handle among the children, and nobody finds one. A history that ends
with such a node, whose parent the owner does not hold, leaves one after one more
call: the owner is freed, and the parent lists the freed node. -/
theorem live_children_while_owned_apart {calls : List Call} {s : Store}
    (hrun : empty.performAll calls = some s) :
    ((∀ before, before <+: calls → ∀ t, empty.performAll before = some t → OwnsApart t) →
        (∀ p c, c ∈ s.childList p → s.isAlive c = true) ∧ HandsOutLive s) ∧
      ∀ o c p, o ≠ c → s.Owns o c → c ∈ s.childList p → ¬ (s.detach o).Reaches o p →
        ∃ s', empty.performAll (calls ++ [.remove o]) = some s' ∧ s'.isAlive p = true ∧
          c ∈ s'.childList p ∧ s'.isAlive c = false := by
  refine ⟨fun hapart => ?_, fun o c p hne ho hc hp => ?_⟩
  · have hlive := performAll_liveChildren hrun balanced_empty linked_empty liveChildren_empty hapart
    exact ⟨fun p c hc => hlive.of_mem_childList hc, hlive.handsOutLive⟩
  · refine ⟨s.remove o, ?_, stale_child_of_remove hne ho hc hp⟩
    rw [performAll_append hrun]
    rfl

/-- A node, its owner, and a third node. -/
def ownedNode : List Call :=
  [.create "c" none, .create "o" (some (.node ⟨0, 0⟩)), .create "p" none]

def ownedNodeStore : Store where
  slots := #[⟨0, some { name := "c" }⟩, ⟨0, some { name := "o", value := some (.node ⟨0, 0⟩) }⟩,
    ⟨0, some { name := "p" }⟩]
  live := 3

/-- The same after the owned node has been moved below the third node. -/
def ownedBelowStore : Store where
  slots := #[⟨0, some { name := "c", parent := some ⟨2, 0⟩ }⟩,
    ⟨0, some { name := "o", value := some (.node ⟨0, 0⟩) }⟩,
    ⟨0, some { name := "p", children := [⟨0, 0⟩] }⟩]
  live := 3

/-- What is owned has no parent in a store where nobody has one. -/
theorem ownsApart_of_parentless {s : Store}
    (h : ∀ slot ∈ s.slots.toList, ∀ n ∈ slot.node, n.parent = none) : OwnsApart s := by
  intro o c _ _
  cases hm : s.node? c with
  | none => simp [parent?, hm]
  | some m => simpa [parent?, hm] using forall_of_slots (P := fun n => n.parent = none) h hm

/-- What nobody holds is not reached from elsewhere. -/
theorem not_reaches_of_unheld {s : Store} {h x : Handle} (hne : h ≠ x)
    (hun : ∀ slot ∈ s.slots.toList, ∀ n ∈ slot.node, x ∉ n.children ∧ n.owned? ≠ some x) :
    ¬ s.Reaches h x := by
  intro hreach
  rcases hreach.cases_last with heq | ⟨d, -, n, hn, hheld⟩
  · exact hne heq
  · obtain ⟨hc, ho⟩ := forall_of_slots (P := fun n => x ∉ n.children ∧ n.owned? ≠ some x) hun hn
    exact hheld.elim hc ho

/-- An owned node is moved below another one, and its owner is removed: a stale child is listed from
then on. -/
theorem live_children_while_owned_apart_moved :
    HandsOutLive ownedNodeStore ∧
      ∃ s', empty.performAll (ownedNode ++ [.append ⟨2, 0⟩ ⟨0, 0⟩] ++ [.remove ⟨1, 0⟩]) = some s' ∧
        s'.isAlive ⟨2, 0⟩ = true ∧ ⟨0, 0⟩ ∈ s'.childList ⟨2, 0⟩ ∧ s'.isAlive ⟨0, 0⟩ = false := by
  -- before the move every owned tree stands apart, after each of the calls
  have hapart : ∀ before, before <+: ownedNode → ∀ t, empty.performAll before = some t →
      OwnsApart t := by
    intro before hb t ht
    have hmem : before ∈ ownedNode.inits := (List.mem_inits _ _).2 hb
    simp only [ownedNode, List.inits, List.map_cons, List.map_nil, List.mem_cons,
      List.not_mem_nil, or_false] at hmem
    apply ownsApart_of_parentless
    rcases hmem with rfl | rfl | rfl | rfl <;>
    · cbv at ht
      obtain rfl := Option.some.inj ht
      decide
  have hbelow : empty.performAll (ownedNode ++ [.append ⟨2, 0⟩ ⟨0, 0⟩]) = some ownedBelowStore := by
    cbv
  have hapartRun : empty.performAll ownedNode = some ownedNodeStore := by cbv
  refine ⟨((live_children_while_owned_apart hapartRun).1 hapart).2,
    (live_children_while_owned_apart hbelow).2 ⟨1, 0⟩ ⟨0, 0⟩ ⟨2, 0⟩ (by decide) rfl (by decide)
      (not_reaches_of_unheld (by decide) ?_)⟩
  decide

end TreeScript.Store
