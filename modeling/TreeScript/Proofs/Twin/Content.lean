import TreeScript.Proofs.Store.Bare
import TreeScript.Proofs.Store.View
import TreeScript.Proofs.Twin.Store

/-!
# TreeScript — contents that say the same

What a node contains is told without where it stands. So two nodes have contents that say the
same if their names, their values and their children do, from step to step downwards, while
nobody asks who is above them. Where references point at may be paired in another way than the
nodes that are held: by nothing, if there are to be no references, or by anything, if it does not
matter where they point.

* `Shape.Same` — contents that say the same;
* `Store.Echoes` — nodes that say the same downwards;
* `Echoes.shape` — they have such contents;
* `Echoes.within`, `Echoes.sup` — parts of a pairing, and pairings put together;
* `Echoes.bare`, `Echoes.bare_right` — trees without references.
-/

namespace TreeScript

open Paired

-- ---------------------------------------------------------------------------
-- Contents
-- ---------------------------------------------------------------------------

mutual

/-- Contents that say the same up to a pairing of what references point at. -/
def Shape.Same (ρ : Pairing) : Shape → Shape → Prop
  | .plain name value xs, .plain name' value' ys => name = name' ∧ value = value' ∧ AllSame ρ xs ys
  | .holder name x xs, .holder name' y ys => name = name' ∧ Same ρ x y ∧ AllSame ρ xs ys
  | .pointer name a xs, .pointer name' b ys => name = name' ∧ ρ a b ∧ AllSame ρ xs ys
  | _, _ => False

/-- Lists of contents that say the same. -/
def Shape.AllSame (ρ : Pairing) : List Shape → List Shape → Prop
  | [], [] => True
  | x :: xs, y :: ys => Same ρ x y ∧ AllSame ρ xs ys
  | _, _ => False

end

mutual

/-- Contents that say the same do so in a larger pairing. -/
theorem Shape.Same.mono {ρ ρ' : Pairing} (hle : ρ ≤ ρ') : {x y : Shape} → Shape.Same ρ x y →
    Shape.Same ρ' x y
  | .plain _ _ _, .plain _ _ _, h => ⟨h.1, h.2.1, AllSame.mono hle h.2.2⟩
  | .holder _ _ _, .holder _ _ _, h => ⟨h.1, Same.mono hle h.2.1, AllSame.mono hle h.2.2⟩
  | .pointer _ _ _, .pointer _ _ _, h => ⟨h.1, hle _ _ h.2.1, AllSame.mono hle h.2.2⟩

/-- Lists of contents that say the same do so in a larger pairing. -/
theorem Shape.AllSame.mono {ρ ρ' : Pairing} (hle : ρ ≤ ρ') : {xs ys : List Shape} →
    Shape.AllSame ρ xs ys → Shape.AllSame ρ' xs ys
  | [], [], _ => trivial
  | _ :: _, _ :: _, h => ⟨Same.mono hle h.1, AllSame.mono hle h.2⟩

end

instance : Paired Shape := ⟨Shape.Same, fun hle h => h.mono hle⟩

/-- Lists that say the same member by member are the same as lists of contents. -/
theorem Shape.allSame_of_matches {ρ : Pairing} {xs ys : List Shape} (h : Matches ρ xs ys) :
    Shape.AllSame ρ xs ys := by
  induction h with
  | nil => trivial
  | cons hxy _ ih => exact ⟨hxy, ih⟩

-- ---------------------------------------------------------------------------
-- Downwards
-- ---------------------------------------------------------------------------

/-- Values that say the same if nodes that are owned are paired in one way, and those that
references point at in another. -/
inductive Value.Echo (R ρ : Pairing) : Value → Value → Prop
  | scalar (v : Scalar) : Echo R ρ (.scalar v) (.scalar v)
  | node {a b : Handle} : R a b → Echo R ρ (.node a) (.node b)
  | ref {a b : Handle} : ρ a b → Echo R ρ (.ref a) (.ref b)

/-- Nodes that say the same downwards. -/
structure Node.Echo (R ρ : Pairing) (n m : Node) : Prop where
  name : n.name = m.name
  value : Option.Rel (Value.Echo R ρ) n.value m.value
  children : Matches R n.children m.children

/-- Only the pairing of what values own, and of what they refer to, counts. -/
theorem Value.echo_imp {R R' ρ ρ' : Pairing} {v w : Option Value}
    (h : Option.Rel (Value.Echo R ρ) v w)
    (howned : ∀ x y, v.bind Value.owned? = some x → w.bind Value.owned? = some y → R x y → R' x y)
    (href : ∀ x y, v = some (.ref x) → w = some (.ref y) → ρ x y → ρ' x y) :
    Option.Rel (Value.Echo R' ρ') v w := by
  cases h with
  | none => exact .none
  | some hvw =>
    cases hvw with
    | scalar v => exact .some (.scalar v)
    | node hab => exact .some (.node (howned _ _ rfl rfl hab))
    | ref hab => exact .some (.ref (href _ _ rfl rfl hab))

/-- Only the pairs that the nodes themselves hold matter. -/
theorem Node.Echo.imp {R R' ρ ρ' : Pairing} {n m : Node} (h : Node.Echo R ρ n m)
    (hchildren : ∀ x ∈ n.children, ∀ y ∈ m.children, R x y → R' x y)
    (howned : ∀ x y, n.owned? = some x → m.owned? = some y → R x y → R' x y)
    (href : ∀ x y, n.value = some (.ref x) → m.value = some (.ref y) → ρ x y → ρ' x y) :
    Node.Echo R' ρ' n m :=
  ⟨h.name, Value.echo_imp h.value howned href, h.children.imp_of_mem hchildren⟩

/-- Nodes that say the same downwards do so in larger pairings. -/
theorem Node.Echo.mono {R R' ρ ρ' : Pairing} {n m : Node} (h : Node.Echo R ρ n m) (hR : R ≤ R')
    (hρ : ρ ≤ ρ') : Node.Echo R' ρ' n m :=
  h.imp (fun x _ y _ => hR x y) (fun x y _ _ => hR x y) fun x y _ _ => hρ x y

/-- What the one node holds, the other does too. -/
theorem Node.Echo.held_left {R ρ : Pairing} {n m : Node} (h : Node.Echo R ρ n m) {y : Handle}
    (hy : y ∈ m.children ∨ m.owned? = some y) :
    ∃ x, (x ∈ n.children ∨ n.owned? = some x) ∧ R x y := by
  rcases hy with hmem | hown
  · obtain ⟨x, hx, hxy⟩ := Paired.Matches.exists_left h.children hmem
    exact ⟨x, .inl hx, hxy⟩
  · have hvalue := h.value
    unfold Node.owned? at hown ⊢
    generalize n.value = v, m.value = w at hvalue hown
    cases hvalue with
    | none => simp at hown
    | some hvw =>
      cases hvw with
      | node hab =>
        obtain rfl := Option.some.inj hown
        exact ⟨_, .inr rfl, hab⟩
      | scalar v => simp [Value.owned?] at hown
      | ref _ => simp [Value.owned?] at hown

/-- If one of the nodes refers, so does the other. -/
theorem Node.Echo.ref_left {R ρ : Pairing} {n m : Node} (h : Node.Echo R ρ n m) {g : Handle}
    (hg : m.value = some (.ref g)) : ∃ g', n.value = some (.ref g') := by
  have hvalue := h.value
  rw [hg] at hvalue
  generalize n.value = v at hvalue
  cases hvalue with
  | some hvw =>
    cases hvw with
    | ref _ => exact ⟨_, rfl⟩

namespace Store

/-- Handles that name nodes which say the same downwards, or none. -/
inductive Echo (R ρ : Pairing) (s : Store) (a : Handle) (t : Store) (b : Handle) : Prop
  | gone : s.node? a = none → t.node? b = none → Echo R ρ s a t b
  | live {n m : Node} : s.node? a = some n → t.node? b = some m → Node.Echo R ρ n m →
      Echo R ρ s a t b

/-- Two stores in which nodes that are paired say the same downwards. -/
structure Echoes (R ρ : Pairing) (s t : Store) : Prop where
  echo {a b : Handle} : R a b → Echo R ρ s a t b

variable {R R' ρ ρ' : Pairing} {s t s' t' : Store} {a b : Handle}

/-- In twin stores the nodes say the same downwards. -/
theorem Twins.echoes (h : Twins ρ s t) : Echoes ρ ρ s t where
  echo {a b} hab := by
    have hnode := h.node? hab
    cases hn : s.node? a with
    | none =>
      cases hm : t.node? b with
      | none => exact .gone hn hm
      | some m => rw [hn, hm] at hnode; cases hnode
    | some n =>
      obtain ⟨m, hm, hnm⟩ := hnode.some_right hn
      -- two paired nodes have the same name, paired values and paired children
      refine .live hn hm ⟨Node.Same.name hnm, ?_, Node.Same.children hnm⟩
      have hvalue := Node.Same.value hnm
      generalize n.value = v, m.value = w at hvalue
      cases hvalue with
      | none => exact .none
      | some hvw =>
        cases hvw with
        | scalar v => exact .some (.scalar v)
        | node hgh => exact .some (.node hgh)
        | ref hgh => exact .some (.ref hgh)

/-- Nodes that say the same downwards have contents that say the same. -/
theorem Echoes.shapeWithin (h : Echoes R ρ s t) {n m : Nat} (hab : R a b) :
    Concur ρ (s.shapeWithin n a) (t.shapeWithin m b) := by
  induction n generalizing m a b with
  | zero => exact .left _
  | succ n ih =>
    cases m with
    | zero => exact .right _
    | succ m =>
      rw [Store.shapeWithin, Store.shapeWithin, Store.node, Store.node]
      cases h.echo hab with
      | gone ha hb =>
        rw [ha, hb]
        exact .error _
      | @live k l hk hl hkl =>
        have hfound : ∀ (q : Node) (f : Node → Except Fault Shape), (Except.ok q >>= f) = f q :=
          fun _ _ => rfl
        rw [hk, hl]
        simp only [hfound]
        -- the children are read row by row, each with the fuel of its own side
        have hbelow : Concur ρ (k.children.mapM (s.shapeWithin n))
            (l.children.mapM (t.shapeWithin m)) := .mapM hkl.children fun _ _ hxy => ih hxy
        have hvalue := hkl.value
        generalize k.value = v, l.value = w at hvalue
        cases hvalue with
        | none => exact hbelow.bind fun _ _ hxs => .ok ⟨hkl.name, rfl, Shape.allSame_of_matches hxs⟩
        | some hvw =>
          cases hvw with
          | scalar v =>
            exact hbelow.bind fun _ _ hxs => .ok ⟨hkl.name, rfl, Shape.allSame_of_matches hxs⟩
          | node hgh =>
            exact (ih hgh).bind fun _ _ hinner => hbelow.bind fun _ _ hxs =>
              .ok ⟨hkl.name, hinner, Shape.allSame_of_matches hxs⟩
          | ref hgh =>
            exact hbelow.bind fun _ _ hxs => .ok ⟨hkl.name, hgh, Shape.allSame_of_matches hxs⟩

theorem Echoes.shape (h : Echoes R ρ s t) (hab : R a b) : Concur ρ (s.shape a) (t.shape b) :=
  h.shapeWithin hab

-- ---------------------------------------------------------------------------
-- Pairings for what says the same
-- ---------------------------------------------------------------------------

/-- One pair of nodes that say the same does so in larger pairings. -/
theorem Echo.mono (h : Echo R ρ s a t b) (hR : R ≤ R') (hρ : ρ ≤ ρ') : Echo R' ρ' s a t b := by
  cases h with
  | gone ha hb => exact .gone ha hb
  | live hn hm hnm => exact .live hn hm (hnm.mono hR hρ)

/-- Nodes that say the same are alive on both sides or on none. -/
theorem Echo.isAlive (h : Echo R ρ s a t b) : s.isAlive a = t.isAlive b := by
  cases h with
  | gone ha hb => rw [not_isAlive_iff.2 ha, not_isAlive_iff.2 hb]
  | live hn hm => rw [isAlive_iff.2 ⟨_, hn⟩, isAlive_iff.2 ⟨_, hm⟩]

/-- Where a node stands does not matter. -/
theorem Echo.of_seen (h : Echo R ρ s a t b) (hs : s'.seen a = s.seen a)
    (ht : t'.seen b = t.seen b) : Echo R ρ s' a t' b := by
  unfold seen at hs ht
  cases h with
  | gone ha hb =>
    rw [ha] at hs
    rw [hb] at ht
    exact .gone (Option.map_eq_none_iff.1 hs) (Option.map_eq_none_iff.1 ht)
  | live hn hm hnm =>
    rw [hn] at hs
    rw [hm] at ht
    obtain ⟨n', hn', heq⟩ := Option.map_eq_some_iff.1 hs
    obtain ⟨m', hm', heq'⟩ := Option.map_eq_some_iff.1 ht
    obtain ⟨hname, hvalue, -, hchildren⟩ := Node.mk.inj heq
    obtain ⟨hname', hvalue', -, hchildren'⟩ := Node.mk.inj heq'
    -- what is seen of a node is its name, its value and its children
    refine .live hn' hm' ⟨?_, ?_, ?_⟩
    · rw [hname, hname', hnm.name]
    · rw [hvalue, hvalue']
      exact hnm.value
    · rw [hchildren, hchildren']
      exact hnm.children

/-- Of what says the same, so does a part that no way leads out of; and it may have been moved to
another place since. -/
theorem Echoes.within (h : Echoes R ρ s t) {P Q : Handle → Prop}
    (hP : ∀ x y, P x → s.Holds x y → P y) (hQ : ∀ x y, Q x → t.Holds x y → Q y)
    (hs : ∀ x, P x → s'.seen x = s.seen x) (ht : ∀ y, Q y → t'.seen y = t.seen y) :
    Echoes (fun a b => R a b ∧ P a ∧ Q b) ρ s' t' where
  echo {a b} hab := by
    obtain ⟨hab, ha, hb⟩ := hab
    refine Echo.of_seen ?_ (hs a ha) (ht b hb)
    cases h.echo hab with
    | gone hn hm => exact .gone hn hm
    | live hn hm hnm =>
      exact .live hn hm (hnm.imp
        (fun x hx y hy hxy => ⟨hxy, hP a x ha ⟨_, hn, .inl hx⟩, hQ b y hb ⟨_, hm, .inl hy⟩⟩)
        (fun x y hx hy hxy => ⟨hxy, hP a x ha ⟨_, hn, .inr hx⟩, hQ b y hb ⟨_, hm, .inr hy⟩⟩)
        fun _ _ _ _ hxy => hxy)

/-- Where references point at may be paired more generously. -/
theorem Echoes.mono (h : Echoes R ρ s t) (hρ : ρ ≤ ρ') : Echoes R ρ' s t where
  echo hab := (h.echo hab).mono (le_refl R) hρ

/-- Two pairings of nodes that say the same can be put together. -/
theorem Echoes.sup (h : Echoes R ρ s t) (h' : Echoes R' ρ s t) : Echoes (R ⊔ R') ρ s t where
  echo hab := by
    rcases hab with hab | hab
    · exact (h.echo hab).mono le_sup_left (le_refl ρ)
    · exact (h'.echo hab).mono le_sup_right (le_refl ρ)

-- ---------------------------------------------------------------------------
-- Trees without references
-- ---------------------------------------------------------------------------

/-- Where there are no references, there is nothing that they would have to point at. -/
theorem Echoes.bare (h : Echoes R ρ s t) : Echoes (fun a b => R a b ∧ s.Bare a) ⊥ s t where
  echo {a b} hab := by
    obtain ⟨hab, hbare⟩ := hab
    have hbelow : ∀ x, s.Holds a x → s.Bare x := fun x hx y hy => hbare y (.head hx hy)
    obtain ⟨k, hk, href⟩ := hbare a (.refl _ _)
    cases h.echo hab with
    | gone ha => simp [hk] at ha
    | live hn hm hnm =>
      obtain rfl := Option.some.inj (hk.symm.trans hn)
      exact .live hn hm (hnm.imp (fun x hx y _ hxy => ⟨hxy, hbelow x ⟨_, hn, .inl hx⟩⟩)
        (fun x y hx _ hxy => ⟨hxy, hbelow x ⟨_, hn, .inr hx⟩⟩) fun x _ hx _ _ => href x hx)

/-- A node reached on the right is reached by the same way on the left, from the node that stands
for the start. -/
theorem Echoes.reaches_left (h : Echoes R ρ s t) (hab : R a b) {y : Handle} (hy : t.Reaches b y) :
    ∃ x, R x y ∧ s.Reaches a x := by
  induction hy with
  | refl => exact ⟨a, hab, .refl _ _⟩
  | tail _ hstep ih =>
    obtain ⟨x, hx, hreach⟩ := ih
    obtain ⟨m, hm, hheld⟩ := hstep
    cases h.echo hx with
    | gone _ hb => simp [hm] at hb
    | @live n m' hn hm' hnm =>
      obtain rfl := Option.some.inj (hm.symm.trans hm')
      obtain ⟨z, hz, hzy⟩ := hnm.held_left hheld
      exact ⟨z, hzy, hreach.tail ⟨n, hn, hz⟩⟩

/-- A tree that says the same as one without references has none either. -/
theorem Echoes.bare_right (h : Echoes R ρ s t) (hab : R a b) (ha : s.Bare a) : t.Bare b := by
  intro y hy
  obtain ⟨x, hxy, hx⟩ := h.reaches_left hab hy
  obtain ⟨k, hk, href⟩ := ha x hx
  cases h.echo hxy with
  | gone hn => simp [hk] at hn
  | @live n m hn hm hnm =>
    obtain rfl := Option.some.inj (hk.symm.trans hn)
    refine ⟨m, hm, fun g hg => ?_⟩
    obtain ⟨g', hg'⟩ := hnm.ref_left hg
    exact href g' hg'

end Store

end TreeScript
