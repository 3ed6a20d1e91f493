import TreeScript.Proofs.Store.Copies
import TreeScript.Proofs.Store.Strip

/-!
# TreeScript — answers below a node

An answer is a child with a name, perhaps with a scalar, and with named scalars below it. Answers
are added one after the other, and a further scalar may come below any of them. The nodes that have
been there stay as they are.

* `Answer`, `Answer.shape` — what is added;
* `Grown` — a node with some answers behind its children;
* `Grown.add`, `Grown.under` — one more answer, and one more scalar below an answer;
* `findNamed_of_bearing` — the first answer with a name;
* `Replaced`, `Grown.replaced_iff` — a node that has lost all it had and has the answers instead.
-/

namespace TreeScript

/-- What becomes a child: a name, perhaps a scalar, and named scalars below it. -/
structure Answer where
  name : String
  value : Option Scalar := none
  properties : List (String × Scalar) := []
  deriving DecidableEq

/-- The content of the child. -/
def Answer.shape (a : Answer) : Shape :=
  .plain a.name a.value (a.properties.map fun p => .plain p.1 (some p.2) [])

namespace Store

variable {s t u : Store} {h c k x : Handle} {a : Answer} {name : String}
  {front back new : List Handle} {before after answers : List Answer}

-- ---------------------------------------------------------------------------
-- One new node
-- ---------------------------------------------------------------------------

/-- A node has come in as the last child of another, and nothing else has changed. -/
structure Added (t : Store) (p c : Handle) (name : String) (v : Option Scalar) (u : Store) :
    Prop where
  balanced : Balanced u
  dead : t.isAlive c = false
  alive : t.isAlive p = true
  new : u.node? c = some { name, value := v.map .scalar, parent := some p }
  above : u.node? p = (t.node? p).map fun n => { n with children := n.children ++ [c] }
  rest {x : Handle} : x ≠ c → x ≠ p → u.node? x = t.node? x
  freedAt (i : Nat) : u.freedAt i = t.freedAt i

theorem owned?_scalar (v : Option Scalar) (g : Handle) :
    (v.map Value.scalar).bind Value.owned? ≠ some g := by
  cases v <;> simp [Value.owned?]

/-- A node has been added, and nothing else has changed. -/
theorem Balanced.added (ht : Balanced t) {p : Handle} {v : Option Scalar}
    (hadd : t.add p name (v.map .scalar) = .ok (c, u)) : Added t p c name v u := by
  obtain ⟨hp, rfl, hp', rfl⟩ := add_eq_ok hadd
  have hview := ht.node?_create name (v := v.map .scalar) fun g hg =>
    absurd hg (owned?_scalar v g)
  have hne := ht.ne_create_fst hp name (v.map .scalar)
  obtain ⟨n, hn⟩ := isAlive_iff.1 hp'
  have hlink := node?_linkLast hn hne
  refine ⟨(Evolves.link _ _ _ _).balanced ((Evolves.create _ _ _).balanced ht),
    isAlive_create_fst ht name _, hp, ?_, ?_, fun {x} hxc hxp => ?_, fun i => ?_⟩
  · rw [hlink, ht.node?_create_self]
    simp [hne.symm]
  · rw [hlink, hview, if_neg hne]
    simp [hne]
  · rw [hlink, hview, if_neg hxc]
    simp [hxc, hxp]
  -- linking frees nothing, and making a node takes a free slot without counting it
  · have hcreate : (t.create name (v.map .scalar)).2.freedAt i = t.freedAt i := by
      cases v with
      | none => exact freedAt_allocate _ _ i
      | some v =>
        rw [Option.map_some, ht.create_eq_modify name (by simp [Value.owned?]), freedAt_modify,
          freedAt_allocate]
    rw [linkLast, link, freedAt_modify, freedAt_modify, hcreate]

-- ---------------------------------------------------------------------------
-- Answers
-- ---------------------------------------------------------------------------

/-- A new node below another with a name and a scalar. -/
def Leaf (s t : Store) (c k : Handle) (p : String × Scalar) : Prop :=
  s.isAlive k = false ∧
    t.node? k = some { name := p.1, value := some (.scalar p.2), parent := some c }

theorem Leaf.parent?_eq {p : String × Scalar} (hk : Leaf s t c k p) : t.parent? k = some c := by
  rw [parent?, hk.2]
  rfl

/-- A new node below another that bears an answer. -/
def Bearing (s t : Store) (h c : Handle) (a : Answer) : Prop :=
  s.isAlive c = false ∧ ∃ leaves,
    t.node? c = some
      { name := a.name, value := a.value.map .scalar, parent := some h, children := leaves } ∧
    List.Forall₂ (Leaf s t c) leaves a.properties

/-- The node of an answer bears the answer's content. -/
theorem Bearing.bears (hc : Bearing s t h c a) : Bears t c a.shape := by
  obtain ⟨-, leaves, hn, hleaves⟩ := hc
  refine ⟨_, hn, rfl, rfl, bearsAll_iff.2 ?_⟩
  rw [List.forall₂_map_right_iff]
  exact hleaves.imp fun k p hk => ⟨_, hk.2, rfl, rfl, rfl⟩

/-- An answer stays when another node gets a child. -/
theorem Bearing.keep {p : Handle} {v : Option Scalar} (hadd : Added t p k name v u) (hne : c ≠ p)
    (hp : s.isAlive p = false → t.parent? p ≠ some c) (hc : Bearing s t h c a) :
    Bearing s u h c a := by
  obtain ⟨hnew, leaves, hn, hleaves⟩ := hc
  have hsame : ∀ {x n}, x ≠ p → t.node? x = some n → u.node? x = some n := by
    intro x n hx hxn
    rw [hadd.rest (fun heq => ?_) hx, hxn]
    rw [heq, not_isAlive_iff.1 hadd.dead] at hxn
    cases hxn
  refine ⟨hnew, leaves, hsame hne hn, hleaves.imp fun y q hy => ⟨hy.1, hsame ?_ hy.2⟩⟩
  rintro rfl
  exact hp hy.1 hy.parent?_eq

/-- A node has answers behind the children that it had; nothing else has changed, and no slot has
been freed. -/
structure Grown (s : Store) (h : Handle) (new : List Handle) (answers : List Answer) (t : Store) :
    Prop where
  balanced : Balanced t
  nodup : new.Nodup
  alive : new ≠ [] → s.isAlive h = true
  self : t.node? h = (s.node? h).map fun n => { n with children := n.children ++ new }
  rest {x : Handle} : s.isAlive x = true → x ≠ h → t.node? x = s.node? x
  told : List.Forall₂ (Bearing s t h) new answers
  freedAt (i : Nat) : t.freedAt i = s.freedAt i

theorem Balanced.grown (hs : Balanced s) (h : Handle) : Grown s h [] [] s where
  balanced := hs
  nodup := List.nodup_nil
  alive hne := absurd rfl hne
  self := by cases s.node? h <;> simp
  rest _ _ := rfl
  told := .nil
  freedAt _ := rfl

/-- Two rows that agree, parted at one place. -/
theorem forall₂_append_cons {α β : Type} {R : α → β → Prop} {xs : List α} {ys : List β} {x : α}
    {y : β} {xs' : List α} {ys' : List β} (hlen : xs.length = ys.length) :
    List.Forall₂ R (xs ++ x :: xs') (ys ++ y :: ys') ↔
      List.Forall₂ R xs ys ∧ R x y ∧ List.Forall₂ R xs' ys' := by
  induction xs generalizing ys with
  | nil =>
    obtain rfl := List.length_eq_zero_iff.1 hlen.symm
    simp
  | cons z xs ih =>
    cases ys with
    | nil => simp at hlen
    | cons w ys => simp [ih (by simpa using hlen), and_assoc]

namespace Grown

/-- Each of the new children bears an answer. -/
theorem bearing (hg : Grown s h new answers t) (hc : c ∈ new) : ∃ a, Bearing s t h c a := by
  have hall : List.Forall₂ (fun c a => (∃ a, Bearing s t h c a) ∧ Bearing s t h c a) new answers :=
    hg.told.imp fun _ a ha => ⟨⟨a, ha⟩, ha⟩
  exact ((List.forall₂_and_left _ _).1 hall).1 c hc

theorem ne (hg : Grown s h new answers t) (hc : c ∈ new) : c ≠ h := by
  rintro rfl
  obtain ⟨a, hdead, -⟩ := hg.bearing hc
  simp [hg.alive (List.ne_nil_of_mem hc)] at hdead

theorem isAlive_self (hg : Grown s h new answers t) : t.isAlive h = s.isAlive h := by
  rw [isAlive, hg.self, Option.isSome_map, isAlive]

/-- What comes in next is new to the first store too. -/
theorem not_isAlive (hg : Grown s h new answers t) (hh : s.isAlive h = true)
    (hk : t.isAlive k = false) : s.isAlive k = false := by
  by_contra halive
  rw [Bool.not_eq_false] at halive
  have hne : k ≠ h := by
    rintro rfl
    simp [hg.isAlive_self, hh] at hk
  simp [isAlive, hg.rest halive hne] at hk
  simp [isAlive, hk] at halive

/-- One more answer. -/
theorem add (hg : Grown s h new answers t) {v : Option Scalar} (hadd : Added t h c name v u) :
    Grown s h (new ++ [c]) (answers ++ [{ name, value := v }]) u := by
  have hh : s.isAlive h = true := hg.isAlive_self ▸ hadd.alive
  have hc : s.isAlive c = false := hg.not_isAlive hh hadd.dead
  refine ⟨hadd.balanced, ?_, fun _ => hh, ?_, fun {x} hx hne => ?_, ?_, fun i => ?_⟩
  · refine hg.nodup.append (List.nodup_singleton c) (List.disjoint_singleton.2 fun hmem => ?_)
    obtain ⟨a, -, leaves, hn, -⟩ := hg.bearing hmem
    have hdead := hadd.dead
    simp [isAlive, hn] at hdead
  · rw [hadd.above, hg.self]
    cases s.node? h <;> simp
  · rw [hadd.rest ?_ hne, hg.rest hx hne]
    rintro rfl
    simp [hc] at hx
  · refine List.rel_append ?_ (.cons ⟨hc, [], hadd.new, .nil⟩ .nil)
    refine ((List.forall₂_and_left _ _).2 ⟨fun d hd => hg.ne hd, hg.told⟩).imp
      fun d b hdb => hdb.2.keep hadd hdb.1 fun hdead => absurd hh (by simp [hdead])
  · rw [hadd.freedAt, hg.freedAt]

/-- One more scalar below an answer. -/
theorem under (hg : Grown s h (front ++ c :: back) (before ++ a :: after) t)
    (hlen : front.length = before.length) {p : String × Scalar}
    (hadd : Added t c k p.1 (some p.2) u) :
    Grown s h (front ++ c :: back)
      (before ++ { a with properties := a.properties ++ [p] } :: after) u := by
  have hh : s.isAlive h = true := hg.alive (by simp)
  have hk : s.isAlive k = false := hg.not_isAlive hh hadd.dead
  have hch : c ≠ h := hg.ne (by simp)
  have hkh : k ≠ h := by
    rintro rfl
    simp [hk] at hh
  obtain ⟨hfront, hc, hback⟩ := (forall₂_append_cons hlen).1 hg.told
  obtain ⟨hcnew, leaves, hcn, hleaves⟩ := hc
  have hcparent : t.parent? c = some h := by
    rw [parent?, hcn]
    rfl
  -- the other answers stay
  have hother : ∀ {ds bs}, (∀ d ∈ ds, d ∈ front ++ back) → List.Forall₂ (Bearing s t h) ds bs →
      List.Forall₂ (Bearing s u h) ds bs := by
    intro ds bs hds hall
    refine ((List.forall₂_and_left _ _).2 ⟨hds, hall⟩).imp fun d b hdb => ?_
    obtain ⟨hd, hb⟩ := hdb
    have hne : d ≠ c := fun heq => (List.nodup_cons.1 (List.nodup_middle.1 hg.nodup)).1 (heq ▸ hd)
    have hmem : d ∈ front ++ c :: back := by
      rw [List.mem_append] at hd ⊢
      exact hd.imp_right (List.mem_cons_of_mem c)
    exact hb.keep hadd hne fun _ hparent =>
      hg.ne hmem (Option.some.inj (hparent.symm.trans hcparent))
  refine ⟨hadd.balanced, hg.nodup, fun _ => hh, ?_, fun {x} hx hne => ?_, ?_, fun i => ?_⟩
  · rw [hadd.rest hkh.symm hch.symm, hg.self]
  · rw [hadd.rest ?_ ?_, hg.rest hx hne]
    · rintro rfl
      simp [hk] at hx
    · rintro rfl
      simp [hcnew] at hx
  · refine (forall₂_append_cons hlen).2 ⟨hother (by simp +contextual) hfront,
      ⟨hcnew, leaves ++ [k], ?_, ?_⟩, hother (by simp +contextual) hback⟩
    · rw [hadd.above, hcn]
      rfl
    · refine List.rel_append (hleaves.imp fun y q hy => ⟨hy.1, ?_⟩) (.cons ⟨hk, hadd.new⟩ .nil)
      rw [hadd.rest ?_ ?_, hy.2]
      · rintro rfl
        have hdead := hadd.dead
        simp [isAlive, hy.2] at hdead
      · rintro rfl
        exact hch (Option.some.inj (hy.parent?_eq.symm.trans hcparent))
  · rw [hadd.freedAt, hg.freedAt]

end Grown

/-- The first answer with a name is found at its place. -/
theorem findNamed_of_bearing (hall : List.Forall₂ (Bearing s t h) new answers)
    {found : Option Handle} (hok : t.findNamed name new = .ok found) :
    (found = none ∧ ∀ a ∈ answers, a.name ≠ name) ∨
      ∃ c front back before a after, found = some c ∧ new = front ++ c :: back ∧
        answers = before ++ a :: after ∧ front.length = before.length ∧ a.name = name := by
  induction hall with
  | nil =>
    obtain rfl : none = found := Except.ok.inj hok
    exact Or.inl ⟨rfl, by simp⟩
  | @cons c a new answers hc _ ih =>
    obtain ⟨-, leaves, hn, -⟩ := hc
    rw [findNamed, hn] at hok
    simp only at hok
    -- the first answer of that name ends the search
    by_cases hname : a.name = name
    · rw [if_pos hname] at hok
      obtain rfl : some c = found := Except.ok.inj hok
      exact Or.inr ⟨c, [], new, [], a, answers, rfl, rfl, rfl, rfl, hname⟩
    · rw [if_neg hname] at hok
      rcases ih hok with ⟨hnone, hall⟩ | ⟨d, front, back, before, b, after, hd, rfl, rfl, hlen, hb⟩
      · exact Or.inl ⟨hnone, List.forall_mem_cons.2 ⟨hname, hall⟩⟩
      · exact Or.inr ⟨d, c :: front, back, a :: before, b, after, hd, rfl, rfl,
          congrArg (· + 1) hlen, hb⟩

-- ---------------------------------------------------------------------------
-- Answers instead of all that was there
-- ---------------------------------------------------------------------------

/-- A node has no value any more, the children it had are gone, the given contents are its children
instead, and no node outside has changed. -/
structure Replaced (s : Store) (h : Handle) (contents : List Shape) (t : Store) : Prop where
  self : ∃ n new, s.node? h = some n ∧
    t.node? h = some { n with value := none, children := new } ∧ BearsAll t new contents
  gone : ∀ c ∈ s.childList h, t.isAlive c = false
  rest : ∀ x, s.isAlive x = true → ¬ s.Reaches h x → t.node? x = s.node? x

/-- Answers have replaced all that was there just if nothing but that was lost before. -/
theorem Grown.replaced_iff (hg : Grown (s.strip h) h new answers t) (hl : Linked s)
    (hh : (s.hollow h).isAlive h = true) :
    Replaced s h (answers.map Answer.shape) t ↔ Contained s h := by
  rw [← emptied_iff hl hh]
  have hlen : new.length = answers.length := hg.told.length_eq
  constructor
  · rintro ⟨⟨n, new', hn, hself, hbears⟩, -, hrest⟩
    have hlen' : new'.length = new.length := by
      rw [hlen, (bearsAll_iff.1 hbears).length_eq, List.length_map]
    rw [hg.self, Option.map_eq_some_iff] at hself
    obtain ⟨m, hm, heq⟩ := hself
    rw [Node.mk.injEq] at heq
    obtain ⟨hname, hvalue, hparent, hchildren⟩ := heq
    -- as many new children as answers leave no room for an old one
    have hnil : m.children = [] := by
      have hsum := congrArg List.length hchildren
      rw [List.length_append] at hsum
      exact List.length_eq_zero_iff.1 (by omega)
    refine ⟨⟨n, hn, ?_⟩, fun c => not_isAlive_strip, fun x hx hout => ?_⟩
    · rw [hm, ← hname, ← hvalue, ← hparent, ← hnil]
    · rw [← hrest x hx hout, hg.rest (isAlive_strip hh hx hout) fun heq => hout (heq ▸ .refl _ _)]
  -- the emptied target has just the new children, and they bear the answers
  · intro hempty
    have hlive := ((emptied_iff hl hh).1 hempty).live
    obtain ⟨⟨n, hn, hself⟩, -, hrest⟩ := hempty
    refine ⟨⟨n, new, hn, by rw [hg.self, hself]; rfl, bearsAll_iff.2 ?_⟩, fun c hc => ?_,
      fun x hx hout => ?_⟩
    · rw [List.forall₂_map_right_iff]
      exact hg.told.imp fun _ _ => Bearing.bears
    · exact not_isAlive_of_strip hc (hlive c hc) hg.freedAt
    · rw [hg.rest (isAlive_strip hh hx hout) (fun heq => hout (heq ▸ .refl _ _)), hrest x hx hout]

end Store

end TreeScript
