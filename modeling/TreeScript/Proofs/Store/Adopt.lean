import TreeScript.Engine.Control
import TreeScript.Proofs.Store.Since
import TreeScript.Store.View

/-!
# TreeScript — values and new nodes in a disciplined store

A node may be given a value that owns a node if nobody holds that node yet and it does
not lead back. What the old value owned is freed. New nodes, copies and documents come
in as trees of their own.

* `Givable`, `Since.assign` — giving values;
* `Since.create`, `Since.add` — new nodes;
* `Since.plant`, `Sprouted` — trees that come in as a whole;
* `Since.signal`, `Since.clearSignal`, `Since.stripReturn` — signals.
-/

namespace TreeScript.Store

variable {s t t' : Store} {T : Set Handle}

-- ---------------------------------------------------------------------------
-- Writing a value
-- ---------------------------------------------------------------------------

/-- Two changes of one node are one change. -/
theorem modify_modify (s : Store) (h : Handle) (f g : Node → Node) :
    (s.modify h f).modify h g = s.modify h fun n => g (f n) := by
  cases hn : s.node? h with
  | none => simp [modify, hn]
  | some n =>
    have hself : (s.modify h f).node? h = some (f n) := by simp [hn]
    rw [modify, hself]
    simp [freedAt_modify]
    simp [modify, hn]

/-- After a value has been taken away nobody holds more than before. -/
theorem thinned_letGo (t : Store) (x : Handle) :
    Thinned t (t.modify x fun n => { n with value := none }) where
  evolves := .modify _ _ _
  alive hb := by rwa [isAlive_modify] at hb
  holds {a b} hab _ := by
    rw [holds_modify_value] at hab
    split at hab
    next ha => exact ha ▸ holds_iff_childList.2 (Or.inl (by simpa using hab))
    next => exact hab
  owns ho := by
    rw [owns_modify_value] at ho
    split at ho
    next => simp at ho
    next => exact Or.inl ho
  parent hc := by rwa [parent?_modify_value]

/-- A node whose value is taken away lets go of what it owned. -/
theorem Since.letGo (h : Since s T t) (x : Handle)
    (hu : Unwrapped (t.modify x fun n => { n with value := none })) :
    Since s (T ∪ { b | t.Owns x b ∧ t.isAlive b = true })
      (t.modify x fun n => { n with value := none }) := by
  have hd := h.disciplined
  refine h.thin (thinned_letGo t x) hu (hd.linked.modify x (fun _ => rfl) fun _ => rfl)
    (hd.live.modify x fun _ _ _ hc => Or.inl hc) fun b => ?_
  simp only [Set.mem_union, Set.mem_ofPred_eq, ← h.tops]
  constructor
  · rintro ⟨hb, hnone⟩
    rw [isAlive_modify] at hb
    simp only [holds_modify_value] at hnone
    by_cases hown : t.Owns x b
    · exact Or.inr ⟨hown, hb⟩
    · refine Or.inl ⟨hb, fun a ha => hnone a ?_⟩
      split
      next heq => exact Or.inl ((holds_iff_childList.1 (heq ▸ ha)).resolve_right hown)
      next => exact ha
  · rintro (⟨hb, hnone⟩ | ⟨hown, hb⟩)
    · exact ⟨by rwa [isAlive_modify], fun a ha =>
        hnone a ((thinned_letGo t x).holds ha (by rwa [isAlive_modify]))⟩
    · refine ⟨by rwa [isAlive_modify], fun a ha => ?_⟩
      have hold := (thinned_letGo t x).holds ha (by rwa [isAlive_modify])
      obtain rfl := hd.unique hb hold hown.holds
      -- an owned node is not listed, and its owner has let it go
      rw [holds_modify_value, if_pos rfl] at ha
      have hchild := hd.childOf_of_mem (by simpa using ha)
      simp [ChildOf, hd.apart hown hb] at hchild

/-- A value that a node may be given: what it owns is new, held by nobody and does not
lead back to the node, or has been freed. -/
def Givable (s : Store) (T : Set Handle) (t : Store) (x : Handle) (v : Option Value) : Prop :=
  ∀ c, v.bind Value.owned? = some c →
    c ∈ T ∧ ¬ t.Reaches c x ∧ s.isAlive c = false ∨
      t.isAlive c = false ∧ t.Issued c

/-- A value that owns what has been freed makes its node hold nobody. -/
theorem thinned_hold {x : Handle} {v : Option Value}
    (hv : ∀ c, v.bind Value.owned? = some c → t.isAlive c = false ∧ t.Issued c) :
    Thinned t (t.modify x fun n => { n with value := v }) where
  evolves := .modify _ _ _
  alive hb := by rwa [isAlive_modify] at hb
  holds {a b} hab hb := by
    rw [isAlive_modify] at hb
    rw [holds_modify_value] at hab
    split at hab
    next ha =>
      subst ha
      rcases hab with hmem | ⟨-, hown⟩
      · exact holds_iff_childList.2 (Or.inl hmem)
      · simp [(hv b hown).1] at hb
    next => exact hab
  owns ho := by
    rw [owns_modify_value] at ho
    split at ho
    next => exact Or.inr (hv _ ho.2)
    next => exact Or.inl ho
  parent hc := by rwa [parent?_modify_value]

/-- A value that owns a top adds the one edge from its node. -/
theorem Disciplined.joined_hold (hd : Disciplined t) {x c : Handle} {v : Option Value}
    (hx : t.isAlive x = true) (hnone : ∀ g, ¬ t.Owns x g) (hv : v.bind Value.owned? = some c)
    (hc : t.Top c) : Joined t x c (t.modify x fun n => { n with value := v }) where
  evolves := .modify _ _ _
  alive b := isAlive_modify _ _ _ b
  holds {a b} _ := by
    rw [holds_modify_value]
    -- only the edge from `x` to the tree is new
    by_cases ha : a = x
    · subst ha
      simp [holds_iff_childList, hnone, hx, hv, eq_comm]
    · simp [ha]
  owns ho := by
    rw [owns_modify_value] at ho
    split at ho
    next =>
      obtain rfl := Option.some.inj (hv.symm.trans ho.2)
      exact Or.inr hc.1
    next => exact hd.issued ho
  apart ho hb := by
    rw [parent?_modify_value]
    rw [owns_modify_value] at ho
    split at ho
    next =>
      obtain rfl := Option.some.inj (hv.symm.trans ho.2)
      exact hc.parent? hd.linked
    next => exact hd.apart ho hb
  placed _ := parent?_modify_value _ _ _ _

/-- A node that owns nothing gets a value. -/
theorem Since.hold (h : Since s T t) {x : Handle} {v : Option Value} (hx : t.isAlive x = true)
    (hnone : ∀ g, ¬ t.Owns x g) (hv : Givable s T t x v)
    (hu : Unwrapped (t.modify x fun n => { n with value := v })) :
    Since s (T \ { c | v.bind Value.owned? = some c })
      (t.modify x fun n => { n with value := v }) := by
  have hd := h.disciplined
  have hl := hd.linked.modify x (f := fun n => { n with value := v }) (fun _ => rfl) fun _ => rfl
  have hlive := hd.live.modify x (f := fun n => { n with value := v }) fun _ _ _ hc => Or.inl hc
  -- a tree that is alive is let in, a stale handle is only written down
  by_cases hlives : ∃ c, v.bind Value.owned? = some c ∧ t.isAlive c = true
  · obtain ⟨c, hown, halive⟩ := hlives
    rcases hv c hown with ⟨hc, hback, hnew⟩ | ⟨hdead, -⟩
    · refine (h.edge (hd.joined_hold hx hnone hown (h.top hc)) hc hback (by simp [hnew]) hu hl
        hlive).congr fun b => ?_
      simp [hown, eq_comm]
    · simp [halive] at hdead
  · have hdead : ∀ c, v.bind Value.owned? = some c → t.isAlive c = false ∧ t.Issued c := by
      intro c hown
      rcases hv c hown with ⟨hc, -⟩ | hdead
      · exact absurd ⟨c, hown, h.isAlive hc⟩ hlives
      · exact hdead
    refine h.thin (thinned_hold hdead) hu hl hlive fun b => ?_
    -- writing the value takes no edge away, because `x` owned nothing
    have hkept : ∀ {a b}, t.Holds a b →
        (t.modify x fun n => { n with value := v }).isAlive b = true →
        (t.modify x fun n => { n with value := v }).Holds a b := by
      intro a b hab _
      rw [holds_modify_value]
      split
      next heq => exact Or.inl ((holds_iff_childList.1 (heq ▸ hab)).resolve_right (hnone b))
      next => exact hab
    rw [(thinned_hold hdead).top_iff hkept, h.tops, isAlive_modify]
    constructor
    · rintro ⟨hb, halive⟩
      exact ⟨hb, fun hown => by simp [(hdead b hown).1] at halive⟩
    · rintro ⟨hb, -⟩
      exact ⟨hb, h.isAlive hb⟩

/-- What a value to be given owns has no parent. -/
theorem Givable.parent?_eq_none (h : Since s T t) {x : Handle} {v : Option Value}
    (hv : Givable s T t x v) {c : Handle} (hc : v.bind Value.owned? = some c) :
    t.parent? c = none := by
  rcases hv c hc with ⟨hmem, -⟩ | ⟨hdead, -⟩
  · exact (h.top hmem).parent? h.disciplined.linked
  · simp [parent?, not_isAlive_iff.1 hdead]

theorem write_eq_modify {x : Handle} {v : Option Value}
    (hv : ∀ c, v.bind Value.owned? = some c → t.parent? c = none) :
    t.write x v = t.modify x fun n => { n with value := v } := by
  unfold write
  split
  next c hc => rw [detach_eq_self (hv c hc)]
  next => rfl

/-- A node is given a value: what it owned becomes a top, and what it owns now is none any more. -/
theorem Since.write (h : Since s T t) {x : Handle} {v : Option Value} (hx : t.isAlive x = true)
    (hv : Givable s T t x v) (hu : Unwrapped (t.write x v)) :
    Since s ((T ∪ { b | t.Owns x b ∧ t.isAlive b = true }) \ { c | v.bind Value.owned? = some c })
      (t.write x v) := by
  -- the old value is taken away, then the new one is given
  have hsplit : t.write x v = (t.modify x fun n => { n with value := none }).modify x
      fun n => { n with value := v } := by
    rw [write_eq_modify fun c hc => hv.parent?_eq_none h hc, modify_modify]
  rw [hsplit] at hu ⊢
  refine (h.letGo x ((Evolves.modify _ _ _).unwrapped hu)).hold (by rwa [isAlive_modify])
    (fun g hg => by simp [owns_modify_value] at hg) (fun c hc => ?_) hu
  rcases hv c hc with ⟨hmem, hback, hold⟩ | ⟨hdead, hissued⟩
  · refine Or.inl ⟨Or.inl hmem, fun hreach => hback (hreach.mono fun a b hab => ?_), hold⟩
    rw [holds_modify_value] at hab
    split at hab
    next ha => exact ha ▸ holds_iff_childList.2 (Or.inl (by simpa using hab))
    next => exact hab
  · exact Or.inr ⟨by rwa [isAlive_modify], by rwa [issued_modify]⟩

/-- Giving a node a value frees what its old value owned and nothing else. -/
theorem Since.assign (h : Since s T t) {x : Handle} {v : Option Value} (hx : t.isAlive x = true)
    (hv : Givable s T t x v) (hu : Unwrapped (t.assign x v)) :
    Since s (T \ { c | v.bind Value.owned? = some c }) (t.assign x v) ∧
      ∀ y, t.isAlive y = true → (∀ old, t.Owns x old → ¬ t.Reaches old y) →
        (t.assign x v).isAlive y = true := by
  -- the new value is written first, then what was owned before is freed
  have hwrite : t.write x v = t.modify x fun n => { n with value := v } :=
    write_eq_modify fun c hc => hv.parent?_eq_none h hc
  rcases t.assign_cases x v with ⟨heq, hsame⟩ | ⟨old, hown, hne, heq⟩
  -- nothing was owned before, or the same tree is owned again
  · rw [heq] at hu ⊢
    refine ⟨(h.write hx hv hu).congr fun b => ?_, fun y hy _ => by rwa [hwrite, isAlive_modify]⟩
    simp only [Set.mem_sdiff, Set.mem_union, Set.mem_ofPred_eq]
    constructor
    · rintro ⟨hb | ⟨hb, -⟩, hnot⟩
      · exact ⟨hb, hnot⟩
      · exact absurd (hsame b hb) hnot
    · exact fun ⟨hb, hnot⟩ => ⟨Or.inl hb, hnot⟩
  -- another tree was owned: it goes, with all that is below it
  · rw [heq] at hu ⊢
    have hW := h.write hx hv ((Evolves.remove _ _).unwrapped hu)
    refine ⟨(hW.remove old hu).congr fun b => ?_, fun y hy hnot => ?_⟩
    · simp only [Set.mem_sdiff, Set.mem_union, Set.mem_ofPred_eq, Set.mem_singleton_iff]
      constructor
      · rintro ⟨⟨hb | ⟨hb, -⟩, hnot⟩, hold⟩
        · exact ⟨hb, hnot⟩
        · exact absurd (Option.some.inj (hb.symm.trans hown)) hold
      · rintro ⟨hb, hnot⟩
        refine ⟨⟨Or.inl hb, hnot⟩, ?_⟩
        rintro rfl
        exact h.not_mem_of_holds (Owns.holds hown) hb
    · rw [hW.disciplined.isAlive_remove, hwrite, isAlive_modify]
      exact ⟨hy, fun hreach => hnot old hown ((h.disciplined.reaches_owned hown v).1 hreach)⟩

/-- A node that has been given a value holds its children and what the value owns. -/
theorem Since.holds_assign (h : Since s T t) {x : Handle} {v : Option Value}
    (hx : t.isAlive x = true) (hv : Givable s T t x v) (hu : Unwrapped (t.assign x v)) {c : Handle}
    (hc : (t.assign x v).Holds x c) (halive : (t.assign x v).isAlive c = true) :
    t.isAlive c = true ∧ (c ∈ t.childList x ∨ v.bind Value.owned? = some c) := by
  have hwrite : t.write x v = t.modify x fun n => { n with value := v } :=
    write_eq_modify fun c hc => hv.parent?_eq_none h hc
  have hone : (t.write x v).Holds x c → (t.write x v).isAlive c = true →
      t.isAlive c = true ∧ (c ∈ t.childList x ∨ v.bind Value.owned? = some c) := by
    intro hc halive
    rw [hwrite, isAlive_modify] at halive
    rw [hwrite, holds_modify_value, if_pos rfl] at hc
    exact ⟨halive, hc.imp id And.right⟩
  rcases t.assign_cases x v with ⟨heq, -⟩ | ⟨old, -, -, heq⟩
  · rw [heq] at hc halive
    exact hone hc halive
  · rw [heq] at hc halive hu
    have hthin := (h.write hx hv ((Evolves.remove _ _).unwrapped hu)).disciplined.thinned_remove old
    exact hone (hthin.holds hc halive) (hthin.alive halive)

-- ---------------------------------------------------------------------------
-- New nodes
-- ---------------------------------------------------------------------------

/-- What the value of a new node may own: a new node that nobody holds, or a freed one. -/
def Storable (s : Store) (T : Set Handle) (t : Store) (v : Option Value) : Prop :=
  ∀ c, v.bind Value.owned? = some c →
    c ∈ T ∧ s.isAlive c = false ∨ t.isAlive c = false ∧ t.Issued c

/-- A value that owns nothing may always be stored. -/
theorem storable_of_owned?_eq_none {v : Option Value} (hv : v.bind Value.owned? = none) :
    Storable s T t v := by
  intro c hc
  simp [hv] at hc

/-- What a value to be stored owns has no parent. -/
theorem Storable.parent?_eq_none (h : Since s T t) {v : Option Value} (hv : Storable s T t v)
    {c : Handle} (hc : v.bind Value.owned? = some c) : t.parent? c = none := by
  rcases hv c hc with ⟨hmem, -⟩ | ⟨hdead, -⟩
  · exact (h.top hmem).parent? h.disciplined.linked
  · simp [parent?, not_isAlive_iff.1 hdead]

/-- What a value to be stored owns is not the new node itself: that handle has not been given out.
-/
theorem Storable.ne_create_fst (h : Since s T t) {v : Option Value} (hv : Storable s T t v)
    (hu : Unwrapped t) (name : String) {c : Handle} (hc : v.bind Value.owned? = some c) :
    c ≠ (t.create name v).1 := by
  rintro rfl
  have hd := h.disciplined
  rcases hv _ hc with ⟨hmem, -⟩ | ⟨-, hissued⟩
  · have halive := h.isAlive hmem
    simp [isAlive_create_fst hd.balanced] at halive
  · rw [create_fst] at hissued
    exact hd.balanced.not_issued_allocate hu _ hissued

/-- A new node is one more top, and what its value owns is none any more. -/
theorem Since.create (h : Since s T t) (name : String) {v : Option Value} (hv : Storable s T t v)
    (hu : Unwrapped (t.create name v).2) :
    Since s (T \ { c | v.bind Value.owned? = some c } ∪ {(t.create name v).1})
      (t.create name v).2 := by
  have hd := h.disciplined
  cases v with
  -- without a value the node is only allocated
  | none =>
    refine (h.allocate name hu).congr fun b => ?_
    simp [create_none]
  | some w =>
    have hut := (Evolves.create t name (some w)).unwrapped hu
    -- what the value owns was there before, so it is not the new node
    have hne : ∀ c, w.owned? = some c → c ≠ (t.allocate { name }).1 := by
      intro c hc
      simpa [create_fst] using hv.ne_create_fst h hut name hc
    rw [hd.balanced.create_eq_write] at hu ⊢
    have hA := h.allocate name ((Evolves.write _ _ _).unwrapped hu)
    set new := (t.allocate { name }).1 with hnew
    have hself : (t.allocate { name }).2.node? new = some { name } := by
      rw [hd.balanced.node?_allocate, if_pos rfl]
    have hnone : ∀ g, ¬ (t.allocate { name }).2.Owns new g := by
      intro g hg
      simp [Owns, hself, Node.owned?] at hg
    -- so the new node may own it
    have hgive : Givable s (T ∪ {new}) (t.allocate { name }).2 new (some w) := by
      intro c hc
      rcases hv c hc with ⟨hmem, hs⟩ | ⟨hdead, hissued⟩
      · refine Or.inl ⟨Or.inl hmem, fun hreach => ?_, by simp [hs]⟩
        exact hne c hc ((hA.top (Or.inr rfl)).eq_of_reaches hreach)
      · refine Or.inr ⟨?_, (Evolves.allocate _ _).issued ((Evolves.write _ _ _).unwrapped hu) hissued⟩
        rw [← Bool.not_eq_true, hd.balanced.isAlive_allocate]
        simp [hdead, hne c hc, ← hnew]
    have hparent : ∀ c, (some w).bind Value.owned? = some c →
        (t.allocate { name }).2.parent? c = none := fun c hc => hgive.parent?_eq_none hA hc
    rw [create_fst, ← hnew]
    rw [write_eq_modify hparent] at hu ⊢
    refine (hA.hold (isAlive_iff.2 ⟨_, hself⟩) hnone hgive hu).congr fun b => ?_
    simp only [Set.mem_sdiff, Set.mem_union, Set.mem_ofPred_eq, Set.mem_singleton_iff]
    constructor
    · rintro ⟨hb | hb, hnot⟩
      · exact Or.inl ⟨hb, hnot⟩
      · exact Or.inr hb
    · rintro (⟨hb, hnot⟩ | rfl)
      · exact ⟨Or.inl hb, hnot⟩
      · exact ⟨Or.inr rfl, fun hown => hne _ hown rfl⟩

/-- A new node does not lead to an old one that its value does not lead to. -/
theorem Since.not_reaches_create (h : Since s T t) (name : String) {v : Option Value}
    (hv : Storable s T t v) (hu : Unwrapped (t.create name v).2) {p : Handle}
    (hp : t.isAlive p = true)
    (hback : ∀ c, v.bind Value.owned? = some c → ¬ t.Reaches c p) :
    ¬ (t.create name v).2.Reaches (t.create name v).1 p := by
  have hd := h.disciplined
  have hut := (Evolves.create t name v).unwrapped hu
  have hholds := hd.balanced.holds_create name fun c hc => hv.parent?_eq_none h hc
  have htop := (h.create name hv hu).top (Or.inr rfl)
  have hfst := isAlive_create_fst hd.balanced name v
  intro hreach
  rcases Relation.ReflTransGen.cases_head hreach with heq | ⟨c, hc, hway⟩
  · rw [heq, hp] at hfst
    simp at hfst
  · rcases (hholds _ _).1 hc with hold | ⟨-, hown⟩
    · have := hold.isAlive
      simp [hfst] at this
    · refine hback c hown ?_
      -- behind the new node only old ways are left
      clear hreach hback hp
      induction hway with
      | refl => exact .refl _ _
      | @tail a b hca hab ih =>
        rcases (hholds a b).1 hab with hold | ⟨rfl, -⟩
        · exact ih.tail hold
        · exact absurd (htop.eq_of_reaches hca) (hv.ne_create_fst h hut name hown)

/-- A new node is added below another: only what its value owns is no top any more. -/
theorem Since.add (h : Since s T t) {p x : Handle} {name : String} {v : Option Value}
    (hok : t.add p name v = .ok (x, t')) (hv : Storable s T t v)
    (hback : ∀ c, v.bind Value.owned? = some c → ¬ t.Reaches c p) (hu : Unwrapped t') :
    Since s (T \ { c | v.bind Value.owned? = some c }) t' := by
  obtain ⟨hp, rfl, hp', rfl⟩ := add_eq_ok hok
  have huc : Unwrapped (t.create name v).2 := (Evolves.link _ _ _ _).unwrapped hu
  have hcreate := h.create name hv huc
  have hfresh : Fresh t (t.create name v).2 (t.create name v).1 :=
    ⟨isAlive_create_fst h.disciplined.balanced name v, hcreate.isAlive (Or.inr rfl)⟩
  have hnew := h.not_isAlive_of_fresh (.create t name v) huc hfresh
  -- the new node is no tree that was set aside
  have hmem : (t.create name v).1 ∉ T := fun hmem => by
    have := h.isAlive hmem
    simp [hfresh.1] at this
  obtain ⟨n, hn⟩ := isAlive_iff.1 hp'
  refine (hcreate.link hn (Or.inr rfl) (h.not_reaches_create name hv huc hp hback)
    (by simp [hnew]) (by rw [childList_eq hn]) hu).congr fun b => ?_
  simp only [Set.mem_sdiff, Set.mem_union, Set.mem_ofPred_eq, Set.mem_singleton_iff]
  constructor
  · rintro ⟨hb | hb, hne⟩
    · exact hb
    · exact absurd hb hne
  · rintro ⟨hb, hnot⟩
    refine ⟨Or.inl ⟨hb, hnot⟩, ?_⟩
    rintro rfl
    exact hmem hb

-- ---------------------------------------------------------------------------
-- Trees that come in as a whole
-- ---------------------------------------------------------------------------

/-- A tree that has come into a store: old nodes are as they were, its topmost node has
no parent, and all that it reaches is new. -/
structure Sprouted (t : Store) (c : Handle) (t' : Store) : Prop extends Planted t c t' where
  new {y : Handle} : t'.Reaches c y → Fresh t t' y

/-- A content that is planted comes in as a tree of its own. -/
theorem Balanced.sprouted_plant (ht : Balanced t) (x : Shape) :
    Sprouted t (t.plant x).1 (t.plant x).2 :=
  ⟨ht.plant x, ht.fresh_of_reaches_plant⟩

/-- A new tree does not lead to what was there. -/
theorem Sprouted.not_reaches {c x : Handle} (hc : Sprouted t c t') (hx : t.isAlive x = true) :
    ¬ t'.Reaches c x := by
  intro hreach
  have := (hc.new hreach).1
  simp [hx] at this

theorem Sprouted.fresh_root {c : Handle} (hc : Sprouted t c t') : Fresh t t' c :=
  hc.new (.refl _ _)

/-- A tree that has come in was not there in the beginning. -/
theorem Since.not_isAlive_of_sprouted (h : Since s T t) {c : Handle} (hc : Sprouted t c t')
    (hu : Unwrapped t') : s.isAlive c = false :=
  h.not_isAlive_of_fresh hc.evolves hu hc.fresh_root

/-- The root of a new tree was no top before. -/
theorem Since.not_mem_of_sprouted (h : Since s T t) {c : Handle} (hc : Sprouted t c t') :
    c ∉ T := by
  intro hmem
  have halive := h.isAlive hmem
  simp [hc.fresh_root.1] at halive

mutual

/-- Planting a content adds one tree. -/
theorem Since.plant {s t : Store} {T : Set Handle} (h : Since s T t) :
    (x : Shape) → Unwrapped (t.plant x).2 → Since s (T ∪ {(t.plant x).1}) (t.plant x).2
  | .plain name value children, hu => by
    rw [Store.plant] at hu ⊢
    have hcreate := h.create name
      (storable_of_owned?_eq_none (owned?_map_scalar value)) ((Evolves.plantBelow _ _ _).unwrapped hu)
    refine (hcreate.plantBelow (hcreate.isAlive (Or.inr rfl)) children hu).congr fun b => ?_
    simp [owned?_map_scalar]
  | .pointer name target children, hu => by
    rw [Store.plant] at hu ⊢
    have hcreate := h.create name (v := some (.ref target))
      (storable_of_owned?_eq_none rfl) ((Evolves.plantBelow _ _ _).unwrapped hu)
    refine (hcreate.plantBelow (hcreate.isAlive (Or.inr rfl)) children hu).congr fun b => ?_
    simp [Value.owned?]
  | .holder name nested children, hu => by
    rw [Store.plant] at hu ⊢
    have huc := (Evolves.plantBelow _ _ _).unwrapped hu
    have hun := (Evolves.create _ _ _).unwrapped huc
    -- the owned tree is planted first, on top until the new node owns it
    have hinner := h.plant nested hun
    have hsprout := h.disciplined.balanced.sprouted_plant nested
    have hstore : Storable s (T ∪ {(t.plant nested).1}) (t.plant nested).2
        (some (.node (t.plant nested).1)) := by
      intro c hc
      obtain rfl : (t.plant nested).1 = c := by simpa [Value.owned?] using hc
      exact Or.inl ⟨Or.inr rfl, h.not_isAlive_of_sprouted hsprout hun⟩
    have hcreate := hinner.create name hstore huc
    refine (hcreate.plantBelow (hcreate.isAlive (Or.inr rfl)) children hu).congr fun b => ?_
    have hnot := h.not_mem_of_sprouted hsprout
    simp only [Set.mem_sdiff, Set.mem_union, Set.mem_ofPred_eq, Set.mem_singleton_iff,
      Option.bind_some, Value.owned?, Option.some.injEq]
    constructor
    · rintro (⟨hb | rfl, hne⟩ | rfl)
      · exact Or.inl hb
      · exact absurd rfl hne
      · exact Or.inr rfl
    · rintro (hb | rfl)
      · exact Or.inl ⟨Or.inl hb, fun heq => hnot (heq ▸ hb)⟩
      · exact Or.inr rfl

/-- Planting contents below a node adds no tree. -/
theorem Since.plantBelow {s t : Store} {T : Set Handle} (h : Since s T t) {p : Handle}
    (hp : t.isAlive p = true) :
    (xs : List Shape) → Unwrapped (t.plantBelow p xs) → Since s T (t.plantBelow p xs)
  | [], _ => by rwa [Store.plantBelow]
  | x :: rest, hu => by
    rw [Store.plantBelow] at hu ⊢
    have hul := (Evolves.plantBelow _ _ _).unwrapped hu
    have hux := (Evolves.link _ _ _ _).unwrapped hul
    have hx := h.plant x hux
    have hsprout := h.disciplined.balanced.sprouted_plant x
    have hold := h.not_isAlive_of_sprouted hsprout hux
    obtain ⟨n, hn⟩ := isAlive_iff.1 (hsprout.isAlive hp)
    have hlink := hx.link hn (Or.inr rfl) (hsprout.not_reaches hp) (by simp [hold])
      (by rw [childList_eq hn]) hul
    -- the tree just planted is linked at once, so it is not on top any more
    have hone : Since s T ((t.plant x).2.linkLast p (t.plant x).1) := by
      refine hlink.congr fun b => ?_
      have hnot := h.not_mem_of_sprouted hsprout
      simp only [Set.mem_sdiff, Set.mem_union, Set.mem_singleton_iff]
      constructor
      · rintro ⟨hb | hb, hne⟩
        · exact hb
        · exact absurd hb hne
      · exact fun hb => ⟨Or.inl hb, fun heq => hnot (heq ▸ hb)⟩
    exact hone.plantBelow (by rw [isAlive_linkLast]; exact hsprout.isAlive hp) rest hu

end

theorem Balanced.sprouted_deepClone (ht : Balanced t) {h c : Handle}
    (hok : t.deepClone h = .ok (c, t')) : Sprouted t c t' := by
  obtain ⟨x, hx⟩ := deepClone_eq_ok hok
  simpa [hx] using ht.sprouted_plant x

theorem Since.deepClone (h : Since s T t) {x c : Handle} (hok : t.deepClone x = .ok (c, t'))
    (hu : Unwrapped t') : Since s (T ∪ {c}) t' := by
  obtain ⟨x, hx⟩ := deepClone_eq_ok hok
  simpa [hx] using h.plant x (by rwa [hx])

/-- The shape of a successful reading. -/
theorem parse_eq_ok {text : String} {c : Handle} (hok : t.parse text = .ok (c, t')) :
    ∃ x, t.plant x = (c, t') := by
  unfold parse at hok
  split at hok
  · exact ⟨_, Except.ok.inj hok⟩
  · simp at hok

/-- A text that is read comes in as a tree of its own. -/
theorem Balanced.sprouted_parse (ht : Balanced t) {text : String} {c : Handle}
    (hok : t.parse text = .ok (c, t')) : Sprouted t c t' := by
  obtain ⟨x, hx⟩ := parse_eq_ok hok
  simpa [hx] using ht.sprouted_plant x

theorem Since.parse (h : Since s T t) {text : String} {c : Handle}
    (hok : t.parse text = .ok (c, t')) (hu : Unwrapped t') : Since s (T ∪ {c}) t' := by
  obtain ⟨x, hx⟩ := parse_eq_ok hok
  simpa [hx] using h.plant x (by rwa [hx])

/-- A tree that has come in is taken away again or put below a node. -/
theorem Since.forget {c : Handle} (hc : c ∉ T) (h : Since s ((T ∪ {c}) \ {c}) t) : Since s T t := by
  refine h.congr fun b => ?_
  simp only [Set.mem_sdiff, Set.mem_union, Set.mem_singleton_iff]
  constructor
  · rintro ⟨hb | hb, hne⟩
    · exact hb
    · exact absurd hb hne
  · exact fun hb => ⟨Or.inl hb, fun heq => hc (heq ▸ hb)⟩

-- ---------------------------------------------------------------------------
-- Signals
-- ---------------------------------------------------------------------------

/-- The node that a signal would be looked for at is a child. -/
theorem holds_of_frontOf? {h first : Handle} (hf : t.frontOf? h = some first) :
    ∃ r, t.root? h = some r ∧ t.Holds r first := by
  obtain ⟨r, hr, hfirst⟩ := Option.bind_eq_some_iff.1 hf
  exact ⟨r, hr, holds_iff_childList.2 (Or.inl (List.mem_of_head? hfirst))⟩

/-- The shape of a raised signal. -/
theorem signal_eq_ok {h : Handle} {c : Control} (hok : t.signal h c = .ok t') :
    t' = t ∨ ∃ r name, t.root? h = some r ∧
      (t.create name none).2.moveBelow r 0 (t.create name none).1 = .ok t' := by
  unfold signal at hok
  split at hok
  next r name hr _ => exact Or.inr ⟨r, name, hr, hok⟩
  next => exact Or.inl (Except.ok.inj hok).symm

theorem Evolves.signal {h : Handle} {c : Control} (hok : t.signal h c = .ok t') : Evolves t t' := by
  rcases signal_eq_ok hok with rfl | ⟨r, name, -, hmove⟩
  · exact .refl _
  · exact (Evolves.create _ _ _).trans (.moveBelow hmove)

theorem Since.signal (h : Since s T t) {x : Handle} {c : Control} (hok : t.signal x c = .ok t')
    (hu : Unwrapped t') : Since s T t' := by
  rcases signal_eq_ok hok with rfl | ⟨r, name, hr, hmove⟩
  · exact h
  · have hstore : Storable s T t none := storable_of_owned?_eq_none rfl
    have huc := (Evolves.moveBelow hmove).unwrapped hu
    have hcreate := h.create name hstore huc
    have hfresh : Fresh t (t.create name none).2 (t.create name none).1 :=
      ⟨isAlive_create_fst h.disciplined.balanced name none, hcreate.isAlive (Or.inr rfl)⟩
    have hback := h.not_reaches_create name hstore huc (h.disciplined.linked.isAlive_root? hr)
      (by simp)
    have hnew := h.not_isAlive_of_fresh (.create t name none) huc hfresh
    have hnot : (t.create name none).1 ∉ T := fun hmem => by
      have := h.isAlive hmem
      simp [hfresh.1] at this
    refine Since.forget hnot ((hcreate.moveBelow hmove (Or.inl (Or.inr rfl)) hback
      (by simp [hnew]) hu).congr fun b => ?_)
    simp

/-- A signal can always be raised in a disciplined store. -/
theorem Disciplined.signal_isOk (hd : Disciplined t) (h : Handle) (c : Control) :
    ∃ t', t.signal h c = .ok t' := by
  unfold Store.signal
  split
  next r name hr _ =>
    have hv : ∀ c, (none : Option Value).bind Value.owned? = some c → t.parent? c = none := by simp
    exact moveBelow_isOk
      ((hd.balanced.isAlive_create name hv r).2 (Or.inl (hd.linked.isAlive_root? hr)))
      ((hd.balanced.isAlive_create name hv _).2 (Or.inr rfl)) 0
  next => exact ⟨t, rfl⟩

/-- The shape of a removed signal. -/
theorem clearSignal_eq_ok {h : Handle} {c : Control} (hok : t.clearSignal h = .ok (c, t')) :
    t' = t ∨ ∃ first, t.frontOf? h = some first ∧ t' = t.remove first := by
  unfold clearSignal at hok
  split at hok
  next =>
    obtain ⟨-, rfl⟩ := Prod.mk.inj (Except.ok.inj hok)
    exact Or.inl rfl
  next first hf =>
    cases hn : t.name first with
    | error e => simp [hn, bind, Except.bind] at hok
    | ok name =>
      simp only [hn, bind, Except.bind] at hok
      obtain ⟨-, rfl⟩ := Prod.mk.inj (Except.ok.inj hok)
      split
      · exact Or.inr ⟨first, hf, rfl⟩
      · exact Or.inl rfl

theorem Since.clearSignal (h : Since s T t) {x : Handle} {c : Control}
    (hok : t.clearSignal x = .ok (c, t')) (hu : Unwrapped t') : Since s T t' := by
  rcases clearSignal_eq_ok hok with rfl | ⟨first, hf, rfl⟩
  · exact h
  · obtain ⟨r, -, hholds⟩ := holds_of_frontOf? hf
    exact h.remove_held hholds hu

theorem Evolves.clearSignal {h : Handle} {c : Control} (hok : t.clearSignal h = .ok (c, t')) :
    Evolves t t' := by
  rcases clearSignal_eq_ok hok with rfl | ⟨first, -, rfl⟩
  · exact .refl _
  · exact .remove _ _

/-- The shape of a stripped signal. -/
theorem stripReturn_eq_ok {h : Handle} (hok : t.stripReturn h = .ok t') :
    t' = t ∨ ∃ first ∈ t.childList h, t' = t.remove first := by
  unfold stripReturn at hok
  split at hok
  next => exact Or.inl (Except.ok.inj hok).symm
  next first hf =>
    cases hn : t.name first with
    | error e => simp [hn, bind, Except.bind] at hok
    | ok name =>
      simp only [hn, bind, Except.bind] at hok
      obtain rfl := Except.ok.inj hok
      split
      · exact Or.inr ⟨first, List.mem_of_head? hf, rfl⟩
      · exact Or.inl rfl

theorem Since.stripReturn (h : Since s T t) {x : Handle} (hok : t.stripReturn x = .ok t')
    (hu : Unwrapped t') : Since s T t' := by
  rcases stripReturn_eq_ok hok with rfl | ⟨first, hf, rfl⟩
  · exact h
  · exact h.remove_held (holds_iff_childList.2 (Or.inl hf)) hu

theorem Evolves.stripReturn {h : Handle} (hok : t.stripReturn h = .ok t') : Evolves t t' := by
  rcases stripReturn_eq_ok hok with rfl | ⟨first, -, rfl⟩
  · exact .refl _
  · exact .remove _ _

end TreeScript.Store
