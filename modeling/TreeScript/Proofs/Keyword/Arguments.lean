import TreeScript.Keyword.Arguments
import TreeScript.Proofs.Engine.Execute

/-!
# TreeScript — arguments of keywords keep a store in order

What the keywords have in common: a value that is given to another node, children that
are added to the keyword's node, and arguments that are taken away in the end.

* `Handler.Keeps` — a handler that keeps the store in order;
* `Spare`, `ensures_ownValue` — a value that may be given away;
* `ensures_give`, `ensures_add` — giving it to a node, or to a new child;
* `Called`, `ensures_removeArguments` — a node with its arguments;
* `Target`, `ensures_addScalar` — a node that gets results.
-/

namespace TreeScript

open Store Engine

/-- A handler keeps the store in order in every scope that does. -/
def Handler.Keeps (F : Fence) (b : Store) (handler : Handler) : Prop :=
  ∀ (scope : Scope), scope.Keeps F b → ∀ (s : Store) (T : Set Handle) (h : Handle),
    Ensures (fun t => Held F b s T t ∧ F.Present t h) (handler scope h) (fun _ => Held F b s T)
      (Held F b s T)

namespace Keyword

variable {F : Fence} {b s : Store} {T : Set Handle}

-- ---------------------------------------------------------------------------
-- Places below a node
-- ---------------------------------------------------------------------------

/-- A live node that stands below another, or is it. -/
def Below (t : Store) (y h : Handle) : Prop :=
  t.isAlive y = true ∧ Relation.ReflTransGen t.ChildOf y h

theorem Below.refl {t : Store} {h : Handle} (hh : t.isAlive h = true) : Below t h h := ⟨hh, .refl⟩

theorem Below.isAlive {t : Store} (hl : Linked t) {y h : Handle} (hy : Below t y h) :
    t.isAlive h = true := by
  rcases Relation.ReflTransGen.cases_tail hy.2 with rfl | ⟨x, -, hx⟩
  · exact hy.1
  · exact hl.isAlive_parent hx

/-- What a node owns does not lead to the nodes that stand below it. -/
theorem Below.not_reaches_owned {t : Store} (hd : Disciplined t) {y h old : Handle}
    (hy : Below t y h) (hown : t.Owns h old) : ¬ t.Reaches old y := by
  obtain ⟨-, hup⟩ := hy
  induction hup using Relation.ReflTransGen.head_induction_on with
  | refl => exact hd.not_reaches_holder hown.holds
  | @head x p hstep _ ih =>
    intro hreach
    obtain ⟨n, hn, hp⟩ := childOf_iff.1 hstep
    have halive : t.isAlive x = true := isAlive_iff.2 ⟨n, hn⟩
    rcases hd.reaches_holder halive (holds_of_childOf hd.linked hstep) hreach with rfl | hback
    · -- an owned node has no parent
      have hroot := hd.apart hown halive
      rw [show t.parent? old = some p from hstep] at hroot
      simp at hroot
    · exact ih hback

theorem Below.sprouted {t t' : Store} {c y h : Handle} (hc : Sprouted t c t') (hy : Below t y h) :
    Below t' y h := by
  refine ⟨hc.isAlive hy.1, Relation.ReflTransGen.mono (fun x p hxp => ?_) _ _ hy.2⟩
  obtain ⟨n, hn, hp⟩ := childOf_iff.1 hxp
  exact childOf_iff.2 ⟨n, hc.keeps hn, hp⟩

-- ---------------------------------------------------------------------------
-- Values that may be given away
-- ---------------------------------------------------------------------------

/-- A value that a node may be given: it owns nothing, or a freed node, or a tree that has
come in since the base store and does not lead to that node. -/
def Spare (F : Fence) (b s : Store) (T : Set Handle) (h : Handle) (v : Option Value) (t : Store) :
    Prop :=
  (∀ x, v = some x → F.Admits x) ∧
    ((Held F b s T t ∧ ∀ g, v.bind Value.owned? = some g → t.isAlive g = false ∧ t.Issued g) ∨
      ∃ c, v = some (.node c) ∧ c ∉ T ∧ Held F b s (T ∪ {c}) t ∧ s.isAlive c = false ∧
        ¬ t.Reaches c h)

/-- A store with a value to spare is in order. -/
theorem Spare.disciplined {h : Handle} {v : Option Value} {t : Store}
    (hv : Spare F b s T h v t) : Disciplined t := by
  obtain ⟨-, ⟨hheld, -⟩ | ⟨c, -, -, hheld, -⟩⟩ := hv
  · exact hheld.disciplined
  · exact hheld.disciplined

/-- A value without an owned node is spare. -/
theorem spare_of_held {h : Handle} {v : Option Value} {t : Store} (ht : Held F b s T t)
    (hv : v = none ∨ ∃ x, v = some (.scalar x)) : Spare F b s T h v t := by
  rcases hv with rfl | ⟨x, rfl⟩
  · exact ⟨by simp, Or.inl ⟨ht, by simp⟩⟩
  · refine ⟨fun y hy => ?_, Or.inl ⟨ht, by simp [Value.owned?]⟩⟩
    obtain rfl := Option.some.inj hy
    trivial

/-- Freed nodes stay what they are when the node's children are freed. -/
theorem Spare.clear {h : Handle} {v : Option Value} {t t' : Store} (hv : Spare F b s T h v t)
    (hopen : F.Open h) (hok : t.clear h = .ok t') (hu : Unwrapped t') : Spare F b s T h v t' := by
  have hthin := hv.disciplined.thinned_clear hok
  have hself := hv.disciplined.isAlive_clear_self hok
  have hkeep : ∀ {T'}, Held F b s T' t → Held F b s T' t' := fun hheld =>
    ⟨hheld.since.clear hok hu, hheld.fenced.clear hopen hok⟩
  obtain ⟨hadm, ⟨hheld, hdead⟩ | ⟨c, rfl, hc, hheld, hnew, hback⟩⟩ := hv
  · refine ⟨hadm, Or.inl ⟨hkeep hheld, fun g hg => ⟨?_, ?_⟩⟩⟩
    · exact hthin.not_isAlive (hdead g hg).1
    · exact hthin.evolves.issued hu (hdead g hg).2
  · exact ⟨hadm, Or.inr ⟨c, rfl, hc, hkeep hheld, hnew,
      fun hreach => hback (hthin.reaches hreach hself)⟩⟩

/-- What to show of a step that uses a spare value: one case where nothing alive is owned,
and one where it is a tree. -/
theorem ensures_spare {α : Type} {h : Handle} {v : Option Value} {P E : Store → Prop}
    {x : Engine α} {Q : α → Store → Prop}
    (hdead : Ensures (fun t => (∀ y, v = some y → F.Admits y) ∧
      (∀ g, v.bind Value.owned? = some g → t.isAlive g = false ∧ t.Issued g) ∧
      Held F b s T t ∧ P t) x Q E)
    (htree : ∀ c, v = some (.node c) → c ∉ T → F.Inside c → Ensures (fun t =>
      (s.isAlive c = false ∧ ¬ t.Reaches c h) ∧ Held F b s (T ∪ {c}) t ∧ P t) x Q E) :
    Ensures (fun t => Spare F b s T h v t ∧ P t) x Q E := by
  refine ⟨hdead.evolves, fun σ hu hσ => ?_⟩
  obtain ⟨⟨hadm, ⟨hheld, hfreed⟩ | ⟨c, hv, hc, hheld, hnew, hback⟩⟩, hP⟩ := hσ
  · exact hdead.ended σ hu ⟨hadm, hfreed, hheld, hP⟩
  · exact (htree c hv hc (hadm _ hv)).ended σ hu ⟨⟨hnew, hback⟩, hheld, hP⟩

/-- A value is made spare: an owned node that is there is copied. -/
theorem ensures_ownValue (v : Value) (y h : Handle) {E : Store → Prop} :
    Ensures (fun t => (F.Admits v ∧ ∀ g, v.owned? = some g → t.Issued g) ∧ Held F b s T t ∧
        Below t y h)
      (ownValue v) (fun v' t => Spare F b s T h (some v') t ∧ Below t y h) E := by
  -- a value that owns nothing needs no copy
  have hplain : ∀ v, v.owned? = none → Ensures (fun t =>
      (F.Admits v ∧ ∀ g, v.owned? = some g → t.Issued g) ∧ Held F b s T t ∧ Below t y h)
      (pure v) (fun v' t => Spare F b s T h (some v') t ∧ Below t y h) E := by
    intro v hv
    refine (Ensures.pure v).before fun t _ ht => ⟨⟨fun x hx => ?_, Or.inl ⟨ht.2.1, ?_⟩⟩, ht.2.2⟩
    · obtain rfl := Option.some.inj hx
      exact ht.1.1
    · simp [hv]
  cases v with
  | scalar x => exact hplain _ rfl
  | ref x => exact hplain _ rfl
  | node g =>
    refine Ensures.bind_isAlive (Ensures.ite (fun _ => ?_) (by simp)) (Ensures.ite (by simp)
      fun _ => (Ensures.pure (Value.node g)).before fun t _ ht => ?_)
    -- the tree is alive: its copy is new, and its old owner keeps the old one
    · refine Ensures.bind (ensures_copied (F := F) (b := b) (s := s) (T := T)
        (fun _ ht => ht.1.2.1) fun _ ht => ⟨ht.2, Or.inl ht.1.1.1.1⟩) fun c => ?_
      refine (Ensures.pure (Value.node c)).before fun t' hu ht => ?_
      obtain ⟨t, ⟨⟨-, hheld, hbelow⟩, -⟩, hsprout, hheld', hinside⟩ := ht
      refine ⟨⟨fun x hx => ?_, Or.inr ⟨c, rfl, hheld.since.not_mem_of_sprouted hsprout, hheld',
        hheld.since.not_isAlive_of_sprouted hsprout hu,
        hsprout.not_reaches (hbelow.isAlive hheld.disciplined.linked)⟩⟩, hbelow.sprouted hsprout⟩
      obtain rfl := Option.some.inj hx
      exact hinside
    -- it is gone: the stale handle is handed on as it is
    · obtain ⟨⟨⟨hadm, hissued⟩, hheld, hbelow⟩, hdead⟩ := ht
      refine ⟨⟨fun x hx => ?_, Or.inl ⟨hheld, fun g' hg' => ?_⟩⟩, hbelow⟩
      · obtain rfl := Option.some.inj hx
        exact hadm
      · obtain rfl : g = g' := by simpa [Value.owned?] using hg'
        exact ⟨hdead, hissued g rfl⟩

/-- A node is given a spare value; the nodes below it stay. -/
theorem ensures_give (h y : Handle) (v : Option Value) {E : Store → Prop} :
    Ensures (fun t => Spare F b s T h v t ∧ F.Open h ∧ Below t y h) (Engine.setValue h v)
      (fun _ t => Held F b s T t ∧ t.isAlive y = true ∧ t.isAlive h = true) E := by
  -- neither the node nor what stands below it is owned by it
  have hstays : ∀ {t t' : Store}, Disciplined t → Below t y h →
      (∀ x, t.isAlive x = true → (∀ old, t.Owns h old → ¬ t.Reaches old x) →
        t'.isAlive x = true) → t'.isAlive y = true ∧ t'.isAlive h = true := by
    intro t t' hd hbelow hkeep
    have hh := hbelow.isAlive hd.linked
    exact ⟨hkeep y hbelow.1 fun old => hbelow.not_reaches_owned hd,
      hkeep h hh fun old => (Below.refl hh).not_reaches_owned hd⟩
  refine ensures_spare ?_ fun c hv hc hinside => ?_
  · refine ensures_setValue (F := F) (b := b) (s := s) (T := T) (fun _ ht => ?_)
      fun _ ht hheld hkeep _ => ⟨hheld.congr fun x => ?_, hstays ht.2.2.1.disciplined ht.2.2.2.2 hkeep⟩
    · obtain ⟨hadm, hfreed, hheld, hopen, hbelow⟩ := ht
      exact ⟨hheld, hbelow.isAlive hheld.disciplined.linked, hopen,
        fun c hc => Or.inr (hfreed c hc), hadm⟩
    · refine ⟨And.left, fun hx => ⟨hx, fun hown => ?_⟩⟩
      have halive := ht.2.2.1.isAlive hx
      simp [(ht.2.1 x hown).1] at halive
  · subst hv
    refine ensures_setValue (F := F) (b := b) (s := s) (T := T ∪ {c}) (fun _ ht => ?_)
      fun _ ht hheld hkeep _ => ⟨(hheld.congr fun x => ?_).forget hc,
        hstays ht.2.1.disciplined ht.2.2.2 hkeep⟩
    · obtain ⟨⟨hnew, hback⟩, hheld, hopen, hbelow⟩ := ht
      refine ⟨hheld, hbelow.isAlive hheld.disciplined.linked, hopen, fun g hg => ?_, fun x hx => ?_⟩
      · obtain rfl : c = g := by simpa [Value.owned?] using hg
        exact Or.inl ⟨Or.inr rfl, hback, by simp [hnew]⟩
      · obtain rfl := Option.some.inj hx
        exact hinside
    · simp [Value.owned?, eq_comm]

-- ---------------------------------------------------------------------------
-- New children
-- ---------------------------------------------------------------------------

/-- A new child of a live node; nobody goes away. -/
theorem ensures_addStorable {P E : Store → Prop} {p : Handle} {name : String} {v : Option Value}
    {Q : Handle → Store → Prop}
    (hP : ∀ {t}, Unwrapped t → P t → Held F b s T t ∧ t.isAlive p = true ∧ F.Open p ∧
      Storable s T t v ∧ (∀ c, v.bind Value.owned? = some c → ¬ t.Reaches c p) ∧
      ∀ x, v = some x → F.Admits x)
    (hQ : ∀ {t c t'}, Unwrapped t' → P t → F.Present t' c →
      Held F b s (T \ { c | v.bind Value.owned? = some c }) t' →
      (∀ x, t.isAlive x = true → t'.isAlive x = true) → Q c t') :
    Ensures P (Engine.add p name v) Q E := by
  -- the store with the new node before it is linked
  have hcreated : ∀ {t}, P t → Unwrapped t → ∀ x, (t.create name v).2.isAlive x = true ↔
      t.isAlive x = true ∨ x = (t.create name v).1 := by
    intro t ht hu
    obtain ⟨hheld, -, -, hstore, -, -⟩ := hP hu ht
    exact hheld.disciplined.balanced.isAlive_create name
      fun c hc => hstore.parent?_eq_none hheld.since hc
  refine Ensures.change (fun hf => .add hf) (fun {t c t'} hu ht hf => ?_) fun {t} hu ht hf => ?_
  · have hut := (Evolves.add hf).unwrapped hu
    obtain ⟨hheld, hp, hopen, hstore, hback, hadm⟩ := hP hut ht
    obtain ⟨hfenced, hinside⟩ := hheld.fenced.add hopen hadm hf
    have halive : ∀ x, t'.isAlive x = true ↔ t.isAlive x = true ∨ x = c := by
      obtain ⟨-, rfl, -, rfl⟩ := add_eq_ok hf
      intro x
      rw [isAlive_linkLast, hcreated ht hut]
    exact hQ hu ht ⟨(halive c).2 (Or.inr rfl), hinside⟩
      ⟨hheld.since.add hf hstore hback hu, hfenced⟩ fun x hx => (halive x).2 (Or.inl hx)
  · obtain ⟨-, hp, -⟩ := hP hu ht
    simp [Store.add, hp, (hcreated ht hu p).2 (Or.inl hp)] at hf

/-- A node gets a child with a spare value. -/
theorem ensures_add (h y : Handle) (name : String) (v : Option Value) {E : Store → Prop} :
    Ensures (fun t => Spare F b s T h v t ∧ F.Open h ∧ t.isAlive h = true ∧ t.isAlive y = true)
      (Engine.add h name v)
      (fun c t => F.Present t c ∧ Held F b s T t ∧ t.isAlive h = true ∧ t.isAlive y = true) E := by
  refine ensures_spare ?_ fun c hv hc hinside => ?_
  -- the value owns nothing that is alive
  · refine ensures_addStorable (F := F) (b := b) (s := s) (T := T) (fun _ ht => ?_)
      fun _ ht hnew hheld hkeep => ⟨hnew, hheld.congr fun x => ?_, hkeep _ ht.2.2.2.2.1,
        hkeep _ ht.2.2.2.2.2⟩
    · obtain ⟨hadm, hfreed, hheld, hopen, halive, -⟩ := ht
      refine ⟨hheld, halive, hopen, fun c hc => Or.inr (hfreed c hc), fun c hc hreach => ?_, hadm⟩
      have hdead := (hfreed c hc).1
      simp [hreach.isAlive halive] at hdead
    · refine ⟨And.left, fun hx => ⟨hx, fun hown => ?_⟩⟩
      have halive := ht.2.2.1.isAlive hx
      simp [(ht.2.1 x hown).1] at halive
  -- the value owns a tree set aside, which is no longer on top afterwards
  · subst hv
    refine ensures_addStorable (F := F) (b := b) (s := s) (T := T ∪ {c}) (fun _ ht => ?_)
      fun _ ht hnew hheld hkeep => ⟨hnew, (hheld.congr fun x => ?_).forget hc,
        hkeep _ ht.2.2.2.1, hkeep _ ht.2.2.2.2⟩
    · obtain ⟨⟨hnew, hback⟩, hheld, hopen, halive, -⟩ := ht
      refine ⟨hheld, halive, hopen, fun g hg => ?_, fun g hg => ?_, fun x hx => ?_⟩
      · obtain rfl : c = g := by simpa [Value.owned?] using hg
        exact Or.inl ⟨Or.inr rfl, hnew⟩
      · obtain rfl : c = g := by simpa [Value.owned?] using hg
        exact hback
      · obtain rfl := Option.some.inj hx
        exact hinside
    · simp [Value.owned?, eq_comm]

-- ---------------------------------------------------------------------------
-- Reading and removing arguments
-- ---------------------------------------------------------------------------

/-- The node of a keyword with some of its children. -/
def Called (F : Fence) (b s : Store) (T : Set Handle) (h : Handle) (args : List Handle)
    (t : Store) : Prop :=
  Held F b s T t ∧ F.Present t h ∧ ∀ a ∈ args, a ∈ t.childList h

theorem Called.isAlive {h : Handle} {args : List Handle} {t : Store}
    (ht : Called F b s T h args t) {a : Handle} (ha : a ∈ args) : t.isAlive a = true :=
  ht.1.live.of_mem_childList (ht.2.2 a ha)

/-- The children of a node are read as its arguments. -/
theorem bind_arguments {α : Type} {h : Handle} {k : List Handle → Engine α}
    {Q : α → Store → Prop} {E : Store → Prop}
    (hk : ∀ args, Ensures (Called F b s T h args) (k args) Q E) :
    Ensures (fun t => Held F b s T t ∧ F.Present t h)
      (Engine.nodes >>= fun m => liftM (m.children h) >>= k) Q E := by
  refine Ensures.bind_nodes fun m => ?_
  refine Ensures.bind_liftFault (R := fun _ _ => True) ?_ fun args hargs => (hk args).before ?_
  · rintro t - ⟨rfl, ht, hh⟩
    exact (ends_children ht.live hh.1).mono (fun _ _ => trivial) fun _ he => he
  · rintro t - ⟨⟨rfl, ht, hh⟩, -⟩
    obtain ⟨n, hn, rfl⟩ := children_eq_ok.1 hargs
    exact ⟨ht, hh, fun a ha => by rwa [childList_eq hn]⟩

/-- The texts that a node's value leads to are read. -/
theorem bind_strings {α : Type} {P : Store → Prop} {h : Handle} {k : List String → Engine α}
    {Q : α → Store → Prop}
    (hP : ∀ {t}, P t → Held F b s T t ∧ t.isAlive h = true)
    (hk : ∀ texts, Ensures P (k texts) Q (Held F b s T)) :
    Ensures P (Engine.nodes >>= fun m => liftM (m.strings h) >>= k) Q (Held F b s T) := by
  refine Ensures.bind_nodes fun m => ?_
  refine Ensures.bind_lift (R := fun _ _ => True) ?_ (fun t _ ht => (hP ht.2).1)
    fun texts _ => (hk texts).before fun t _ ht => ht.1.2
  rintro t - ⟨rfl, ht⟩
  exact ends_strings (hP ht).1.disciplined (hP ht).2

/-- The arguments of a node are freed, and its value with what that owns. -/
theorem ensures_removeArguments (h : Handle) (args : List Handle) {E : Store → Prop} :
    Ensures (Called F b s T h args) (removeArguments h args)
      (fun _ t => F.Inside h ∧ Held F b s T t ∧ t.isAlive h = true) E := by
  have hloop := Ensures.forM (E := E) (f := Engine.remove) (I := fun args t =>
    (F.Inside h ∧ ∀ a ∈ args, F.Inside a ∧ a ∉ T) ∧ Held F b s T t ∧ t.isAlive h = true ∧
      ∀ a ∈ args, ¬ t.Reaches a h) (fun a rest => ?_) args
  -- the arguments are below the node, so removing them never removes it
  · refine Ensures.bind (hloop.before fun t _ ht => ?_) fun _ => ?_
    · obtain ⟨hheld, hh, hargs⟩ := ht
      have hholds : ∀ a ∈ args, t.Holds h a := fun a ha =>
        holds_iff_childList.2 (Or.inl (hargs a ha))
      exact ⟨⟨hh.2, fun a ha => ⟨hheld.fenced.childList hh.2.1 (hargs a ha),
        hheld.since.not_mem_of_holds (hholds a ha)⟩⟩, hheld, hh.1,
        fun a ha => hheld.disciplined.not_reaches_holder (hholds a ha)⟩
    · exact ((ensures_give (F := F) (b := b) (s := s) (T := T) h h none).frame (F.Inside h)).weaken
        (fun t _ ht => ⟨ht.1.1, spare_of_held ht.2.1 (Or.inl rfl), ht.1.1.1, Below.refl ht.2.2.1⟩)
        (fun _ t _ ht => ⟨ht.1, ht.2.1, ht.2.2.1⟩) fun _ _ ht => ht.2
  · -- what is left after an argument has been freed leads nowhere new
    refine ensures_remove (F := F) (b := b) (s := s) (T := T)
      (fun _ ht => ⟨ht.2.1, (ht.1.2 a (by simp)).1⟩) fun {t} _ ht hheld => ?_
    obtain ⟨⟨hh, hargs⟩, hheld₀, halive, hback⟩ := ht
    have hleft := (hheld₀.disciplined.isAlive_remove a h).2 ⟨halive, hback a (by simp)⟩
    refine ⟨⟨hh, fun x hx => hargs x (List.mem_cons_of_mem _ hx)⟩, hheld.congr fun x => ?_, hleft,
      fun x hx hreach => hback x (List.mem_cons_of_mem _ hx)
        ((hheld₀.disciplined.thinned_remove a).reaches hreach hleft)⟩
    exact ⟨And.left, fun hx => ⟨hx, fun heq => (hargs a (by simp)).2 (heq ▸ hx)⟩⟩

-- ---------------------------------------------------------------------------
-- Results of a keyword
-- ---------------------------------------------------------------------------

/-- A live node inside a fence that gets children. -/
def Target (F : Fence) (b s : Store) (T : Set Handle) (h : Handle) (t : Store) : Prop :=
  F.Inside h ∧ Held F b s T t ∧ t.isAlive h = true

/-- A scalar is added below a node that is there. -/
theorem ensures_addScalar (h p : Handle) (name : String) {v : Option Value}
    (hv : v = none ∨ ∃ x, v = some (.scalar x)) {E : Store → Prop} :
    Ensures (fun t => Target F b s T h t ∧ F.Present t p) (Engine.add p name v)
      (fun c t => (Target F b s T h t ∧ F.Present t p) ∧ F.Present t c) E := by
  refine ((ensures_add (F := F) (b := b) (s := s) (T := T) p h name v).frame
    (F.Inside h ∧ F.Inside p)).weaken ?_ ?_ fun _ _ ht => ht.2
  · rintro t - ⟨⟨hh, hheld, halive⟩, hp⟩
    exact ⟨⟨hh, hp.2⟩, spare_of_held hheld hv, hp.2.1, hp.1, halive⟩
  · rintro c t - ⟨⟨hh, hinside⟩, hc, hheld, hp, halive⟩
    exact ⟨⟨⟨hh, hheld, halive⟩, hp, hinside⟩, hc⟩

end Keyword

end TreeScript
