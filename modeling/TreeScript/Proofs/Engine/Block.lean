import TreeScript.Engine.Block
import TreeScript.Proofs.Engine.Loop

/-!
# TreeScript — blocks keep a store in order

Both ways of executing a block. On a copy, what the block made is moved to the
destination with the value of the copy, and the copy is freed whatever happens; the
destination was there before the copy, so the copy does not lead to it.

* `Templates`, `ensures_cloneInFront`, `ensures_cloneBehind` — arguments;
* `ensures_stripReturn`, `ensures_clearSignal` — signals;
* `Delivers`, `ensures_deliver` — handing over;
* `settle`, `runCopy_eq` — a signal that is left at the end of a copy;
* `workOn`, `runCopy_eq_workOn` — all that is done before the handing over;
* `ensures_executeCopy`, `ensures_executeInPlace` — the two ways.
-/

namespace TreeScript

open Store Engine

variable {F : Fence} {b s : Store} {T : Set Handle} {scope : Scope}

-- ---------------------------------------------------------------------------
-- Arguments and signals of a block
-- ---------------------------------------------------------------------------

/-- Trees that are set aside as arguments, and may be copied. -/
def Templates (F : Fence) (b : Store) (T : Set Handle) (args : List Handle) : Prop :=
  ∀ a ∈ args, a ∈ T ∧ F.Copies b a

/-- Copying arguments in front keeps a store in order, and the arguments and the target stay alive.
-/
theorem ensures_cloneInFront (target : Handle) {args all : List Handle} (hargs : args ⊆ all)
    {E : Store → Prop} :
    Ensures (fun t => (F.Open target ∧ ∀ a ∈ all, F.Copies b a) ∧ Held F b s T t ∧
        t.isAlive target = true ∧ ∀ a ∈ all, t.isAlive a = true)
      (cloneInFront target args)
      (fun _ t => Held F b s T t ∧ t.isAlive target = true ∧ ∀ a ∈ all, t.isAlive a = true) E := by
  induction args with
  | nil => exact (Ensures.pure _).before fun _ _ ht => ht.2
  | cons arg rest ih =>
    obtain ⟨harg, hrest⟩ := List.cons_subset.1 hargs
    refine Ensures.seq (F.Open target ∧ ∀ a ∈ all, F.Copies b a) (ih hrest)
      (fun _ _ ht => ⟨ht.1, ht⟩) fun _ => ?_
    exact ensures_graftFirst (fun _ ht => ⟨ht.2.1, ht.2.2.1, ht.1.1⟩)
      (fun _ ht => ⟨ht.2.2.2 arg harg, ht.1.2 arg harg⟩)
      fun _ ht hheld hkeep => ⟨hheld, hkeep _ ht.2.2.1, fun a ha => hkeep a (ht.2.2.2 a ha)⟩

theorem ensures_cloneBehind (target : Handle) (args : List Handle) {E : Store → Prop} :
    Ensures (fun t => (F.Open target ∧ Templates F b T args) ∧ Held F b s T t ∧
        t.isAlive target = true)
      (cloneBehind target args) (fun _ t => Held F b s T t ∧ t.isAlive target = true) E := by
  induction args with
  | nil => exact (Ensures.pure _).before fun _ _ ht => ht.2
  | cons arg rest ih =>
    have hassoc : cloneBehind target (arg :: rest) =
        (Engine.deepClone arg >>= fun c => Engine.append target c) >>=
          fun _ => cloneBehind target rest := by
      rw [cloneBehind, bind_assoc]
    rw [hassoc]
    refine Ensures.bind ?_ fun _ => ih
    refine ensures_graftLast (fun _ ht => ⟨ht.2.1, ht.2.2, ht.1.1⟩) (fun _ ht => ?_)
      fun _ ht hheld hkeep => ⟨⟨ht.1.1, fun a ha => ht.1.2 a (List.mem_cons_of_mem _ ha)⟩,
        hheld, hkeep _ ht.2.2⟩
    obtain ⟨hmem, hcopies⟩ := ht.1.2 arg (by simp)
    exact ⟨ht.2.1.isAlive hmem, hcopies⟩

theorem ensures_stripReturn (h : Handle) {E : Store → Prop} :
    Ensures (fun t => F.Open h ∧ Held F b s T t) (Engine.edit fun t => t.stripReturn h)
      (fun _ => Held F b s T) E := by
  refine Ensures.edit (fun hf => .stripReturn hf) (fun hu ht hf => ?_) fun {t} _ ht hf => ?_
  · exact ⟨ht.2.since.stripReturn hf hu, ht.2.fenced.stripReturn ht.1 hf⟩
  · unfold Store.stripReturn at hf
    split at hf
    next => simp at hf
    next first hfirst =>
      have hends := ends_name (ht.2.live.of_mem_childList (List.mem_of_head? hfirst))
        (E := fun _ => False)
      cases hname : t.name first with
      | ok name => simp [hname, bind, Except.bind] at hf
      | error e => simp [hname, Ends] at hends

/-- Clearing a signal keeps a store in order: inside of a sealed fence the root is inside. -/
theorem ensures_clearSignal (hseal : F.Sealed) (h : Handle) {E : Store → Prop} :
    Ensures (fun t => F.Inside h ∧ Held F b s T t) (Engine.change fun t => t.clearSignal h)
      (fun _ => Held F b s T) E := by
  refine Ensures.change (fun hf => .clearSignal hf) (fun hu ht hf => ?_) fun {t} _ ht hf => ?_
  · exact ⟨ht.2.since.clearSignal hf hu, ht.2.fenced.clearSignal hseal.door ht.1 hf⟩
  · unfold Store.clearSignal at hf
    split at hf
    next => simp at hf
    next first hfirst =>
      obtain ⟨r, -, hchild⟩ := Option.bind_eq_some_iff.1 hfirst
      have hends := ends_name (ht.2.live.of_mem_childList (List.mem_of_head? hchild))
        (E := fun _ => False)
      cases hname : t.name first with
      | ok name => simp [hname, bind, Except.bind] at hf
      | error e => simp [hname, Ends] at hends

-- ---------------------------------------------------------------------------
-- Handing over
-- ---------------------------------------------------------------------------

/-- A working copy has come in since the base store, and its results go to a node of the
base store. -/
structure Delivers (F : Fence) (s : Store) (T : Set Handle) (copy destination : Handle) :
    Prop where
  top : copy ∈ T
  inside : F.Inside copy
  new : s.isAlive copy = false
  old : s.isAlive destination = true
  isOpen : F.Open destination

/-- The copy is not its destination, which was there before. -/
theorem Delivers.ne {copy destination : Handle} (hdel : Delivers F s T copy destination) :
    copy ≠ destination := by
  rintro rfl
  have hnew := hdel.new
  simp [hdel.old] at hnew

/-- A working copy does not lead to where its results go. -/
theorem Delivers.not_reaches {t : Store} {copy destination : Handle}
    (hdel : Delivers F s T copy destination) (ht : Held F b s T t)
    (halive : t.isAlive destination = true) : ¬ t.Reaches copy destination := by
  intro hreach
  have hback := ht.since.reaches_back hdel.old halive hreach
  have hnew := hdel.new
  simp [hback.isAlive hdel.old] at hnew

/-- Nothing that is held leads to a working copy. -/
theorem Delivers.not_reaches_copy {t : Store} {copy destination a c : Handle}
    (hdel : Delivers F s T copy destination) (ht : Held F b s T t) (hac : t.Holds a c) :
    ¬ t.Reaches c copy := (ht.since.top hdel.top).not_reaches hac

/-- What the destination holds leads neither back to it nor to the working copy. -/
theorem Delivers.far_of_holds {t : Store} {copy destination k : Handle}
    (hdel : Delivers F s T copy destination) (ht : Held F b s T t) (hk : t.Holds destination k)
    (y : Handle) (hy : t.Reaches k y) : ¬ (y = destination ∨ y = copy) := by
  rintro (rfl | rfl)
  · exact ht.disciplined.not_reaches_holder hk hy
  · exact hdel.not_reaches_copy ht hk hy

/-- What a working copy holds has come in too. -/
theorem Delivers.not_isAlive_of_holds {t : Store} {copy destination c : Handle}
    (hdel : Delivers F s T copy destination) (ht : Held F b s T t) (hc : t.Holds copy c)
    (halive : t.isAlive c = true) : s.isAlive c = false := by
  by_contra hs
  rw [Bool.not_eq_false] at hs
  have hnew := (ht.since.settled hs halive hc).isAlive
  simp [hdel.new] at hnew

/-- Moving what a copy made, and its value, to a destination that is there. -/
def handOver (copy destination : Handle) (known : List Handle) : Engine Unit := do
  let below ← (← Engine.nodes).children copy
  (below.filter fun c => !known.contains c).forM (Engine.append destination)
  let v ← Engine.takeValue copy
  Engine.setValue destination v

/-- Delivering clears the destination if it is the first time, hands over, and does nothing if the
destination is gone. -/
theorem deliver_eq (copy destination : Handle) (known : List Handle) (first : Bool) :
    deliver copy destination known first = Engine.isAlive destination >>= fun alive =>
      if alive = true then
        if first = true then
          Engine.clear destination >>= fun _ => handOver copy destination known
        else handOver copy destination known
      else pure () := rfl

/-- What a node holds is new since the base store, apart from some that it held before. -/
def Renewed (s : Store) (K : Handle → Prop) (h : Handle) (t : Store) : Prop :=
  ∀ c, t.Holds h c → t.isAlive c = true → K c ∨ s.isAlive c = false

/-- A move changes the parent of the moved node only. -/
theorem Linked.parent?_moveBelow {t t' : Store} (hl : Linked t) {p c : Handle} {i : Nat}
    (hne : p ≠ c) (hok : t.moveBelow p i c = .ok t') {x : Handle} (hx : x ≠ c) :
    t'.parent? x = t.parent? x := by
  obtain ⟨-, -, j, -, rfl⟩ := moveBelow_eq_ok hok
  unfold Store.parent?
  rw [node?_link hne, hl.node?_detach]
  cases t.node? x with
  | none => rfl
  | some n => simp [hx]

/-- A node that is moved below another is the only child that comes to it. -/
theorem Linked.mem_childList_moveBelow {t t' : Store} (hl : Linked t) {p c : Handle} {i : Nat}
    (hne : p ≠ c) (hok : t.moveBelow p i c = .ok t') {x : Handle} (hx : x ∈ t'.childList p) :
    x ∈ t.childList p ∨ x = c := by
  obtain ⟨-, -, j, -, rfl⟩ := moveBelow_eq_ok hok
  unfold Store.childList at hx ⊢
  rw [node?_link hne, hl.node?_detach] at hx
  cases hn : t.node? p with
  | none => simp [hn] at hx
  | some n =>
    simp only [hn, Option.map_some, if_true] at hx
    rcases List.eq_or_mem_of_mem_insertIdx (by simpa using hx) with rfl | hx
    · exact Or.inr rfl
    · refine Or.inl ?_
      split at hx
      · exact List.mem_of_mem_filter hx
      · exact hx

/-- What is known while results are moved: the destination is there, and the children that
it gets are new. -/
structure Moving (F : Fence) (b s : Store) (T : Set Handle) (K : Handle → Prop)
    (destination : Handle) (t : Store) : Prop where
  held : Held F b s T t
  alive : t.isAlive destination = true
  renewed : ∀ c ∈ t.childList destination, K c ∨ s.isAlive c = false

variable {K : Handle → Prop}

/-- The results of a copy are moved one by one. -/
theorem ensures_appendResults (copy destination : Handle) (cs : List Handle) {E : Store → Prop} :
    Ensures (fun t => (Delivers F s T copy destination ∧ cs.Nodup) ∧
        Moving F b s T K destination t ∧ ∀ c ∈ cs, t.ChildOf c copy)
      (cs.forM (Engine.append destination)) (fun _ => Moving F b s T K destination) E := by
  refine (Ensures.forM (I := fun cs t => (Delivers F s T copy destination ∧ cs.Nodup) ∧
    Moving F b s T K destination t ∧ ∀ c ∈ cs, t.ChildOf c copy)
    (fun c rest => ?_) cs).weaken (fun _ _ h => h) (fun _ _ _ ht => ht.2.1) fun _ _ h => h
  -- a child of the copy leads to nobody whom the copy does not lead to
  have hready : ∀ {t : Store}, (Delivers F s T copy destination ∧ (c :: rest).Nodup) ∧
      Moving F b s T K destination t ∧ (∀ x ∈ c :: rest, t.ChildOf x copy) →
      t.Holds copy c ∧ t.isAlive c = true ∧ ¬ t.Reaches c destination := by
    rintro t ⟨⟨hdel, -⟩, ⟨ht, halive, -⟩, hchildren⟩
    have hchild := hchildren c (by simp)
    have hholds := holds_of_childOf ht.disciplined.linked hchild
    obtain ⟨m, hm, -⟩ := childOf_iff.1 hchild
    exact ⟨hholds, isAlive_iff.2 ⟨m, hm⟩,
      fun hreach => hdel.not_reaches ht halive (.head hholds hreach)⟩
  refine ensures_append (fun _ ht => ?_) fun {t t'} hu ht hok => ?_
  · obtain ⟨-, hc, hback⟩ := hready ht
    exact ⟨ht.2.1.held.disciplined, ht.2.1.alive, hc, hback⟩
  · obtain ⟨hholds, hc, hback⟩ := hready ht
    obtain ⟨⟨hdel, hnodup⟩, ⟨hheld, halive, hrenewed⟩, hchildren⟩ := ht
    obtain ⟨hnot, hnodup⟩ := List.nodup_cons.1 hnodup
    have hmoved : Held F b s (T \ {c}) t' := by
      refine hheld.moveBelow hok hdel.isOpen ?_ (Or.inr ⟨copy, hchildren c (by simp)⟩) hback ?_ hu
      · obtain ⟨n, hn, hheldBy⟩ := hholds
        rcases hheldBy with hmem | hown
        · exact (hheld.fenced.nodes hdel.inside.1 hn).children c hmem
        · exact (hheld.fenced.nodes hdel.inside.1 hn).owned hown
      · simp [hdel.not_isAlive_of_holds hheld hholds hc]
    have hne : destination ≠ c := fun heq => hback (heq ▸ .refl _ _)
    refine ⟨⟨hdel, hnodup⟩, ⟨hmoved.congr fun x => ?_, ?_, fun x hx => ?_⟩, fun x hx => ?_⟩
    · have hcT := hheld.since.not_mem_of_holds hholds
      exact ⟨And.left, fun hx => ⟨hx, fun heq => hcT (heq ▸ hx)⟩⟩
    · rw [isAlive_moveBelow hok]
      exact halive
    · rcases Linked.mem_childList_moveBelow hheld.disciplined.linked hne hok hx with hx | rfl
      · exact hrenewed x hx
      · exact Or.inr (hdel.not_isAlive_of_holds hheld hholds hc)
    · have hxc : x ≠ c := fun heq => hnot (heq ▸ hx)
      unfold Store.ChildOf
      rw [Linked.parent?_moveBelow hheld.disciplined.linked hne hok hxc]
      exact hchildren x (List.mem_cons_of_mem _ hx)

/-- The value that a working copy had may be given to where its results go, with the node that
it owns. -/
theorem Delivers.givable {t t' : Store} {copy destination : Handle} {v : Option Value}
    (hdel : Delivers F s T copy destination) (ht : Held F b s T t)
    (halive : t.isAlive destination = true) (htake : t.takeValue copy = .ok (v, t'))
    (hu : Unwrapped t') :
    Held F b s (T ∪ { c | v.bind Value.owned? = some c ∧ t.isAlive c = true }) t' ∧
      Givable s (T ∪ { c | v.bind Value.owned? = some c ∧ t.isAlive c = true }) t' destination v ∧
      ∀ x, v = some x → F.Admits x := by
  obtain ⟨hfenced, hadm⟩ := ht.fenced.takeValue hdel.inside.1 htake
  obtain ⟨n, hn, rfl, rfl⟩ := takeValue_eq_ok htake
  -- what the value owns is what the copy owned
  have hown : ∀ {c}, t.Owns copy c ↔ n.value.bind Value.owned? = some c := by
    intro c
    simp [Owns, hn, Node.owned?]
  refine ⟨⟨(ht.since.letGo copy hu).congr fun x => ?_, hfenced⟩, fun c hc => ?_, hadm⟩
  · simp [hown]
  · have hholds := Owns.holds (hown.2 hc)
    cases hdead : t.isAlive c with
    -- the tree is let go, so it is on top now; it does not lead to the destination
    | true =>
      refine Or.inl ⟨Or.inr ⟨hc, hdead⟩, fun hreach => ?_, ?_⟩
      · refine hdel.not_reaches ht halive (.head hholds (hreach.mono fun x y hxy => ?_))
        rw [holds_modify_value] at hxy
        split at hxy
        next heq => exact heq ▸ holds_iff_childList.2 (Or.inl (by simpa using hxy))
        next => exact hxy
      · simp [hdel.not_isAlive_of_holds ht hholds hdead]
    -- a stale handle owns nothing that is alive
    | false =>
      exact Or.inr ⟨by rwa [isAlive_modify],
        by rw [issued_modify]; exact ht.disciplined.issued (hown.2 hc)⟩

/-- The value of a copy goes to the destination, with the node that it owns. -/
theorem ensures_moveValue (copy destination : Handle) {E : Store → Prop} :
    Ensures (fun t => Delivers F s T copy destination ∧ Moving F b s T K destination t)
      (Engine.takeValue copy >>= fun v => Engine.setValue destination v)
      (fun _ t => Held F b s T t ∧ Renewed s K destination t) E := by
  refine Ensures.bind (Q := fun v t' => Delivers F s T copy destination ∧ ∃ t,
    Moving F b s T K destination t ∧ t.takeValue copy = .ok (v, t'))
    (Ensures.change (fun hf => ?_) (fun _ ht hf => ⟨ht.1, _, ht.2, hf⟩)
      fun {t} _ ht hf => ?_) fun v => ?_
  · obtain ⟨-, -, -, rfl⟩ := takeValue_eq_ok hf
    exact .modify _ _ _
  · obtain ⟨n, hn⟩ := isAlive_iff.1 (ht.2.held.isAlive ht.1.top)
    simp [Store.takeValue, Store.node, hn, bind, Except.bind] at hf
  -- the value is now in nobody's hands, and the tree that it owns is on top
  · refine Ensures.start fun m => ?_
    refine ensures_setValue (F := F) (b := b) (s := s)
      (T := T ∪ { c | v.bind Value.owned? = some c ∧ m.isAlive c = true }) ?_ ?_
    · rintro t hu ⟨rfl, hdel, t₀, ⟨ht₀, halive, -⟩, htake⟩
      obtain ⟨hheld, hgive, hadm⟩ := hdel.givable ht₀ halive htake hu
      obtain ⟨n, hn, rfl, rfl⟩ := takeValue_eq_ok htake
      simp only [isAlive_modify]
      exact ⟨hheld, halive, hdel.isOpen, hgive, hadm⟩
    -- after that the destination owns the tree, so it is not on top any more
    · rintro t hu ⟨rfl, hdel, t₀, ⟨ht₀, -, hrenewed⟩, htake⟩ hheld - hholds
      obtain ⟨n, hn, rfl, rfl⟩ := takeValue_eq_ok htake
      have hown : ∀ {c}, n.value.bind Value.owned? = some c → t₀.Holds copy c := fun hc =>
        Owns.holds (owns_iff.2 ⟨n, hn, hc⟩)
      refine ⟨hheld.congr fun x => ?_, fun c hc halive => ?_⟩
      · simp only [Set.mem_sdiff, Set.mem_union, Set.mem_ofPred_eq]
        constructor
        · rintro ⟨hx | hx, hnot⟩
          · exact hx
          · exact absurd hx.1 hnot
        · exact fun hx => ⟨Or.inl hx, fun howned => ht₀.since.not_mem_of_holds (hown howned) hx⟩
      · obtain ⟨hlives, hmem | howned⟩ := hholds c hc halive
        · rw [childList_modify_value] at hmem
          exact hrenewed c hmem
        · rw [isAlive_modify] at hlives
          exact Or.inr (hdel.not_isAlive_of_holds ht₀ (hown howned) hlives)

theorem ensures_handOver (copy destination : Handle) (known : List Handle) {E : Store → Prop} :
    Ensures (fun t => Delivers F s T copy destination ∧ Moving F b s T K destination t)
      (handOver copy destination known)
      (fun _ t => Held F b s T t ∧ Renewed s K destination t) E := by
  refine Ensures.bind_nodes fun m => ?_
  refine Ensures.bind_liftFault (R := fun _ _ => True) ?_ fun below hbelow => ?_
  · rintro t - ⟨rfl, hdel, ht, -⟩
    exact (ends_children ht.live (ht.isAlive hdel.top)).mono (fun _ _ => trivial) fun _ he => he
  · obtain ⟨n, hn, rfl⟩ := children_eq_ok.1 hbelow
    refine Ensures.seq (Delivers F s T copy destination)
      (ensures_appendResults (F := F) (b := b) (s := s) (T := T) (K := K) copy destination
        (n.children.filter fun c => !known.contains c)) ?_
      fun _ => ensures_moveValue copy destination
    rintro t - ⟨⟨rfl, hdel, hmoving⟩, -⟩
    have hd := hmoving.held.disciplined
    refine ⟨hdel, ⟨hdel, (hd.linked.nodup hn).filter _⟩, hmoving, fun c hc => ?_⟩
    exact hd.childOf_of_mem (by rw [childList_eq hn]; exact List.mem_of_mem_filter hc)

/-- What a copy made is handed over if the destination is still there. Of the children that
it had, none is left if it is cleared first. -/
theorem ensures_deliver (copy destination : Handle) (known : List Handle) (first : Bool)
    {E : Store → Prop} :
    Ensures (fun t => Delivers F s T copy destination ∧ Held F b s T t ∧
        ∀ c ∈ t.childList destination, K c)
      (deliver copy destination known first)
      (fun _ t => Held F b s T t ∧ Renewed s (fun c => first = false ∧ K c) destination t) E := by
  rw [deliver_eq]
  have hover := ensures_handOver (F := F) (b := b) (s := s) (T := T)
    (K := fun c => first = false ∧ K c) copy destination known (E := E)
  refine Ensures.bind_isAlive (Ensures.ite (fun _ => Ensures.ite (fun hfirst => ?_) fun hfirst => ?_)
    (by simp)) (Ensures.ite (by simp) fun _ => (Ensures.pure _).before fun t _ ht => ?_)
  -- the first delivery empties the destination, so nothing there is older
  · refine Ensures.bind ?_ fun _ => hover
    refine ensures_clear (fun _ ht => ⟨ht.1.2.1, ht.2, ht.1.1.isOpen⟩) fun _ ht hok hheld => ?_
    refine ⟨ht.1.1, hheld, ht.1.2.1.disciplined.isAlive_clear_self hok, fun c hc => ?_⟩
    rw [ht.1.2.1.disciplined.childList_clear_self hok] at hc
    simp at hc
  -- a later one keeps what earlier ones have delivered
  · rw [Bool.not_eq_true] at hfirst
    exact hover.before fun _ _ ht =>
      ⟨ht.1.1, ht.1.2.1, ht.2, fun c hc => Or.inl ⟨hfirst, ht.1.2.2 c hc⟩⟩
  -- a destination that is gone is given nothing
  · refine ⟨ht.1.2.1, fun c hc _ => ?_⟩
    have := hc.isAlive
    simp [ht.2] at this

-- ---------------------------------------------------------------------------
-- Blocks
-- ---------------------------------------------------------------------------

/-- What is done about signals when the loop on a working copy has ended. -/
def settle (copy : Handle) (c : Control) : Engine Unit := do
  Engine.edit fun s => s.stripReturn copy
  if c ≠ .none ∧ c ≠ .return then
    let _ ← Engine.change fun s => s.clearSignal copy

/-- A working copy gets the arguments, is executed, and has its signal settled; then it is
delivered. -/
theorem runCopy_eq (scope : Scope) (copy destination : Handle) (args : List Handle) (first : Bool) :
    runCopy scope copy destination args first = (do
      cloneInFront copy args
      let known ← (← Engine.nodes).children copy
      let c ← executeAll scope copy
      settle copy c
      deliver copy destination known first) := by
  unfold runCopy settle
  simp only [bind_assoc]
  congr 1
  funext _
  congr 1
  funext s
  congr 1
  funext known
  congr 1
  funext c
  congr 1
  funext _
  split
  next => rw [bind_assoc]; rfl
  next => rfl

theorem ensures_settle (hseal : F.Sealed) (h : Handle) (c : Control) {E : Store → Prop} :
    Ensures (fun t => F.Inside h ∧ Held F b s T t) (settle h c) (fun _ => Held F b s T) E := by
  refine Ensures.seq (F.Inside h) (ensures_stripReturn h) (fun t _ ht => ⟨ht.1, ht.1.1, ht.2⟩)
    fun _ => Ensures.ite (fun _ => ?_) fun _ => (Ensures.pure _).before fun _ _ ht => ht.2
  exact Ensures.bind (ensures_clearSignal hseal h) fun _ => Ensures.skip ()

/-- Executing a working copy up to the handing over. It gives the children that the copy had
when its loop began. -/
def workOn (scope : Scope) (copy : Handle) (args : List Handle) : Engine (List Handle) := do
  cloneInFront copy args
  let known ← (← Engine.nodes).children copy
  let c ← executeAll scope copy
  settle copy c
  return known

/-- A working copy is executed and then delivered. -/
theorem runCopy_eq_workOn (scope : Scope) (copy destination : Handle) (args : List Handle)
    (first : Bool) : runCopy scope copy destination args first =
      workOn scope copy args >>= fun known => deliver copy destination known first := by
  rw [runCopy_eq, workOn]
  simp only [bind_assoc, pure_bind]

theorem ensures_workOn (hseal : F.Sealed) (hscope : scope.Keeps F b) (copy : Handle)
    (args : List Handle) :
    Ensures (fun t => (F.Inside copy ∧ ∀ a ∈ args, F.Copies b a) ∧ Held F b s T t ∧
        t.isAlive copy = true ∧ ∀ a ∈ args, t.isAlive a = true)
      (workOn scope copy args) (fun _ => Held F b s T) (Held F b s T) := by
  refine Ensures.seq (F.Inside copy)
    (ensures_cloneInFront (F := F) (b := b) (s := s) (T := T) copy (List.Subset.refl args))
    (fun t _ ht => ⟨ht.1.1, ⟨ht.1.1.1, ht.1.2⟩, ht.2⟩) fun _ => ?_
  refine Ensures.bind_nodes fun m => ?_
  refine Ensures.bind_liftFault (R := fun _ _ => True) ?_ fun known _ => ?_
  · rintro t - ⟨rfl, -, ht, halive, -⟩
    exact (ends_children ht.live halive).mono (fun _ _ => trivial) fun _ he => he
  refine Ensures.seq (F.Inside copy) (ensures_executeAll (s := s) (T := T) hscope copy)
    (fun t _ ht => ⟨ht.1.2.1, ht.1.2.2.1, ht.1.2.2.2.1, ht.1.2.1⟩) fun c => ?_
  exact (ensures_settle hseal copy c).bind fun _ => Ensures.skip known

/-- A copy is executed inside a sealed fence, which may be set up within the one that the
results are handed over across. Before that nothing is done outside of the inner fence. -/
theorem ensures_runCopy {G : Fence} {m : Store} (hseal : G.Sealed) (hscope : scope.Keeps G m)
    (hwiden : ∀ {t}, Fenced G m t → Fenced F b t)
    {copy destination : Handle}
    (hK : ∀ {t}, Fenced G m t → ∀ c ∈ t.childList destination, K c) (args : List Handle)
    (first : Bool) :
    Ensures (fun t => (Delivers F s T copy destination ∧ G.Inside copy ∧ Templates G m T args) ∧
        Held G m s T t)
      (runCopy scope copy destination args first)
      (fun _ t => Held F b s T t ∧ Renewed s (fun c => first = false ∧ K c) destination t)
      (Held G m s T) := by
  rw [runCopy_eq_workOn]
  refine Ensures.seq (Delivers F s T copy destination)
    (ensures_workOn (s := s) (T := T) hseal hscope copy args)
    (fun t _ ht => ⟨ht.1.1, ⟨ht.1.2.1, fun a ha => (ht.1.2.2 a ha).2⟩, ht.2,
      ht.2.isAlive ht.1.1.top, fun a ha => ht.2.isAlive (ht.1.2.2 a ha).1⟩) fun known => ?_
  exact (ensures_deliver (F := F) (b := b) (s := s) (T := T) (K := K) copy destination known
    first).before fun t _ ht => ⟨ht.1, ⟨ht.2.since, hwiden ht.2.fenced⟩, hK ht.2.fenced⟩

/-- A removal adds nothing to what a node holds. -/
theorem Renewed.remove {s t : Store} (hd : Disciplined t) {h c : Handle} (ht : Renewed s K h t) :
    Renewed s K h (t.remove c) := by
  intro x hx halive
  have hthin := hd.thinned_remove c
  exact ht x (hthin.holds hx halive) (hthin.alive halive)

/-- A block is executed on a copy, which is freed whatever happens. -/
theorem ensures_executeCopyWithin {G : Fence} {m u : Store} (hseal : G.Sealed)
    (hscope : scope.Keeps G m) (hwiden : ∀ {t}, Fenced G m t → Fenced F b t)
    (hin : ∀ {x}, G.Inside x → F.Inside x) (block destination : Handle)
    (hK : ∀ {t}, Fenced G m t → ∀ c ∈ t.childList destination, K c) (args : List Handle)
    (first : Bool) :
    Ensures (fun t => t = u ∧ (G.Copies m block ∧ F.Open destination ∧ Templates G m T args) ∧
        Held G m u T t ∧ t.isAlive block = true ∧ t.isAlive destination = true)
      (executeCopy scope block destination args first)
      (fun _ t => Held F b u T t ∧ Renewed u (fun c => first = false ∧ K c) destination t)
      (Held G m u T) := by
  -- the copy is new and on top, hence no other tree set aside
  refine Ensures.bind (Q := fun copy t => (copy ∉ T ∧ Delivers F u (T ∪ {copy}) copy destination ∧
      G.Inside copy ∧ Templates G m (T ∪ {copy}) args) ∧ Held G m u (T ∪ {copy}) t)
    (ensures_deepClone (F := G) (b := m) (s := u) (T := T) ?_ ?_) fun copy => ?_
  · rintro t - ⟨-, hpure, ht, hblock, -⟩
    exact ⟨ht, hblock, hpure.1⟩
  · rintro t copy t' hu ⟨rfl, ⟨-, hopen, hargs⟩, ht, -, hdest⟩ hsprout hheld hinside
    exact ⟨⟨ht.since.not_mem_of_sprouted hsprout,
      ⟨Or.inr rfl, hin hinside, hsprout.fresh_root.1, hdest, hopen⟩, hinside,
      fun a ha => ⟨Or.inl (hargs a ha).1, (hargs a ha).2⟩⟩, hheld⟩
  · -- the copy is freed in either case
    refine Ensures.always (((ensures_runCopy hseal hscope hwiden hK args first).frame
      (copy ∉ T ∧ G.Inside copy)).before fun t _ ht =>
        ⟨⟨ht.1.1, ht.1.2.2.1⟩, ht.1.2, ht.2⟩) (fun _ => ?_) ?_
    · exact ensures_remove (fun _ ht => ⟨ht.2.1, hin ht.1.2⟩) fun _ ht hheld =>
        ⟨hheld.forget ht.1.1, ht.2.2.remove ht.2.1.disciplined⟩
    · exact ensures_remove (fun _ ht => ⟨ht.2, ht.1.2⟩) fun _ ht hheld => hheld.forget ht.1.1

/-- Executing a block on a copy keeps a store in order, and the copy is freed on every exit. -/
theorem ensures_executeCopy (hseal : F.Sealed) (hscope : scope.Keeps F b)
    (block destination : Handle) (args : List Handle) (first : Bool) :
    Ensures (fun t => Templates F b T args ∧ Held F b s T t ∧ F.Present t block ∧
        F.Present t destination)
      (executeCopy scope block destination args first) (fun _ => Held F b s T)
      (Held F b s T) := by
  refine Ensures.start fun m => ?_
  refine ((ensures_executeCopyWithin (F := F) (b := b) (u := m) (T := T) (K := fun _ => True)
    hseal hscope id id block destination (fun _ _ _ => trivial) args first).frame
      (Held F b s T m)).weaken ?_
    (fun _ _ hu ht => ht.1.trans ht.2.1 hu) fun _ hu ht => ht.1.trans ht.2 hu
  rintro t - ⟨rfl, hargs, ht, hblock, hdest⟩
  exact ⟨ht, rfl, ⟨Or.inl hblock.2.1, hdest.2.1, hargs⟩, ht.rebase, hblock.1, hdest.1⟩

theorem ensures_executeInPlace (hscope : scope.Keeps F b) (block : Handle) (args : List Handle) :
    Ensures (fun t => Templates F b T args ∧ Held F b s T t ∧ F.Present t block)
      (executeInPlace scope block args) (fun _ => Held F b s T) (Held F b s T) := by
  refine Ensures.seq (F.Inside block)
    (ensures_cloneBehind (F := F) (b := b) (s := s) (T := T) block args)
    (fun t _ ht => ⟨ht.2.2.2, ⟨ht.2.2.2.1, ht.1⟩, ht.2.1, ht.2.2.1⟩) fun _ => ?_
  refine Ensures.seq (F.Inside block) (ensures_executeAll (s := s) (T := T) hscope block)
    (fun t _ ht => ⟨ht.1, ht.2.1, ht.2.2, ht.1⟩) fun c => ?_
  exact Ensures.bind ((ensures_stripReturn block).before fun t _ ht => ⟨ht.1.1, ht.2⟩)
    fun _ => Ensures.skip c

theorem ensures_executeBlock (hseal : F.Sealed) (hscope : scope.Keeps F b) (mode : BlockMode)
    (block destination : Handle) (args : List Handle) (first : Bool) :
    Ensures (fun t => Templates F b T args ∧ Held F b s T t ∧ F.Present t block ∧
        F.Present t destination)
      (executeBlock mode scope block destination args first) (fun _ => Held F b s T)
      (Held F b s T) := by
  cases mode with
  | copy => exact ensures_executeCopy hseal hscope block destination args first
  | inPlace =>
    exact Ensures.bind ((ensures_executeInPlace hscope block args).before
      fun t _ ht => ⟨ht.1, ht.2.1, ht.2.2.1⟩) fun _ => Ensures.skip ()

end TreeScript
