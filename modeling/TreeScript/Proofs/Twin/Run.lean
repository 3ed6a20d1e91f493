import TreeScript.Proofs.Twin.Steps

/-!
# TreeScript — the same execution on both sides

Two scopes come to the same if their dispatching does, at nodes that stand for each other. Then
so do the statement loop, both ways of executing a block, and executing a node. How much either
scope may dispatch does not matter, as far as both come to an end.

* `Scope.Alike` — what is asked of scopes;
* `agree_executeOne`, `agree_loop`, `agree_executeAll` — statement loops;
* `agree_executeCopy`, `agree_executeInPlace` — blocks;
* `agree_toSource`, `agree_runSources`, `agree_execute` — nodes.
-/

namespace TreeScript

open Store Engine Paired

-- ---------------------------------------------------------------------------
-- Statement loops
-- ---------------------------------------------------------------------------

/-- Two scopes whose dispatching comes to the same. -/
structure Scope.Alike (scope scope' : Scope) : Prop where
  settings : scope.settings = scope'.settings
  agree {ρ : Pairing} {a b : Handle} (hab : ρ a b) (name : String) :
    Agree ρ (scope.dispatch name a) (scope'.dispatch name b)

section

variable {ρ : Pairing} {scope scope' : Scope} [scope.Steady] [scope'.Steady]
  {a b a' b' : Handle} {m k : Option Handle}

omit [scope.Steady] [scope'.Steady] in
/-- One node is executed on both sides, from positions that stand for each other. -/
theorem agree_executeOne (hscope : scope.Alike scope') (hab : ρ a b) (hmk : Matches ρ m k) :
    Agree ρ (executeOne scope m a) (executeOne scope' k b) := by
  refine Agree.oneToOne fun hone => ?_
  unfold executeOne
  have hmarker : some a ≠ m ↔ some b ≠ k := not_congr (hone.option_eq_iff (.some hab) hmk)
  simp only [hmarker]
  refine Agree.ite (fun _ => ?_) fun _ => .done
  refine Agree.bind_nodes fun s t hst => Agree.bind_liftFault (hst.name hab) fun name name' hname => ?_
  obtain rfl := Plain.eq hname
  exact Agree.ite (fun _ => hscope.agree hab name) fun _ => .done

/-- The loop over the children, as far as neither side runs out of rounds. -/
theorem agree_loop (hscope : scope.Alike scope') (hab : ρ a b) (hmk : Matches ρ m k) {n n' : Nat}
    {x y : Option Handle} (hxy : Matches ρ x y) :
    Agree ρ (loop scope a m n x) (loop scope' b k n' y) := by
  induction n generalizing n' x y ρ with
  | zero =>
    cases hxy with
    | none => cases n' <;> exact .pure (Plain.refl _)
    | some hxy =>
      unfold loop
      exact .throw_left _
  | succ n ih =>
    cases hxy with
    | none => cases n' <;> exact .pure (Plain.refl _)
    | @some x y hxy =>
      cases n' with
      | zero => exact .throw_right _
      | succ n' =>
        rw [loop, loop]
        refine Agree.bind_nodes fun s t hst => ?_
        -- the neighbours are read before the statement runs
        have haround := hst.surroundings hxy
        refine (agree_executeOne hscope hxy hmk).seq fun ρ₁ hle => ?_
        refine Agree.bind_nodes fun s₁ t₁ hst₁ => ?_
        refine Agree.bind_liftFault (hst₁.pending hst₁.left.linked hst₁.right.linked (hle _ _ hab))
          fun c d hcd => ?_
        obtain rfl := Plain.eq hcd
        refine Agree.ite (fun _ => .pure (Plain.refl _)) fun _ => ?_
        -- and the next statement is found from them in the stores that it leaves
        exact ih (hle _ _ hab) (mono hle hmk) (hst₁.advance (mono hle haround) (hle _ _ hxy))

theorem agree_executeAll (hscope : scope.Alike scope') (hab : ρ a b) :
    Agree ρ (executeAll scope a) (executeAll scope' b) := by
  unfold executeAll
  refine Agree.bind_nodes fun s t hst => ?_
  refine Agree.bind_liftFault (hst.childNamed? hab markerName) fun m k hmk => ?_
  rw [hscope.settings]
  refine Agree.bind_lift (hst.startPosition hst.left.linked hst.right.linked _ hab hmk)
    fun start start' hstart => ?_
  obtain rfl := Plain.eq hstart
  cases start with
  | none => exact .pure (Plain.refl _)
  | some i => exact agree_loop hscope hab hmk (hst.child? hab i)

-- ---------------------------------------------------------------------------
-- Blocks
-- ---------------------------------------------------------------------------

variable {xs ys : List Handle} {first : Bool}

omit [scope.Steady] [scope'.Steady] in
theorem agree_cloneInFront (hab : ρ a b) (hxs : Matches ρ xs ys) :
    Agree ρ (cloneInFront a xs) (cloneInFront b ys) := by
  induction hxs with
  | nil => exact .done
  | cons hxy _ ih =>
    refine ih.seq fun ρ₁ hle => ?_
    refine (agree_deepClone (hle _ _ hxy)).bind fun ρ₂ hle' c d hcd => ?_
    exact agree_insert (hle' _ _ (hle _ _ hab)) 0 hcd

omit [scope.Steady] [scope'.Steady] in
theorem agree_cloneBehind (hab : ρ a b) (hxs : Matches ρ xs ys) :
    Agree ρ (cloneBehind a xs) (cloneBehind b ys) := by
  induction xs generalizing ys ρ with
  | nil =>
    cases hxs
    exact .done
  | cons x xs ih =>
    cases hxs with
    | cons hxy hrest =>
      refine (agree_deepClone hxy).bind fun ρ₁ hle c d hcd => ?_
      refine (agree_append (hle _ _ hab) hcd).seq fun ρ₂ hle' => ?_
      exact ih (hle' _ _ (hle _ _ hab)) (mono (hle.trans hle') hrest)

omit [scope.Steady] [scope'.Steady] in
theorem agree_handOver (hab : ρ a b) (hab' : ρ a' b') (hknown : Matches ρ xs ys) :
    Agree ρ (handOver a a' xs) (handOver b b' ys) := by
  refine Agree.oneToOne fun hone => ?_
  unfold handOver
  refine Agree.bind_nodes fun s t hst => ?_
  refine Agree.bind_liftFault (hst.children hab) fun below below' hbelow => ?_
  have hnew := hone.filter_not_mem hbelow hknown
  refine (Agree.forM hnew fun ρ₁ hle c d hcd => agree_append (hle _ _ hab') hcd).seq
    fun ρ₁ hle => ?_
  refine (agree_takeValue (hle _ _ hab)).bind fun ρ₂ hle' v w hvw => ?_
  exact agree_setValue (hle' _ _ (hle _ _ hab')) hvw

omit [scope.Steady] [scope'.Steady] in
/-- The results are delivered on both sides, or both destinations are gone. -/
theorem agree_deliver (hab : ρ a b) (hab' : ρ a' b') (hknown : Matches ρ xs ys) :
    Agree ρ (deliver a a' xs first) (deliver b b' ys first) := by
  rw [deliver_eq, deliver_eq]
  refine Agree.bind_isAlive hab' fun alive => Agree.ite (fun _ => ?_) fun _ => .done
  refine Agree.ite (fun _ => ?_) fun _ => agree_handOver hab hab' hknown
  exact (agree_clear hab').seq fun ρ₁ hle =>
    agree_handOver (hle _ _ hab) (hle _ _ hab') (mono hle hknown)

omit [scope.Steady] [scope'.Steady] in
/-- A signal that is left over is settled in the same way. -/
theorem agree_settle (hab : ρ a b) (c : Control) : Agree ρ (settle a c) (settle b c) := by
  unfold settle
  refine (agree_stripReturn hab).seq fun ρ₁ hle => Agree.ite (fun _ => ?_) fun _ => .done
  exact (agree_clearSignal (hle _ _ hab)).seq fun _ _ => .done

/-- A working copy is executed alike if its arguments are copied alike. -/
theorem agreeAt_workOn (hscope : scope.Alike scope') (hab : ρ a b) {σ τ : Session}
    (hfront : AgreeAt ρ σ τ (cloneInFront a xs) (cloneInFront b ys)) :
    AgreeAt ρ σ τ (workOn scope a xs) (workOn scope' b ys) := by
  unfold workOn
  refine hfront.bind inferInstance inferInstance fun ρ₁ hle₁ _ _ σ₁ τ₁ _ _ _ _ _ => ?_
  refine (Agree.bind_nodes fun s t hst => ?_ : Agree ρ₁ _ _) σ₁ τ₁
  refine Agree.bind_liftFault (hst.children (hle₁ _ _ hab)) fun known known' hknown => ?_
  refine (agree_executeAll hscope (hle₁ _ _ hab)).bind fun ρ₂ hle₂ e f hef => ?_
  obtain rfl := Plain.eq hef
  refine (agree_settle (hle₂ _ _ (hle₁ _ _ hab)) e).seq fun ρ₃ hle₃ => ?_
  exact .pure (mono (hle₂.trans hle₃) hknown)

theorem agree_executeCopy (hscope : scope.Alike scope') (hab : ρ a b) (hab' : ρ a' b')
    (hxs : Matches ρ xs ys) :
    Agree ρ (executeCopy scope a a' xs first) (executeCopy scope' b b' ys first) := by
  refine (agree_deepClone hab).bind fun ρ₀ hle₀ c d hcd => ?_
  refine Agree.always ?_ fun ρ' hle => agree_remove (hle _ _ hcd)
  rw [runCopy_eq_workOn, runCopy_eq_workOn]
  have hwork : Agree ρ₀ (workOn scope c xs) (workOn scope' d ys) := fun σ τ =>
    agreeAt_workOn hscope hcd (agree_cloneInFront hcd (mono hle₀ hxs) σ τ)
  exact hwork.bind fun ρ₁ hle₁ known known' hknown =>
    agree_deliver (hle₁ _ _ hcd) ((hle₀.trans hle₁) _ _ hab') hknown

theorem agree_executeInPlace (hscope : scope.Alike scope') (hab : ρ a b) (hxs : Matches ρ xs ys) :
    Agree ρ (executeInPlace scope a xs) (executeInPlace scope' b ys) := by
  refine (agree_cloneBehind hab hxs).seq fun ρ₁ hle₁ => ?_
  refine (agree_executeAll hscope (hle₁ _ _ hab)).bind fun ρ₂ hle₂ c d hcd => ?_
  exact (agree_stripReturn (hle₂ _ _ (hle₁ _ _ hab))).seq fun _ _ => .pure (mono (le_refl _) hcd)

theorem agree_executeBlock (hscope : scope.Alike scope') (mode : BlockMode) (hab : ρ a b)
    (hab' : ρ a' b') (hxs : Matches ρ xs ys) :
    Agree ρ (executeBlock mode scope a a' xs first) (executeBlock mode scope' b b' ys first) := by
  cases mode with
  | copy => exact agree_executeCopy hscope hab hab' hxs
  | inPlace => exact (agree_executeInPlace hscope hab hxs).seq fun _ _ => .done

-- ---------------------------------------------------------------------------
-- Nodes
-- ---------------------------------------------------------------------------

omit [scope.Steady] [scope'.Steady] in
theorem agree_sourceOfText (hab : ρ a b) (text : String) :
    Agree ρ (sourceOfText a text) (sourceOfText b text) := by
  refine (agree_load text).bind_of_steady (fun r => by cases r <;> infer_instance)
    (fun r => by cases r <;> infer_instance) fun ρ₁ hle r r' hr => ?_
  cases hr with
  | ok hgh => exact .pure (.some ⟨hgh, rfl⟩)
  | error e => exact .fail (hle _ _ hab) _

omit [scope.Steady] [scope'.Steady] in
/-- An item becomes a source: a node or a text. -/
theorem agree_toSource (hab : ρ a b) {i j : Item} (hij : Matches ρ i j) :
    Agree ρ (toSource a i) (toSource b j) := by
  have hlive : ∀ {g h : Handle}, ρ g h → Agree ρ (toSource.live g) (toSource.live h) := fun hgh =>
    Agree.bind_isAlive hgh fun _ => Agree.ite (fun _ => .pure (.some ⟨hgh, rfl⟩))
      fun _ => .pure .none
  cases hij with
  | node hgh => exact hlive hgh
  | name text => exact agree_sourceOfText hab text
  | count n => exact .fail hab _
  | value hvw =>
    cases hvw with
    | node hgh => exact hlive hgh
    | ref hgh => exact hlive hgh
    | scalar v =>
      cases v with
      | string text => exact agree_sourceOfText hab text
      | _ => exact .fail hab _

theorem agree_runItem (hscope : scope.Alike scope') (mode : BlockMode) (hab : ρ a b)
    (hxs : Matches ρ xs ys) {i j : Item} (hij : Matches ρ i j) :
    Agree ρ (runItem mode scope a xs first i) (runItem mode scope' b ys first j) := by
  refine (agree_toSource hab hij).bind_of_steady (fun x => by cases x <;> infer_instance)
    (fun y => by cases y <;> infer_instance) fun ρ₁ hle x y hxy => ?_
  cases hxy with
  | none => exact .pure (Plain.refl _)
  | @some source source' hsource =>
    obtain ⟨hblock, howned⟩ := hsource
    refine (Agree.always (agree_executeBlock hscope mode hblock (hle _ _ hab) (mono hle hxs))
      fun ρ₂ hle' => ?_).seq fun _ _ => .pure (Plain.refl _)
    rw [howned]
    exact Agree.ite (fun _ => agree_remove (hle' _ _ hblock)) fun _ => .done

/-- All sources are run, one after another. -/
theorem agree_runSources (hscope : scope.Alike scope') (mode : BlockMode) (hab : ρ a b)
    (hxs : Matches ρ xs ys) {is js : List Item} (hij : Matches ρ is js) :
    Agree ρ (runSources mode scope a xs first is) (runSources mode scope' b ys first js) := by
  induction is generalizing js ρ first with
  | nil =>
    cases hij
    exact .done
  | cons i is ih =>
    cases hij with
    | @cons _ j _ js hfirst hrest =>
      rw [runSources_cons, runSources_cons]
      refine Agree.bind_isAlive hab fun alive => Agree.ite (fun _ => ?_) fun _ => .done
      refine (agree_runItem hscope mode hab hxs hfirst).bind fun ρ₁ hle ran ran' hran => ?_
      obtain rfl := Plain.eq hran
      -- the other items follow under the larger pairing
      have hnext : ∀ again, Agree ρ₁ (runSources mode scope a xs again is)
          (runSources mode scope' b ys again js) := fun again =>
        ih (hle _ _ hab) (mono hle hxs) (mono hle hrest)
      refine Agree.ite (fun _ => ?_) fun _ => hnext first
      refine Agree.bind_nodes fun s t hst => ?_
      refine Agree.bind_liftFault (hst.pending hst.left.linked hst.right.linked (hle _ _ hab))
        fun c d hcd => ?_
      obtain rfl := Plain.eq hcd
      exact Agree.ite (fun _ => .done) fun _ => hnext false

/-- The sources that a node names are run. -/
theorem agree_executeSources (hscope : scope.Alike scope') (mode : BlockMode) (hab : ρ a b) :
    Agree ρ (executeSources mode scope a) (executeSources mode scope' b) := by
  unfold executeSources
  refine Agree.bind_nodes fun s t hst => ?_
  refine Agree.bind_lift (hst.resolve hst.left.linked hst.right.linked hab) fun is js hij => ?_
  refine Agree.bind_nodes fun s t hst => ?_
  refine Agree.bind_liftFault (hst.children hab) fun args args' hargs => ?_
  refine (Agree.mapM hargs fun _ hle c d hcd => agree_deepClone (hle _ _ hcd)).bind
    fun ρ₁ hle templates templates' htemplates => ?_
  refine Agree.always (agree_runSources hscope mode (hle _ _ hab) htemplates (mono hle hij))
    fun ρ₂ hle' => ?_
  exact Agree.forM (mono hle' htemplates) fun _ _ c d hcd => agree_remove hcd

/-- Nodes that stand for each other are executed alike. -/
theorem agree_execute (hscope : scope.Alike scope') (mode : BlockMode) (hab : ρ a b) (own : Bool) :
    Agree ρ (execute mode scope a own) (execute mode scope' b own) := by
  have hself : ∀ {ρ' : Pairing}, ρ' a b → Agree ρ' (executeBlock mode scope a a [] true)
      (executeBlock mode scope' b b [] true) := fun hab =>
    agree_executeBlock hscope mode hab hab .nil
  unfold execute
  rw [hscope.settings]
  refine Agree.nested hab (Agree.ite (fun _ => hself hab) fun _ => ?_)
  refine Agree.bind_nodes fun s t hst => Agree.bind_liftFault (hst.value hab) fun v w hvw => ?_
  cases hvw with
  | none => exact hself hab
  | some _ => exact agree_executeSources hscope mode hab

end

end TreeScript
