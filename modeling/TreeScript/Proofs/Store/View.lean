import TreeScript.Proofs.Store.Plant
import TreeScript.Proofs.Document.RoundTrip
import TreeScript.Store.View

/-!
# TreeScript — nodes shown as documents

A node shows a document if names, values and children agree all the way down. The
document is finite, so no node is met twice on a way down and the bounded walk of
`Store.view` is long enough. A planted document is shown by its node.

* `Shows`, `shows_unique`, `view_of_shows` — a node and the document it shows;
* `Balanced.shows_plant` — a planted document is shown;
* `Writable`, `Writable.exists_shows` — the nodes that show a readable document;
* `parse_renderBelow` — reading what has been written for the children of a node
  gives a node with the same children, `awkward` is a store where it is hard.
-/

namespace TreeScript.Store

-- ---------------------------------------------------------------------------
-- Documents that are shown
-- ---------------------------------------------------------------------------

mutual

/-- A node shows a document; all nodes that are looked at satisfy `P`. -/
def Shows (s : Store) (P : Handle → Prop) : Handle → Doc → Prop
  | h, .plain name value children =>
    P h ∧ ∃ n, s.node? h = some n ∧ n.name = name ∧ n.value = value.map Value.scalar ∧
      ShowsAll s P n.children children
  | h, .holder name nested children =>
    P h ∧ ∃ n t, s.node? h = some n ∧ n.name = name ∧ n.value.bind Value.target? = some t ∧ P t ∧
      ShowsAll s P (s.childList t) nested ∧ ShowsAll s P n.children children

/-- Some nodes show a forest. -/
def ShowsAll (s : Store) (P : Handle → Prop) : List Handle → List Doc → Prop
  | [], [] => True
  | h :: hs, d :: ds => Shows s P h d ∧ ShowsAll s P hs ds
  | _, _ => False

end

theorem Shows.isAlive {s : Store} {P : Handle → Prop} {h : Handle} {d : Doc} (hd : Shows s P h d) :
    s.isAlive h = true := by
  cases d with
  | plain name value children =>
    rw [Shows] at hd
    obtain ⟨-, n, hn, -⟩ := hd
    exact isAlive_iff.2 ⟨n, hn⟩
  | holder name nested children =>
    rw [Shows] at hd
    obtain ⟨-, n, t, hn, -⟩ := hd
    exact isAlive_iff.2 ⟨n, hn⟩

theorem showsAll_nil {s : Store} {P : Handle → Prop} {hs : List Handle} :
    ShowsAll s P hs [] ↔ hs = [] := by
  cases hs <;> simp [ShowsAll]

/-- The first node shows the first document, and the others the others. -/
theorem showsAll_cons {s : Store} {P : Handle → Prop} {hs : List Handle} {d : Doc}
    {ds : List Doc} : ShowsAll s P hs (d :: ds) ↔
      ∃ h rest, hs = h :: rest ∧ Shows s P h d ∧ ShowsAll s P rest ds := by
  cases hs with
  | nil => simp [ShowsAll]
  | cons h rest => simp [ShowsAll]

theorem target?_map_scalar (value : Option Scalar) :
    (value.map Value.scalar).bind Value.target? = none := by
  cases value <;> rfl

mutual

/-- A node shows one document only. -/
theorem shows_unique {s : Store} {P : Handle → Prop} {h : Handle} : {d d' : Doc} →
    Shows s P h d → Shows s P h d' → d = d'
  | .plain name value children, .plain name' value' children', hd, hd' => by
    rw [Shows] at hd hd'
    obtain ⟨-, n, hn, rfl, hvalue, hchildren⟩ := hd
    obtain ⟨-, n', hn', rfl, hvalue', hchildren'⟩ := hd'
    obtain rfl : n = n' := Option.some.inj (hn.symm.trans hn')
    have hinj : Function.Injective Value.scalar := fun _ _ => Value.scalar.inj
    rw [Option.map_injective hinj (hvalue.symm.trans hvalue'),
      showsAll_unique hchildren hchildren']
  | .holder name nested children, .holder name' nested' children', hd, hd' => by
    rw [Shows] at hd hd'
    obtain ⟨-, n, t, hn, rfl, ht, -, hnested, hchildren⟩ := hd
    obtain ⟨-, n', t', hn', rfl, ht', -, hnested', hchildren'⟩ := hd'
    obtain rfl : n = n' := Option.some.inj (hn.symm.trans hn')
    obtain rfl : t = t' := Option.some.inj (ht.symm.trans ht')
    rw [showsAll_unique hnested hnested', showsAll_unique hchildren hchildren']
  | .plain name value children, .holder name' nested' children', hd, hd' => by
    rw [Shows] at hd
    rw [Shows] at hd'
    obtain ⟨-, n, hn, -, hvalue, -⟩ := hd
    obtain ⟨-, n', t', hn', -, ht', -⟩ := hd'
    obtain rfl : n = n' := Option.some.inj (hn.symm.trans hn')
    -- a scalar owns nothing, so a plain node is no holder
    simp [hvalue, target?_map_scalar] at ht'
  | .holder name nested children, .plain name' value' children', hd, hd' => by
    rw [Shows] at hd
    rw [Shows] at hd'
    obtain ⟨-, n, t, hn, -, ht, -⟩ := hd
    obtain ⟨-, n', hn', -, hvalue', -⟩ := hd'
    obtain rfl : n = n' := Option.some.inj (hn.symm.trans hn')
    simp [hvalue', target?_map_scalar] at ht

/-- Nodes show one list of documents at most. -/
theorem showsAll_unique {s : Store} {P : Handle → Prop} {hs : List Handle} : {ds ds' : List Doc} →
    ShowsAll s P hs ds → ShowsAll s P hs ds' → ds = ds'
  | [], [], _, _ => rfl
  | d :: ds, d' :: ds', hds, hds' => by
    obtain ⟨h, rest, rfl, hd, hrest⟩ := showsAll_cons.1 hds
    obtain ⟨h', rest', heq, hd', hrest'⟩ := showsAll_cons.1 hds'
    obtain ⟨rfl, rfl⟩ := List.cons.inj heq
    rw [shows_unique hd hd', showsAll_unique hrest hrest']
  | [], d' :: ds', hds, hds' => by
    obtain rfl := showsAll_nil.1 hds
    simp [ShowsAll] at hds'
  | d :: ds, [], hds, hds' => by
    obtain rfl := showsAll_nil.1 hds'
    simp [ShowsAll] at hds

end

-- ---------------------------------------------------------------------------
-- The bounded walk
-- ---------------------------------------------------------------------------

/-- Showing a forest node by node. -/
theorem mapM_of_showsAll {s : Store} {P : Handle → Prop} {f : Handle → Except Fault Doc}
    {hs : List Handle} {ds : List Doc} (hds : ShowsAll s P hs ds)
    (hf : ∀ h d, d ∈ ds → Shows s P h d → f h = .ok d) : hs.mapM f = .ok ds := by
  induction ds generalizing hs with
  | nil =>
    obtain rfl := showsAll_nil.1 hds
    rfl
  | cons d ds ih =>
    obtain ⟨h, rest, rfl, hd, hrest⟩ := showsAll_cons.1 hds
    rw [List.mapM_cons, hf h d (by simp) hd,
      ih hrest fun h' d' hd' => hf h' d' (List.mem_cons_of_mem _ hd')]
    rfl

/-- A node is none of those that show larger documents. -/
theorem not_mem_of_shows {s : Store} {P : Handle → Prop} {path : List Handle} {h : Handle} {d : Doc}
    (hd : Shows s P h d) (hpath : ∀ x ∈ path, ∃ dx, Shows s P x dx ∧ sizeOf d < sizeOf dx) :
    h ∉ path := by
  intro hmem
  obtain ⟨dx, hdx, hlt⟩ := hpath h hmem
  rw [shows_unique hd hdx] at hlt
  exact Nat.lt_irrefl _ hlt

/-- A walk that is long enough for the slots that are left shows the document: the
nodes on the way to a node show larger documents, so it is not one of them. -/
theorem viewWithin_of_shows {s : Store} {P : Handle → Prop} {fuel : Nat} {path : List Handle}
    {h : Handle} {d : Doc} (hd : Shows s P h d) (hnodup : path.Nodup)
    (hpath : ∀ x ∈ path, ∃ dx, Shows s P x dx ∧ sizeOf d < sizeOf dx)
    (hfuel : s.slots.size < fuel + path.length) : s.viewWithin fuel h = .ok d := by
  induction fuel generalizing path h d with
  | zero =>
    have hle := length_le_size_of_nodup hnodup fun x hx => by
      obtain ⟨dx, hdx, -⟩ := hpath x hx
      exact hdx.isAlive
    omega
  | succ fuel ih =>
    have hnodup' : (h :: path).Nodup := List.nodup_cons.2 ⟨not_mem_of_shows hd hpath, hnodup⟩
    -- one step down, with `h` on the way
    have hstep : ∀ hs ds, ShowsAll s P hs ds → (∀ d' ∈ ds, sizeOf d' < sizeOf d) →
        hs.mapM (s.viewWithin fuel) = .ok ds := by
      refine fun _ _ hds hlt => mapM_of_showsAll hds fun h' d' hmem hd' =>
        ih hd' hnodup' (fun x hx => ?_) (by simp only [List.length_cons]; omega)
      rcases List.mem_cons.1 hx with rfl | hx
      · exact ⟨d, hd, hlt d' hmem⟩
      · obtain ⟨dx, hdx, hlt'⟩ := hpath x hx
        exact ⟨dx, hdx, Nat.lt_trans (hlt d' hmem) hlt'⟩
    match d, hd, hstep with
    | .plain name value children, hd, hstep =>
      rw [Shows] at hd
      obtain ⟨-, n, hn, rfl, hvalue, hchildren⟩ := hd
      have hmap := hstep _ _ hchildren fun d' hmem => by
        have := List.sizeOf_lt_of_mem hmem
        simp only [Doc.plain.sizeOf_spec]
        omega
      cases value <;>
        simp [viewWithin, node, hn, hvalue, Value.target?, hmap, bind, Except.bind, pure, Except.pure]
    | .holder name nested children, hd, hstep =>
      rw [Shows] at hd
      obtain ⟨-, n, t, hn, rfl, ht, -, hnested, hchildren⟩ := hd
      have hmap := hstep _ _ hchildren fun d' hmem => by
        have := List.sizeOf_lt_of_mem hmem
        simp only [Doc.holder.sizeOf_spec]
        omega
      have hmap' := hstep _ _ hnested fun d' hmem => by
        have := List.sizeOf_lt_of_mem hmem
        simp only [Doc.holder.sizeOf_spec]
        omega
      simp [viewWithin, node, hn, ht, hmap, hmap', bind, Except.bind, pure, Except.pure]

/-- A node that shows a document is viewed as this document. -/
theorem view_of_shows {s : Store} {P : Handle → Prop} {h : Handle} {d : Doc}
    (hd : Shows s P h d) : s.view h = .ok d :=
  viewWithin_of_shows hd List.nodup_nil (by simp) (by simp)

-- ---------------------------------------------------------------------------
-- Documents that stay
-- ---------------------------------------------------------------------------

/-- What is shown of a node: everything except where it stands. -/
def seen (s : Store) (h : Handle) : Option Node := (s.node? h).map fun n => { n with parent := none }

/-- A node that is as it was is seen as it was. -/
theorem seen_eq_of_node?_eq {s s' : Store} {h : Handle} (heq : s'.node? h = s.node? h) :
    s'.seen h = s.seen h := by
  rw [seen, seen, heq]

/-- A node that is seen as it was has its children. -/
theorem childList_eq_of_seen_eq {s s' : Store} {h : Handle} (heq : s'.seen h = s.seen h) :
    s'.childList h = s.childList h := by
  have := congrArg (fun n => (n.map Node.children).getD []) heq
  simpa [seen, childList, Function.comp_def] using this

/-- A node that is seen as it was differs in its parent at most. -/
theorem node?_of_seen_eq {s s' : Store} {h : Handle} {n : Node} (heq : s'.seen h = s.seen h)
    (hn : s.node? h = some n) : ∃ p, s'.node? h = some { n with parent := p } := by
  rw [seen, seen, hn] at heq
  obtain ⟨n', hn', hsame⟩ := Option.map_eq_some_iff.1 heq
  obtain ⟨name, value, parent, children⟩ := n'
  simp only [Node.mk.injEq, true_and] at hsame
  obtain ⟨rfl, rfl, rfl⟩ := hsame
  exact ⟨parent, hn'⟩

mutual

/-- A document stays shown while none of the nodes that were looked at changes. -/
theorem Shows.keep {s s' : Store} {P P' : Handle → Prop} (hseen : ∀ x, P x → s'.seen x = s.seen x)
    (hP : ∀ x, P x → P' x) {h : Handle} : {d : Doc} → Shows s P h d → Shows s' P' h d
  | .plain name value children, hd => by
    rw [Shows] at hd ⊢
    obtain ⟨hh, n, hn, hname, hvalue, hchildren⟩ := hd
    obtain ⟨p, hn'⟩ := node?_of_seen_eq (hseen h hh) hn
    exact ⟨hP h hh, _, hn', hname, hvalue, hchildren.keep hseen hP⟩
  | .holder name nested children, hd => by
    rw [Shows] at hd ⊢
    obtain ⟨hh, n, t, hn, hname, ht, htP, hnested, hchildren⟩ := hd
    obtain ⟨p, hn'⟩ := node?_of_seen_eq (hseen h hh) hn
    refine ⟨hP h hh, _, t, hn', hname, ht, hP t htP, ?_, hchildren.keep hseen hP⟩
    rw [childList_eq_of_seen_eq (hseen t htP)]
    exact hnested.keep hseen hP

/-- Nodes show what they did where all that they lead to is seen as it was. -/
theorem ShowsAll.keep {s s' : Store} {P P' : Handle → Prop}
    (hseen : ∀ x, P x → s'.seen x = s.seen x) (hP : ∀ x, P x → P' x) {hs : List Handle} :
    {ds : List Doc} → ShowsAll s P hs ds → ShowsAll s' P' hs ds
  | [], hds => showsAll_nil.2 (showsAll_nil.1 hds)
  | d :: ds, hds => by
    obtain ⟨h, rest, rfl, hd, hrest⟩ := showsAll_cons.1 hds
    exact showsAll_cons.2 ⟨h, rest, rfl, hd.keep hseen hP, hrest.keep hseen hP⟩

end

-- ---------------------------------------------------------------------------
-- Planted documents
-- ---------------------------------------------------------------------------

/-- What was there is seen as it was when something has been planted. -/
theorem Planted.seen_eq {s s' : Store} {h x : Handle} (hp : Planted s h s')
    (hx : s.isAlive x = true) : s'.seen x = s.seen x := by
  obtain ⟨n, hn⟩ := isAlive_iff.1 hx
  exact seen_eq_of_node?_eq ((hp.keeps hn).trans hn.symm)

/-- Planting below a node shows a forest: these are its further children. -/
def ShowsBelow (s : Store) (p : Handle) (s' : Store) (ds : List Doc) : Prop :=
  ∀ n, s.node? p = some n → ∃ new, s'.node? p = some { n with children := n.children ++ new } ∧
    ShowsAll s' (Fresh s s') new ds

/-- A new node, with a forest that has been planted below it. -/
theorem Balanced.showsAll_create {s s' : Store} (hs : Balanced s) {name : String}
    {v : Option Value} {ds : List Doc}
    (hplanted : Planted s (s.create name v).1 s')
    (hv : ∀ nested, v.bind Value.owned? = some nested → s.parent? nested = none)
    (hbelow : ShowsBelow (s.create name v).2 (s.create name v).1 s' ds) :
    Fresh s s' (s.create name v).1 ∧ ∃ n, s'.node? (s.create name v).1 = some n ∧
      n.name = name ∧ n.value = v ∧ ShowsAll s' (Fresh s s') n.children ds := by
  obtain ⟨new, hn, hnew⟩ := hbelow _ (hs.node?_create_self name v)
  have hfresh : s.isAlive (s.create name v).1 = false := not_isAlive_iff.2 hplanted.fresh
  refine ⟨⟨hfresh, isAlive_iff.2 ⟨_, hn⟩⟩, _, hn, rfl, rfl, ?_⟩
  refine hnew.keep (fun _ _ => rfl) fun x hx => ⟨isAlive_eq_false_of_keeps ?_ hx.1, hx.2⟩
  intro y hy
  obtain ⟨m, hm⟩ := isAlive_iff.1 hy
  refine isAlive_iff.2 ⟨m, ?_⟩
  rw [hs.node?_create name hv, if_neg (hplanted.ne hy), hm]

/-- A planted node shows its document among those below its parent. -/
theorem Planted.showsBelow {s t u : Store} {p c : Handle} {d : Doc} {ds : List Doc}
    (hc : Planted s c t) (hp : s.isAlive p = true) (hd : Shows t (Fresh s t) c d)
    (hrest : PlantedBelow (t.linkLast p c) p u) (hds : ShowsBelow (t.linkLast p c) p u ds) :
    ShowsBelow s p u (d :: ds) := by
  intro n hn
  have hview := node?_linkLast (hc.keeps hn) (hc.ne hp)
  obtain ⟨new, hnew, hall⟩ := hds { n with children := n.children ++ [c] } (by
    rw [hview, hc.keeps hn]
    simp [hc.ne hp])
  -- linking changes only where the new node stands, and planting the rest only `p`
  have hlink : ∀ x, Fresh s t x → (t.linkLast p c).isAlive x = true ∧ x ≠ p ∧
      (t.linkLast p c).seen x = t.seen x := by
    intro x hx
    have hne : x ≠ p := by
      rintro rfl
      exact absurd hp (by simp [hx.1])
    refine ⟨by simpa using hx.2, hne, ?_⟩
    rw [seen, seen, hview]
    simp [hne, Function.comp_def]
  have hkeep : ∀ x, Fresh s t x → u.isAlive x = true ∧ u.seen x = t.seen x := by
    intro x hx
    obtain ⟨halive, hne, hsame⟩ := hlink x hx
    obtain ⟨m, hm⟩ := isAlive_iff.1 halive
    refine ⟨isAlive_iff.2 ⟨m, hrest.keeps hm hne⟩, ?_⟩
    rw [← hsame]
    exact seen_eq_of_node?_eq ((hrest.keeps hm hne).trans hm.symm)
  refine ⟨c :: new, by simpa using hnew, showsAll_cons.2 ⟨c, new, rfl, ?_, ?_⟩⟩
  · exact hd.keep (fun x hx => (hkeep x hx).2) fun x hx => ⟨hx.1, (hkeep x hx).1⟩
  · refine hall.keep (fun _ _ => rfl) fun x hx => ⟨?_, hx.2⟩
    have hdead : t.isAlive x = false := by simpa using hx.1
    exact isAlive_eq_false_of_keeps (fun y hy => hc.isAlive hy) hdead

mutual

/-- A planted document is shown by new nodes. -/
theorem Balanced.shows_plant {s : Store} (hs : Balanced s) : (d : Doc) →
    Shows (s.plant (.ofDoc d)).2 (Fresh s (s.plant (.ofDoc d)).2) (s.plant (.ofDoc d)).1 d
  | .plain name value children => by
    have hv : ∀ nested, (value.map Value.scalar).bind Value.owned? = some nested →
        s.parent? nested = none := by
      intro nested h
      cases value <;> simp [Value.owned?] at h
    have hplanted := hs.plant (.ofDoc (.plain name value children))
    rw [Shape.ofDoc, Store.plant] at hplanted ⊢
    rw [Shows]
    exact hs.showsAll_create hplanted hv
      (((Evolves.create _ _ _).balanced hs).showsBelow_plantBelow
        (isAlive_iff.2 ⟨_, hs.node?_create_self name _⟩) children)
  | .holder name nested children => by
    have hinner := hs.plant (.plain "" none (Shape.ofForest nested))
    -- the owned tree shows the nested document before the node that owns it is made
    have hshown : ∃ n, (s.plant (.plain "" none (Shape.ofForest nested))).2.node?
        (s.plant (.plain "" none (Shape.ofForest nested))).1 = some n ∧
        ShowsAll (s.plant (.plain "" none (Shape.ofForest nested))).2
          (Fresh s (s.plant (.plain "" none (Shape.ofForest nested))).2) n.children nested := by
      rw [Store.plant] at hinner ⊢
      obtain ⟨-, n, hn, -, -, hall⟩ := hs.showsAll_create hinner (by simp)
        (((Evolves.create _ _ _).balanced hs).showsBelow_plantBelow
          (isAlive_iff.2 ⟨_, hs.node?_create_self "" none⟩) nested)
      exact ⟨n, hn, hall⟩
    rw [Shape.ofDoc, Store.plant]
    generalize s.plant (.plain "" none (Shape.ofForest nested)) = inner at hinner hshown ⊢
    obtain ⟨g, t⟩ := inner
    have ht := hinner.evolves.balanced hs
    have hv : ∀ x, (some (Value.node g)).bind Value.owned? = some x → t.parent? x = none := by
      intro x hx
      obtain rfl : g = x := by simpa [Value.owned?] using hx
      exact hinner.parent?_root
    have hbalanced := (Evolves.create t name (some (.node g))).balanced ht
    have halive : (t.create name (some (.node g))).2.isAlive (t.create name (some (.node g))).1 =
        true := isAlive_iff.2 ⟨_, ht.node?_create_self name _⟩
    have hplanted := ht.planted_of_below hv
      (hbalanced.plantBelow halive (Shape.ofForest children))
    obtain ⟨hfresh, n, hn, hname, hvalue, hchildren⟩ := ht.showsAll_create hplanted hv
      (hbalanced.showsBelow_plantBelow halive children)
    obtain ⟨m, hm, hnested⟩ := hshown
    -- what is new to the later store is new to the first one
    have hold : ∀ x, Fresh t ((t.create name (some (.node g))).2.plantBelow
          (t.create name (some (.node g))).1 (Shape.ofForest children)) x →
        s.isAlive x = false := fun x hx =>
      isAlive_eq_false_of_keeps (fun y hy => hinner.isAlive hy) hx.1
    rw [Shows]
    refine ⟨⟨hold _ hfresh, hfresh.2⟩, n, g, hn, hname, by simp [hvalue, Value.target?],
      ⟨not_isAlive_iff.2 hinner.fresh, hplanted.isAlive (isAlive_iff.2 ⟨m, hm⟩)⟩, ?_, ?_⟩
    -- planting the children leaves the owned tree as it is shown
    · rw [childList_eq (hplanted.keeps hm)]
      exact hnested.keep (fun x hx => hplanted.seen_eq hx.2) fun x hx => ⟨hx.1, hplanted.isAlive hx.2⟩
    · exact hchildren.keep (fun _ _ => rfl) fun x hx => ⟨hold x hx, hx.2⟩

/-- Documents that are planted below a live node are shown by its further children. -/
theorem Balanced.showsBelow_plantBelow {s : Store} (hs : Balanced s) {p : Handle}
    (hp : s.isAlive p = true) : (ds : List Doc) → ShowsBelow s p (s.plantBelow p (Shape.ofForest ds)) ds
  | [] => by
    intro n hn
    rw [Shape.ofForest, Store.plantBelow]
    exact ⟨[], by simpa using hn, showsAll_nil.2 rfl⟩
  | d :: ds => by
    rw [Shape.ofForest, Store.plantBelow]
    have hone := (hs.plant (.ofDoc d)).linkLast hp
    have hbalanced := hone.evolves.balanced hs
    exact (hs.plant (.ofDoc d)).showsBelow hp (hs.shows_plant d)
      (hbalanced.plantBelow (hone.isAlive hp) _)
      (hbalanced.showsBelow_plantBelow (hone.isAlive hp) ds)

end

-- ---------------------------------------------------------------------------
-- Nodes that can be written
-- ---------------------------------------------------------------------------

/-- A node with all that it reaches can be written and read back: no handle in a list
of children is stale, no node holds itself through others, no value refers to a node
that is owned elsewhere, and names and dates are those that a text gives back. -/
structure Writable (s : Store) (root : Handle) : Prop where
  alive : s.isAlive root = true
  children {x : Handle} {n : Node} : s.Reaches root x → s.node? x = some n →
    ∀ c ∈ n.children, s.isAlive c = true
  acyclic {x : Handle} : s.Reaches root x → ¬ Relation.TransGen s.Holds x x
  owned {x h : Handle} {n : Node} : s.Reaches root x → s.node? x = some n → n.value ≠ some (.ref h)
  scalar {x : Handle} {n : Node} {v : Scalar} : s.Reaches root x → s.node? x = some n →
    n.value = some (.scalar v) → v.Readable
  name {x : Handle} {n : Node} : s.Reaches root x → s.node? x = some n →
    Doc.NameReadable n.name.toList

/-- A readable document that a node shows. -/
def ShowsReadable (s : Store) (h : Handle) : Prop :=
  ∃ d, Shows s (fun _ => True) h d ∧ d.Readable

/-- Nodes that each show something that is read back do so together. -/
theorem exists_showsAll {s : Store} {hs : List Handle} (h : ∀ x ∈ hs, ShowsReadable s x) :
    ∃ ds, ShowsAll s (fun _ => True) hs ds ∧ Doc.AllReadable ds := by
  induction hs with
  | nil => exact ⟨[], showsAll_nil.2 rfl, trivial⟩
  | cons x rest ih =>
    obtain ⟨d, hd, hread⟩ := h x (by simp)
    obtain ⟨ds, hds, hreads⟩ := ih fun y hy => h y (List.mem_cons_of_mem _ hy)
    exact ⟨d :: ds, showsAll_cons.2 ⟨x, rest, rfl, hd, hds⟩, hread, hreads⟩

/-- A node shows a readable document if all that it holds does. -/
theorem Writable.showsReadable_step {s : Store} {root x : Handle} {n : Node}
    (hw : Writable s root) (hx : s.Reaches root x) (hn : s.node? x = some n)
    (hchildren : ∀ c ∈ n.children, ShowsReadable s c)
    (howned : ∀ g, n.owned? = some g → ∀ c ∈ s.childList g, ShowsReadable s c) :
    ShowsReadable s x := by
  obtain ⟨ds, hds, hread⟩ := exists_showsAll hchildren
  have hname := hw.name hx hn
  cases hv : n.value with
  | none =>
    refine ⟨.plain n.name none ds, ?_, ⟨hname, by simp, hread⟩⟩
    rw [Shows]
    exact ⟨trivial, n, hn, rfl, hv, hds⟩
  | some v =>
    cases v with
    | scalar v =>
      refine ⟨.plain n.name (some v) ds, ?_, ⟨hname, by simpa using hw.scalar hx hn hv, hread⟩⟩
      rw [Shows]
      exact ⟨trivial, n, hn, rfl, hv, hds⟩
    | node g =>
      obtain ⟨nested, hnested, hread'⟩ :=
        exists_showsAll (howned g (by simp [Node.owned?, hv, Value.owned?]))
      refine ⟨.holder n.name nested ds, ?_, ⟨hname, hread', hread⟩⟩
      rw [Shows]
      exact ⟨trivial, n, g, hn, rfl, by simp [hv, Value.target?], trivial, hnested, hds⟩
    -- a writable tree holds no reference
    | ref g => exact absurd hv (hw.owned hx hn)

/-- A node that can be written shows a readable document. -/
theorem Writable.exists_shows {s : Store} {root : Handle} (hw : Writable s root) :
    ShowsReadable s root := by
  have hway : ∀ {x y}, Relation.TransGen
      (fun a b => s.isAlive a = true ∧ Relation.TransGen s.Holds a b) x y →
      Relation.TransGen s.Holds x y := by
    intro x y hxy
    exact Relation.TransGen.trans_induction_on hxy And.right fun _ _ hab hbc => hab.trans hbc
  -- what is written with a node stands one step below it, or two where a value owns a node
  refine of_below (P := fun _ x => s.Reaches root x → s.isAlive x = true → ShowsReadable s x)
    (R := fun a b => s.isAlive a = true ∧ Relation.TransGen s.Holds a b) And.left
    (fun x hx hcircle => ?_) (fun {_ x} hbelow hx halive => ?_) (.refl _ _) hw.alive
  · refine hw.acyclic ?_ (hway hcircle)
    rcases Relation.reflTransGen_iff_eq_or_transGen.1 hx with rfl | hx
    · exact .refl _ _
    · exact (hway hx).to_reflTransGen
  · obtain ⟨n, hn⟩ := isAlive_iff.1 halive
    have hdown : ∀ y, Relation.TransGen s.Holds x y → s.isAlive y = true → ShowsReadable s y :=
      fun y hxy => hbelow y ⟨halive, hxy⟩ (hx.trans hxy.to_reflTransGen)
    refine hw.showsReadable_step hx hn (fun c hc => ?_) fun g hg c hc => ?_
    · exact hdown c (.single ⟨n, hn, Or.inl hc⟩) (hw.children hx hn c hc)
    · have hxg : s.Holds x g := ⟨n, hn, Or.inr hg⟩
      cases hm : s.node? g with
      | none => simp [childList, hm] at hc
      | some m =>
        rw [childList_eq hm] at hc
        exact hdown c ((Relation.TransGen.single hxg).tail ⟨m, hm, Or.inl hc⟩)
          (hw.children (hx.tail hxg) hm c hc)

-- ---------------------------------------------------------------------------
-- Written and read
-- ---------------------------------------------------------------------------

/-- The children of a snapshot are snapshots of the children. -/
theorem snapshot_children (d : Doc) : d.snapshot.children = Doc.snapshotAll d.children := by
  match d with
  | .plain _ none _ => rfl
  | .plain _ (some v) _ => cases v <;> rfl
  | .holder _ _ _ => rfl

/-- A node that shows a document has the children that show its children. -/
theorem Shows.showsAll_children {s : Store} {P : Handle → Prop} {h : Handle} {d : Doc}
    (hd : Shows s P h d) : ∃ n, s.node? h = some n ∧ ShowsAll s P n.children d.children := by
  cases d with
  | plain name value children =>
    rw [Shows] at hd
    obtain ⟨-, n, hn, -, -, hchildren⟩ := hd
    exact ⟨n, hn, hchildren⟩
  | holder name nested children =>
    rw [Shows] at hd
    obtain ⟨-, n, t, hn, -, -, -, -, hchildren⟩ := hd
    exact ⟨n, hn, hchildren⟩

/-- What is below a node is seen as the children of what it shows. -/
theorem viewBelow_of_shows {s : Store} {P : Handle → Prop} {h : Handle} {d : Doc}
    (hd : Shows s P h d) : s.viewBelow h = .ok d.children := by
  obtain ⟨n, hn, hall⟩ := hd.showsAll_children
  simp only [viewBelow, children, node, hn, Except.map, bind, Except.bind]
  exact mapM_of_showsAll hall fun _ _ _ hshows => view_of_shows hshows

/-- The children of a document that is read back are read back. -/
theorem readable_children {d : Doc} (hd : d.Readable) : Doc.AllReadable d.children := by
  cases d with
  | plain name value children => exact hd.2.2
  | holder name nested children => exact hd.2.2

/-- Reading what has been written for the children of a node gives a new node, in any
store, whose children are the same documents and have the same snapshots. -/
theorem parse_renderBelow {s t : Store} {root : Handle} (hw : Writable s root) (ht : Balanced t) :
    ∃ text h t' a b, s.renderBelow root = .ok text ∧ t.parse text = .ok (h, t') ∧
      t'.viewBelow h = s.viewBelow root ∧
      s.snapshot root = .ok a ∧ t'.snapshot h = .ok b ∧ b.children = a.children := by
  obtain ⟨d, hd, hread⟩ := hw.exists_shows
  have hbelow := viewBelow_of_shows hd
  -- what is written is read back as the same document
  have hparse : t.parse (Doc.renderForest d.children) =
      .ok (t.plant (.ofDoc (.plain "" none d.children))) := by
    rw [parse, Document.read_renderForest (readable_children hread), Shape.ofDoc]
  have hshown := ht.shows_plant (.plain "" none d.children)
  refine ⟨Doc.renderForest d.children, (t.plant (.ofDoc (.plain "" none d.children))).1,
    (t.plant (.ofDoc (.plain "" none d.children))).2, d.snapshot,
    (Doc.plain "" none d.children).snapshot, ?_, hparse, ?_, ?_, ?_, ?_⟩
  · rw [renderBelow, hbelow]
    rfl
  · rw [viewBelow_of_shows hshown, hbelow]
    rfl
  · rw [snapshot, view_of_shows hd]
    rfl
  · rw [snapshot, view_of_shows hshown]
    rfl
  · rw [snapshot_children, snapshot_children]
    rfl

/-- Where each node holds only nodes in later slots, no node holds itself. -/
theorem not_transGen_holds_of_rising {s : Store}
    (h : ∀ i, (hi : i < s.slots.size) → ∀ n ∈ s.slots[i].node,
      (∀ c ∈ n.children, i < c.index) ∧ ∀ c ∈ n.owned?, i < c.index) (x : Handle) :
    ¬ Relation.TransGen s.Holds x x := by
  have hstep : ∀ a b, s.Holds a b → a.index < b.index := by
    rintro a b ⟨n, hn, hb⟩
    obtain ⟨hi, -, hnode⟩ := slot_of_node? hn
    obtain ⟨hc, ho⟩ := h a.index hi n hnode
    exact hb.elim (hc b) (ho b)
  have hrise : ∀ a b, Relation.TransGen s.Holds a b → a.index < b.index := by
    intro a b hab
    induction hab with
    | single hab => exact hstep _ _ hab
    | tail _ hbc ih => exact ih.trans (hstep _ _ hbc)
  exact fun hx => Nat.lt_irrefl _ (hrise x x hx)

/-- Awkward names and texts, one of them in a nested document. -/
def awkward : Store where
  slots := #[
    ⟨0, some { name := "root ", children := [⟨1, 0⟩, ⟨2, 0⟩] }⟩,
    ⟨0, some { name := " a:b", value := some (.scalar (.string "int:\n\"\\ ")),
               parent := some ⟨0, 0⟩ }⟩,
    ⟨0, some { name := "", value := some (.node ⟨3, 0⟩), parent := some ⟨0, 0⟩ }⟩,
    ⟨0, some { name := "", children := [⟨4, 0⟩] }⟩,
    ⟨0, some { name := "//", value := some (.scalar (.expr "@\"..\"\r")),
               parent := some ⟨3, 0⟩ }⟩]
  live := 5

/-- The awkward tree can be written: all names and dates in it are such as a text gives back. -/
theorem writable_awkward : Writable awkward ⟨0, 0⟩ := by
  refine ⟨by decide, fun _ hn => ?_, fun _ => ?_, fun {x h n} _ hn => ?_, fun {x n v} _ hn => ?_,
    fun _ hn => ?_⟩
  · exact forall_of_slots (P := fun n => ∀ c ∈ n.children, awkward.isAlive c = true) (by decide) hn
  · exact not_transGen_holds_of_rising (by decide) _
  · refine forall_of_slots (P := fun n => n.value ≠ some (.ref h)) ?_ hn
    simp [awkward]
  · refine forall_of_slots (P := fun n => n.value = some (.scalar v) → v.Readable) ?_ hn
    simp [awkward]
    refine ⟨?_, ?_⟩ <;> rintro rfl <;> trivial
  · refine forall_of_slots (P := fun n => Doc.NameReadable n.name.toList) ?_ hn
    unfold Doc.NameReadable
    decide

/-- The awkward tree is written, and read into an empty store as what it was. -/
theorem parse_renderBelow_awkward :
    Writable awkward ⟨0, 0⟩ ∧ Balanced empty ∧
    ∃ text h t' a b, awkward.renderBelow ⟨0, 0⟩ = .ok text ∧ empty.parse text = .ok (h, t') ∧
      t'.viewBelow h = awkward.viewBelow ⟨0, 0⟩ ∧
      awkward.snapshot ⟨0, 0⟩ = .ok a ∧ t'.snapshot h = .ok b ∧ b.children = a.children :=
  ⟨writable_awkward, balanced_empty, parse_renderBelow writable_awkward balanced_empty⟩

end TreeScript.Store
