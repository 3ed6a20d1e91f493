import TreeScript.Proofs.Document.Reread
import TreeScript.Proofs.Store.Commute
import TreeScript.Proofs.Store.Enclosure
import TreeScript.Store.Load
import TreeScript.Store.View

/-!
# TreeScript — a failed reading leaves nothing behind

Reading puts the node of each line in its place at once, while the document of the text is
made as a whole. Both leave the very same store, since a place given before or after the
children are made makes no difference. If a line is faulty, what has been made so far is
what the document up to that line gives; its root reaches all of it and nothing else, so
freeing the root frees exactly what has come.

* `Balanced.reaches_of_fresh_plant` — the root of a tree that has come in reaches all of it;
* `Restored` — a store whose nodes are as they were;
* `plantEntry`, `Planting`, `planting_ofEntries` — line by line, and as a whole;
* `Yields`, `loadLines_yields`, `load_yields` — what a reading comes to;
* `load_leaves_nodes` — no reading touches a node that was there, and a failed one leaves none.
-/

namespace TreeScript.Store

open Document

variable {s t u : Store} {p c x y : Handle}

-- ---------------------------------------------------------------------------
-- All of a tree that has come in
-- ---------------------------------------------------------------------------

/-- What somebody holds is still held after contents have been planted. -/
theorem PlantedBelow.holds (h : PlantedBelow s p t) {a b : Handle} (hab : s.Holds a b) :
    t.Holds a b := by
  obtain ⟨n, hn, hb⟩ := hab
  by_cases ha : a = p
  · subst ha
    obtain ⟨new, hn'⟩ := h.grown hn
    exact ⟨_, hn', hb.imp_left fun hmem => List.mem_append_left _ hmem⟩
  · exact ⟨n, h.keeps hn ha, hb⟩

/-- A new node with contents below it reaches all that has come with it. -/
theorem Balanced.reaches_of_fresh_create (hs : Balanced s) {name : String} {v : Option Value}
    (hv : ∀ nested, v.bind Value.owned? = some nested → s.parent? nested = none)
    (hbelow : Fresh (s.create name v).2 t y → t.Reaches (s.create name v).1 y)
    (hy : Fresh s t y) : t.Reaches (s.create name v).1 y := by
  by_cases hmade : (s.create name v).2.isAlive y = true
  · rcases (hs.isAlive_create name hv y).1 hmade with hold | rfl
    · simp [hy.1] at hold
    · exact .refl _ _
  · exact hbelow ⟨by simpa using hmade, hy.2⟩

mutual

/-- The root of a tree that has come in reaches all of it. -/
theorem Balanced.reaches_of_fresh_plant {s : Store} (hs : Balanced s) {y : Handle} :
    (content : Shape) → Fresh s (s.plant content).2 y →
      (s.plant content).2.Reaches (s.plant content).1 y
  | .plain name value children, hy => by
    rw [Store.plant] at hy ⊢
    have hv : ∀ nested, (value.map Value.scalar).bind Value.owned? = some nested →
        s.parent? nested = none := by
      intro nested h
      cases value <;> simp [Value.owned?] at h
    have ht := (Evolves.create s name (value.map Value.scalar)).balanced hs
    exact hs.reaches_of_fresh_create hv (ht.reaches_of_fresh_plantBelow
      (isAlive_iff.2 ⟨_, hs.node?_create_self name _⟩) children) hy
  | .holder name nested children, hy => by
    rw [Store.plant] at hy ⊢
    have hinner := hs.plant nested
    have hm := hinner.evolves.balanced hs
    have hv : ∀ g, (some (Value.node (s.plant nested).1)).bind Value.owned? = some g →
        (s.plant nested).2.parent? g = none := by
      intro g hg
      obtain rfl : (s.plant nested).1 = g := by simpa [Value.owned?] using hg
      exact hinner.parent?_root
    have ht := (Evolves.create _ name (some (.node (s.plant nested).1))).balanced hm
    have hself := isAlive_iff.2 ⟨_, hm.node?_create_self name (some (.node (s.plant nested).1))⟩
    have hbelow := ht.plantBelow hself children
    -- a new node came with the owned tree or after it
    by_cases hmade : (s.plant nested).2.isAlive y = true
    · -- it has come with the owned tree, and the new node owns that
      have hway := (hs.reaches_of_fresh_plant nested ⟨hy.1, hmade⟩).mono fun a b hab =>
        hbelow.holds ((hm.holds_create name hv a b).2 (.inl hab))
      exact .head (hbelow.holds ((hm.holds_create name hv _ _).2 (.inr ⟨rfl, rfl⟩))) hway
    · exact hm.reaches_of_fresh_create hv (ht.reaches_of_fresh_plantBelow hself children)
        ⟨by simpa using hmade, hy.2⟩
  | .pointer name target children, hy => by
    rw [Store.plant] at hy ⊢
    have hv : ∀ g, (some (Value.ref target)).bind Value.owned? = some g → s.parent? g = none := by
      simp [Value.owned?]
    have ht := (Evolves.create s name (some (.ref target))).balanced hs
    exact hs.reaches_of_fresh_create hv (ht.reaches_of_fresh_plantBelow
      (isAlive_iff.2 ⟨_, hs.node?_create_self name _⟩) children) hy

/-- A node reaches all that has been planted below it. -/
theorem Balanced.reaches_of_fresh_plantBelow {s : Store} (hs : Balanced s) {p y : Handle}
    (hp : s.isAlive p = true) :
    (xs : List Shape) → Fresh s (s.plantBelow p xs) y → (s.plantBelow p xs).Reaches p y
  | [], hy => by
    rw [Store.plantBelow] at hy
    exact absurd hy.2 (by simp [hy.1])
  | content :: rest, hy => by
    rw [Store.plantBelow] at hy ⊢
    have hc := hs.plant content
    have hone := hc.linkLast hp
    have hrest := (hone.evolves.balanced hs).plantBelow (hone.isAlive hp) rest
    by_cases hmade : (s.plant content).2.isAlive y = true
    · have hlink := holds_linkLast (hc.isAlive hp) (hc.ne hp)
      have hway := (hs.reaches_of_fresh_plant content ⟨hy.1, hmade⟩).mono fun a b hab =>
        hrest.holds ((hlink a b).2 (.inl hab))
      exact .head (hrest.holds ((hlink _ _).2 (.inr ⟨rfl, rfl⟩))) hway
    · exact (hone.evolves.balanced hs).reaches_of_fresh_plantBelow (hone.isAlive hp) rest
        ⟨by simpa using hmade, hy.2⟩

end

-- ---------------------------------------------------------------------------
-- As it was
-- ---------------------------------------------------------------------------

/-- A store that is left with its nodes as they were: nobody has come, gone or changed. Slots
may have been used in between. -/
structure Restored (s t : Store) : Prop where
  evolves : Evolves s t
  node? (x : Handle) : t.node? x = s.node? x

namespace Restored

@[refl] theorem refl (s : Store) : Restored s s := ⟨.refl _, fun _ => rfl⟩

theorem isAlive (h : Restored s t) (x : Handle) : t.isAlive x = s.isAlive x := by
  rw [Store.isAlive, h.node?, Store.isAlive]

theorem holds (h : Restored s t) (a b : Handle) : t.Holds a b ↔ s.Holds a b := by
  simp only [Holds, h.node?]

theorem reaches (h : Restored s t) (a b : Handle) : t.Reaches a b ↔ s.Reaches a b :=
  ⟨fun hab => hab.mono fun x y => (h.holds x y).1, fun hab => hab.mono fun x y => (h.holds x y).2⟩

theorem isOccupied (h : Restored s t) (i : Nat) : t.isOccupied i = s.isOccupied i := by
  rw [Bool.eq_iff_iff, isOccupied_iff, isOccupied_iff]
  simp only [h.isAlive]

/-- The counter is back at its old number. -/
theorem live_eq (h : Restored s t) (hs : Balanced s) : t.live = s.live :=
  hs.live_eq_of_isAlive (h.evolves.balanced hs) h.isAlive

theorem linked (h : Restored s t) (hs : Linked s) (hu : Unwrapped t) : Linked t where
  lists hm hp := by
    rw [h.node?] at hm ⊢
    exact hs.lists hm hp
  listed hn hc hm := by
    rw [h.node?] at hn hm
    exact hs.listed hn hc hm
  nodup hn := hs.nodup ((h.node? _).symm.trans hn)
  issued hn hc := h.evolves.issued hu (hs.issued ((h.node? _).symm.trans hn) hc)
  acyclic x hx := hs.acyclic x (Relation.TransGen.mono (fun a b hab => by
    rwa [ChildOf, parent?, h.node?] at hab) _ _ hx)

theorem disciplined (h : Restored s t) (hs : Disciplined s) (hu : Unwrapped t) : Disciplined t where
  balanced := h.evolves.balanced hs.balanced
  linked := h.linked hs.linked hu
  live p n c hn hc := by
    rw [h.isAlive]
    exact hs.live ((h.node? p).symm.trans hn) hc
  apart ho hc := by
    rw [Owns, h.node?] at ho
    rw [h.isAlive] at hc
    rw [parent?, h.node?]
    exact hs.apart ho hc
  unique hb hab hab' := by
    rw [h.isAlive] at hb
    rw [h.holds] at hab hab'
    exact hs.unique hb hab hab'
  acyclic x hx := hs.acyclic x (Relation.TransGen.mono (fun a b => (h.holds a b).1) _ _ hx)
  issued ho := by
    rw [Owns, h.node?] at ho
    exact h.evolves.issued hu (hs.issued ho)

theorem since {T : Set Handle} (h : Restored t u) (ht : Since s T t) (hu : Unwrapped u) :
    Since s T u where
  evolves := ht.evolves.trans h.evolves
  disciplined := h.disciplined ht.disciplined hu
  settled hb hlast hab := by
    rw [h.isAlive] at hlast
    exact ht.settled hb hlast ((h.holds _ _).1 hab)
  placed hb hlast hab := by
    rw [h.isAlive] at hlast
    rw [parent?, h.node?]
    exact ht.placed hb hlast ((h.holds _ _).1 hab)
  tops x := by
    rw [← ht.tops, Top, Top, h.isAlive]
    simp only [h.holds]

/-- An occupied slot is as it was, how often it has been freed included. -/
theorem slot (h : Restored s t) (hu : Unwrapped t) {i : Nat} (hi : s.isOccupied i = true) :
    t.slots[i]? = s.slots[i]? := by
  obtain ⟨x, hx, rfl⟩ := isOccupied_iff.1 hi
  obtain ⟨n, hn⟩ := isAlive_iff.1 hx
  have hfreed : t.freedAt x.index = s.freedAt x.index := by
    rw [← hu.generation_toNat ((h.isAlive x).trans hx),
      ← (h.evolves.unwrapped hu).generation_toNat hx]
  obtain ⟨slot, hslot, -, hnode⟩ := node?_eq_some_iff.1 hn
  obtain ⟨slot', hslot', -, hnode'⟩ := node?_eq_some_iff.1 ((h.node? x).trans hn)
  simp only [freedAt, hslot, hslot', Option.map_some, Option.getD_some] at hfreed
  rw [hslot, hslot']
  cases slot
  cases slot'
  simp_all

theorem fenced {F : Fence} {b : Store} (h : Restored s t) (hF : Fenced F b s) (hu : Unwrapped t) :
    Fenced F b t := by
  -- a slot outside the fence is in use, and such slots are as they were
  have hoccupied : ∀ i, F.off i → s.isOccupied i = true := by
    intro i hi
    obtain ⟨slot, hslot⟩ : ∃ slot, s.slots[i]? = some slot := ⟨_, Array.getElem?_eq_getElem (hF.size hi)⟩
    cases hnode : slot.node with
    | none => exact absurd hi (hF.free ((hF.balanced.mem_free i).2 ⟨slot, hslot, hnode⟩))
    | some n => simp [Store.isOccupied, hslot, hnode]
  have hbalanced := h.evolves.balanced hF.balanced
  refine ⟨hbalanced, ?_, ?_, ?_, ?_, ?_⟩
  · intro i hi
    rw [h.slot hu (hoccupied i hi), hF.slots hi]
  · intro i hi
    have hsome := h.slot hu (hoccupied i hi)
    rw [Array.getElem?_eq_getElem (hF.size hi)] at hsome
    exact (Array.getElem?_eq_some_iff.1 hsome).1
  · intro i hi hoff
    obtain ⟨slot, hslot, hnode⟩ := (hbalanced.mem_free i).1 hi
    have hthere := (h.isOccupied i).trans (hoccupied i hoff)
    simp [Store.isOccupied, hslot, hnode] at hthere
  · exact fun hd => (hF.door hd).of_node? (h.node? _)
  · exact fun hx hn => hF.nodes hx ((h.node? _).symm.trans hn)

end Restored

/-- A tree that has come in goes with its root. -/
theorem Balanced.restored_remove (hs : Balanced s) (content : Shape)
    (hu : Restored (s.plant content).2 u) : Restored s (u.remove (s.plant content).1) := by
  have hplant := hs.sprouted_plant content
  obtain ⟨m, hm, hroot⟩ := hplant.root
  have hm' : u.node? (s.plant content).1 = some m := (hu.node? _).trans hm
  have hparent : u.parent? (s.plant content).1 = none := by rw [parent?, hm']; exact hroot
  refine ⟨hplant.evolves.trans (hu.evolves.trans (.remove _ _)), fun x => Option.ext fun n => ?_⟩
  rw [remove, if_pos (isAlive_iff.2 ⟨m, hm'⟩), detach, hparent]
  simp only [node?_releaseAll_eq_some, List.forall_mem_singleton, hu.node?, hu.reaches]
  constructor
  · rintro ⟨hn, hout⟩
    by_contra hnot
    refine hout (hs.reaches_of_fresh_plant content ⟨?_, isAlive_iff.2 ⟨n, hn⟩⟩)
    by_contra hold
    obtain ⟨n', hn'⟩ := isAlive_iff.1 (by simpa using hold)
    exact hnot (hn'.trans ((hplant.keeps hn').symm.trans hn))
  · exact fun hn => ⟨hplant.keeps hn, hplant.not_reaches (isAlive_iff.2 ⟨n, hn⟩)⟩

-- ---------------------------------------------------------------------------
-- Line by line
-- ---------------------------------------------------------------------------

/-- The content of a document as a whole: a nameless node above its nodes. -/
def wholeShape (docs : List Doc) : Shape := .plain "" none (Shape.ofForest docs)

/-- The value of a node with some content; a document that it owns is planted first. -/
def plantContent (s : Store) : Doc.Content → Option Value × Store
  | .scalar v => (v.map Value.scalar, s)
  | .nested docs => (some (.node (s.plant (wholeShape docs)).1), (s.plant (wholeShape docs)).2)

/-- The node of a line, without a place. -/
def plantEntry (s : Store) (e : Doc.Entry) : Handle × Store :=
  (s.plantContent e.content).2.create e.name (s.plantContent e.content).1

/-- A store in which some lines have been planted, and the nodes above the next line. -/
structure Planting where
  store : Store
  parents : List Handle

/-- The node of one more line becomes the last child of the node one level above it. -/
def Planting.add (k : Planting) (e : Doc.Entry) : Planting where
  store := (k.store.plantEntry e).2.linkLast (k.parents.getD e.depth default) (k.store.plantEntry e).1
  parents := k.parents.take (e.depth + 1) ++ [(k.store.plantEntry e).1]

/-- A node with children is planted as its own entry first and its children below it. -/
theorem plant_make (s : Store) (e : Doc.Entry) (docs : List Doc) :
    s.plant (Shape.ofDoc (Doc.make e.name e.content docs)) = ((s.plantEntry e).1,
      (s.plantEntry e).2.plantBelow (s.plantEntry e).1 (Shape.ofForest docs)) := by
  unfold plantEntry
  cases e.content with
  | scalar v => rw [Doc.make, Shape.ofDoc, plant]; rfl
  | nested inner => rw [Doc.make, Shape.ofDoc, plant]; rfl

/-- The node of a line comes in as a tree of its own. -/
theorem Balanced.planted_plantEntry (hs : Balanced s) (e : Doc.Entry) :
    Planted s (s.plantEntry e).1 (s.plantEntry e).2 := by
  have h := hs.plant (Shape.ofDoc (Doc.make e.name e.content []))
  rw [plant_make] at h
  simpa [Shape.ofForest, Store.plantBelow] using h

/-- Lines below a node leave the nodes above it where they are. -/
theorem parents_foldl_add {depth : Nat} {es : List Doc.Entry} (hdeep : ∀ e ∈ es, depth ≤ e.depth)
    {k : Planting} (hp : k.parents[depth]? = some p) :
    (es.foldl Planting.add k).parents[depth]? = some p := by
  induction es generalizing k with
  | nil => exact hp
  | cons e rest ih =>
    refine ih (fun x hx => hdeep x (List.mem_cons_of_mem _ hx)) ?_
    have hle := hdeep e (by simp)
    obtain ⟨hlt, hget⟩ := List.getElem?_eq_some_iff.1 hp
    rw [Planting.add, List.getElem?_append_left (by simp; omega), List.getElem?_take,
      if_pos (by omega), hp]

/-- A line is planted below the last node above it. -/
theorem Planting.add_eq {k : Planting} {e : Doc.Entry} (hp : k.parents[e.depth]? = some p) :
    k.add e = ⟨(k.store.plantEntry e).2.linkLast p (k.store.plantEntry e).1,
      k.parents.take (e.depth + 1) ++ [(k.store.plantEntry e).1]⟩ := by
  rw [Planting.add, List.getD_eq_getElem?_getD, hp, Option.getD_some]

/-- The books are in order after one more line. -/
theorem Balanced.add {k : Planting} (hk : Balanced k.store) (e : Doc.Entry) :
    Balanced (k.add e).store :=
  (Evolves.link _ _ _ _).balanced ((hk.planted_plantEntry e).evolves.balanced hk)

/-- Lines that are planted one after the other come to their forest, planted as a whole: a node
gets its place before its children, or after them. -/
theorem planting_ofEntries {depth : Nat} {es : List Doc.Entry} (hes : Doc.AtDepth depth es)
    {k : Planting} (hk : Balanced k.store) {p : Handle} (hp : k.parents[depth]? = some p)
    (halive : k.store.isAlive p = true) :
    (es.foldl Planting.add k).store = k.store.plantBelow p (Shape.ofForest (Doc.ofEntries es)) := by
  match es with
  | [] => rw [Doc.ofEntries, Shape.ofForest, plantBelow, List.foldl_nil]
  | e :: rest =>
    have hhead := hes.head
    have hnode := hk.planted_plantEntry e
    obtain ⟨m, hm, -⟩ := hnode.root
    have hself := isAlive_iff.2 ⟨m, hm⟩
    have hpm := hnode.isAlive halive
    have hbm := hnode.evolves.balanced hk
    have hlen : depth < k.parents.length := (List.getElem?_eq_some_iff.1 hp).1
    have hadd := congrArg Planting.store (Planting.add_eq (hhead ▸ hp))
    have hparents := congrArg Planting.parents (Planting.add_eq (hhead ▸ hp))
    rw [hhead] at hparents
    -- what stands below the node of the first line is planted below it, and then it gets its place
    have hinner : ((rest.takeWhile fun x => decide (e.depth < x.depth)).foldl Planting.add
        (k.add e)).store = (k.store.plant (Shape.ofDoc (Doc.make e.name e.content
          (Doc.ofEntries (rest.takeWhile fun x => decide (e.depth < x.depth)))))).2.linkLast p
          (k.store.plantEntry e).1 := by
      rw [planting_ofEntries hes.below (hk.add e) (p := (k.store.plantEntry e).1) ?_ ?_, hadd,
        hbm.plantBelow_linkLast hpm hself (hnode.ne halive), plant_make]
      · rw [hparents, List.getElem?_append_right (by simp)]
        simp [Nat.min_eq_left (Nat.succ_le_of_lt hlen)]
      · rw [hadd]
        simpa using hself
    have hdoc := (hk.plant (Shape.ofDoc (Doc.make e.name e.content
      (Doc.ofEntries (rest.takeWhile fun x => decide (e.depth < x.depth)))))).linkLast halive
    rw [plant_make] at hdoc
    have hsplit := List.takeWhile_append_dropWhile (p := fun x : Doc.Entry =>
      decide (e.depth < x.depth)) (l := rest)
    rw [List.foldl_cons, ← hsplit, List.foldl_append, hsplit,
      planting_ofEntries hes.after (p := p) ?_ ?_ ?_, hinner, Doc.ofEntries, Shape.ofForest,
      plantBelow, plant_make]
    · rw [hinner, plant_make]
      exact hdoc.evolves.balanced hk
    · refine parents_foldl_add (fun x hx => Nat.le_of_succ_le (hes.below.deep x hx)) ?_
      rw [hparents, List.getElem?_append_left (by simp; omega), List.getElem?_take,
        if_pos (by omega), hp]
    · rw [hinner, plant_make]
      exact hdoc.isAlive halive
termination_by es.length
decreasing_by
  all_goals simp only [List.length_cons]
  · exact Nat.lt_succ_of_le (List.takeWhile_sublist _).length_le
  · exact Nat.lt_succ_of_le (List.dropWhile_sublist _).length_le

-- ---------------------------------------------------------------------------
-- What a reading comes to
-- ---------------------------------------------------------------------------

/-- What a reading into a store comes to: what has been read is made, or the fault is given and
the nodes are as they were. -/
def Yields {α β : Type} (s : Store) (make : α → β × Store) :
    Except ReadError α → Except ReadError β × Store → Prop
  | .ok a, r => r = (.ok (make a).1, (make a).2)
  | .error e, r => ∃ t, r = (.error e, t) ∧ Restored s t

/-- A way to read a text as a document, and a way to read it into a store, that come to the
same. -/
def YieldsAll (readNested : List Char → Except ReadError (List Doc))
    (nested : Store → List Char → Except ReadError Handle × Store) : Prop :=
  ∀ s, Balanced s → ∀ text,
    Yields s (fun docs => s.plant (wholeShape docs)) (readNested text) (nested s text)

variable {readNested : List Char → Except ReadError (List Doc)}
  {nested : Store → List Char → Except ReadError Handle × Store}

/-- A value is read into a store as it is read on its own. -/
theorem loadValue_yields (h : YieldsAll readNested nested) (hs : Balanced s)
    (fault : (Position → ReadError) → ReadError) (value : Line.Value) :
    Yields s s.plantContent (content readNested fault value) (loadValue nested fault s value) := by
  cases value with
  | absent => rfl
  | untyped text => rfl
  | typed word text =>
    rw [content, loadValue]
    split
    -- a nested document is loaded in the store, and undone where it fails
    next =>
      have hread := h s hs text
      cases hdocs : readNested text with
      | ok docs =>
        rw [hdocs] at hread
        rw [hread]
        rfl
      | error e =>
        rw [hdocs] at hread
        obtain ⟨t, heq, hrestored⟩ := hread
        rw [heq]
        exact ⟨t, rfl, hrestored⟩
    next =>
      cases Scalar.read (String.ofList word) (String.ofList text) true with
      | ok v => rfl
      | error e => exact ⟨s, rfl, .refl s⟩

/-- The lines of a text are planted one after the other up to the first faulty one. -/
theorem loadLines_yields (h : YieldsAll readNested nested) (text : List Char) {lines : List Line}
    {xs : List Doc.Entry} {fault : Option ReadError} {limit : Nat} {k : Planting}
    (hread : entries readNested text limit lines = (xs, fault)) (hk : Balanced k.store)
    (hlimit : k.parents.length = limit + 1) :
    Yields (xs.foldl Planting.add k).store (fun _ => ((), (xs.foldl Planting.add k).store))
      (match fault with | none => .ok () | some e => .error e)
      (loadLines nested text k.store k.parents lines) := by
  induction lines generalizing xs fault limit k with
  | nil =>
    obtain ⟨rfl, rfl⟩ := Prod.mk.inj hread
    rfl
  | cons line rest ih =>
    rw [entries] at hread
    rw [loadLines]
    cases hnode : line.node with
    | none =>
      rw [hnode] at hread
      exact ih hread hk hlimit
    | some node =>
      rw [hnode] at hread
      simp only [entry] at hread ⊢
      -- an odd indentation is refused first
      by_cases hodd : line.indent % 2 ≠ 0
      · rw [if_pos hodd] at hread ⊢
        obtain ⟨rfl, rfl⟩ := Prod.mk.inj hread
        exact ⟨_, rfl, .refl _⟩
      rw [if_neg hodd] at hread ⊢
      -- then a line that skips a level, which finds no parent
      by_cases hdeep : limit < line.indent / 2
      · rw [if_pos hdeep] at hread
        obtain ⟨rfl, rfl⟩ := Prod.mk.inj hread
        rw [List.getElem?_eq_none (by omega)]
        exact ⟨_, rfl, .refl _⟩
      rw [if_neg hdeep] at hread
      obtain ⟨p, hp⟩ : ∃ p, k.parents[line.indent / 2]? = some p :=
        ⟨_, List.getElem?_eq_getElem (by omega)⟩
      have hvalue := loadValue_yields h hk
        (fun f => f (Position.ofTail text line.tail)) node.value
      rw [hp]
      -- then a value that cannot be read
      cases hcontent : content readNested (fun f => f (Position.ofTail text line.tail))
          node.value with
      | error e =>
        rw [hcontent] at hread hvalue
        obtain ⟨rfl, rfl⟩ := Prod.mk.inj hread
        obtain ⟨t, heq, hrestored⟩ := hvalue
        simp only [heq]
        exact ⟨t, rfl, hrestored⟩
      | ok c =>
        rw [hcontent] at hread hvalue
        obtain ⟨rfl, rfl⟩ := Prod.mk.inj hread
        set e : Doc.Entry := ⟨line.indent / 2, String.ofList node.name, c⟩ with he
        have hadd := Planting.add_eq (e := e) hp
        -- the node is now the parent for one level more
        have hlen : (k.add e).parents.length = e.depth + 1 + 1 := by
          rw [hadd]
          simp only [List.length_append, List.length_take, List.length_singleton, he]
          omega
        have hrest := ih (Prod.mk.eta : _ = entries readNested text (e.depth + 1) rest).symm
          (hk.add e) hlen
        have hloaded : loadValue nested (fun f => f (Position.ofTail text line.tail)) k.store
            node.value = (.ok (k.store.plantContent c).1, (k.store.plantContent c).2) := hvalue
        simp only [hloaded]
        rw [List.foldl_cons, hadd]
        rw [hadd] at hrest
        exact hrest

/-- A text that is read into a store comes to its document, planted as a whole. -/
theorem loadWithin_yields (fuel : Nat) : YieldsAll
    (fun text => match readWithin fuel text with
      | (docs, none) => .ok docs
      | (_, some e) => .error e)
    (loadWithin fuel) := by
  induction fuel with
  | zero =>
    intro s _ text
    rfl
  | succ fuel ih =>
    intro s hs text
    rw [loadWithin]
    simp only [readWithin]
    cases hscan : Line.scanAll text with
    | error tail => exact ⟨_, rfl, hs.restored_remove (wholeShape []) (.refl _)⟩
    | ok lines =>
      simp only
      set readNested : List Char → Except ReadError (List Doc) := fun text =>
        match readWithin fuel text with
        | (docs, none) => .ok docs
        | (_, some e) => .error e
      cases hread : entries readNested text 0 lines with
      | mk xs fault =>
        -- the lines up to the first faulty one are their document, planted as a whole
        have hmade := hs.node?_create_self "" none
        have hbal := (Evolves.create s "" none).balanced hs
        have hlines := loadLines_yields ih text (k := ⟨(s.create "" none).2, [(s.create "" none).1]⟩)
          hread hbal rfl
        have hplant : (xs.foldl Planting.add ⟨(s.create "" none).2, [(s.create "" none).1]⟩).store =
            (s.plant (wholeShape (Doc.ofEntries xs))).2 := by
          rw [planting_ofEntries (stepwise_entries hread).atDepth hbal rfl
            (isAlive_iff.2 ⟨_, hmade⟩), wholeShape, plant]
          rfl
        rw [hplant] at hlines
        have hroot : (s.plant (wholeShape (Doc.ofEntries xs))).1 = (s.create "" none).1 := by
          rw [wholeShape, plant]
          rfl
        cases fault with
        | none =>
          have hloaded : loadLines (loadWithin fuel) text (s.create "" none).2
            [(s.create "" none).1] lines = (.ok (), (s.plant (wholeShape (Doc.ofEntries xs))).2) :=
            hlines
          rw [hloaded]
          simp only [Yields, hroot]
        | some e =>
          obtain ⟨t, hloaded, hrestored⟩ := hlines
          simp only at hloaded
          rw [hloaded]
          have hback := hs.restored_remove _ hrestored
          rw [hroot] at hback
          exact ⟨_, rfl, hback⟩

/-- A text that is read into a store comes to its document, planted as a whole. -/
theorem load_yields (hs : Balanced s) (text : String) :
    Yields s (fun docs => s.plant (wholeShape docs)) (Document.read text) (s.load text) :=
  loadWithin_yields _ s hs _

theorem evolves_loadValue (h : ∀ t text, Evolves t (nested t text).2)
    (fault : (Position → ReadError) → ReadError) (s : Store) (value : Line.Value) :
    Evolves s (loadValue nested fault s value).2 := by
  cases value with
  | absent => exact .refl s
  | untyped text => exact .refl s
  | typed word text =>
    rw [loadValue]
    split
    next =>
      have hnested := h s text
      split <;> simpa [*] using hnested
    next => split <;> exact .refl s

theorem evolves_loadLines (h : ∀ t text, Evolves t (nested t text).2) (text : List Char)
    (lines : List Line) (s : Store) (parents : List Handle) :
    Evolves s (loadLines nested text s parents lines).2 := by
  induction lines generalizing s parents with
  | nil => exact .refl s
  | cons line rest ih =>
    rw [loadLines]
    split
    next => exact ih s parents
    next node _ =>
      simp only
      split
      next => exact .refl s
      next =>
        split
        next => exact .refl s
        next parent _ =>
          -- the value first, then the node with its link, then the other lines
          have hvalue := evolves_loadValue h (fun f => f (Position.ofTail text line.tail)) s
            node.value
          split
          next heq => simpa [heq] using hvalue
          next heq =>
            rw [heq] at hvalue
            exact (hvalue.trans ((Evolves.create _ _ _).trans (.link _ _ _ _))).trans (ih _ _)

theorem evolves_loadWithin (fuel : Nat) (s : Store) (text : List Char) :
    Evolves s (loadWithin fuel s text).2 := by
  induction fuel generalizing s text with
  | zero => exact .create s "" none
  | succ fuel ih =>
    rw [loadWithin]
    simp only
    split
    next => exact (Evolves.create s "" none).trans (.remove _ _)
    next lines _ =>
      have hlines := evolves_loadLines ih text lines (s.create "" none).2 [(s.create "" none).1]
      split
      next heq =>
        rw [heq] at hlines
        exact (Evolves.create s "" none).trans hlines
      next heq =>
        rw [heq] at hlines
        exact ((Evolves.create s "" none).trans hlines).trans (.remove _ _)

theorem Evolves.load (s : Store) (text : String) : Evolves s (s.load text).2 :=
  evolves_loadWithin _ s _

/-- A faultless text is read into a store as its document is planted. -/
theorem load_of_parse_eq_ok (hs : Balanced s) {text : String} {h : Handle}
    (hparse : s.parse text = .ok (h, t)) : s.load text = (.ok h, t) := by
  have hload := load_yields hs text
  unfold parse at hparse
  cases hread : Document.read text with
  | error e => simp [hread] at hparse
  | ok docs =>
    rw [hread] at hparse hload
    have hplant : s.plant (wholeShape docs) = (h, t) := Except.ok.inj hparse
    rw [Yields, hplant] at hload
    exact hload

/-- A faulty text is refused for the same reason, and leaves the nodes as they were. -/
theorem load_of_parse_eq_error (hs : Balanced s) {text : String} {e : ReadError}
    (hparse : s.parse text = .error e) : ∃ t, s.load text = (.error e, t) ∧ Restored s t := by
  have hload := load_yields hs text
  unfold parse at hparse
  cases hread : Document.read text with
  | ok docs => simp [hread] at hparse
  | error e' =>
    obtain rfl : e' = e := by simpa [hread] using hparse
    rw [hread] at hload
    exact hload

/-- No reading touches a node that was there. One that fails, for whatever fault on whatever line
of the text or of a document in it, leaves no other node either; one that succeeds gives a new
node without parent. -/
theorem load_leaves_nodes (hs : Balanced s) (text : String) :
    (∀ e t, s.load text = (.error e, t) →
      (∀ x, t.node? x = s.node? x) ∧ t.live = s.live) ∧
    ∀ root t, s.load text = (.ok root, t) →
      (∀ x n, s.node? x = some n → t.node? x = some n) ∧ s.isAlive root = false ∧
        ∃ n, t.node? root = some n ∧ n.parent = none := by
  cases hparse : s.parse text with
  | error e =>
    obtain ⟨t, hload, hrestored⟩ := load_of_parse_eq_error hs hparse
    rw [hload]
    refine ⟨fun e' t' heq => ?_, fun root t' heq => by simp at heq⟩
    obtain ⟨-, rfl⟩ := Prod.mk.inj heq
    exact ⟨hrestored.node?, hrestored.live_eq hs⟩
  | ok made =>
    rw [load_of_parse_eq_ok hs hparse]
    refine ⟨fun e t' heq => by simp at heq, fun root t' heq => ?_⟩
    obtain ⟨hroot, rfl⟩ := Prod.mk.inj heq
    obtain rfl := Except.ok.inj hroot
    have hplanted := (hs.sprouted_parse hparse).toPlanted
    exact ⟨fun _ _ hn => hplanted.keeps hn, not_isAlive_iff.2 hplanted.fresh, hplanted.root⟩

/-- A store with one node, of which one slot has been freed. -/
def worn : Store := ((empty.create "gone" none).2.create "kept" none).2.remove ⟨0, 0⟩

/-- The document on the second line is indented by one space on its own second line. -/
def faultyInside : String := "a\n  b:node:\"c\\n d\""

/-- A text with a document in it. -/
def soundInside : String := "a\n  b:node:\"c\\n  d\""

/-- A text that is faulty inside of a nested document, and one that is not, in a store that has been
used before. -/
theorem load_leaves_nodes_inside : Balanced worn ∧
    (∃ e t, worn.load faultyInside = (.error e, t) ∧ (∀ x, t.node? x = worn.node? x) ∧
      t.live = worn.live) ∧
    ∃ root t, worn.load soundInside = (.ok root, t) ∧ worn.isAlive root = false ∧
      (∀ x n, worn.node? x = some n → t.node? x = some n) := by
  have hworn : Balanced worn := (((Evolves.create _ _ _).trans (.create _ _ _)).trans
    (.remove _ _)).balanced balanced_empty
  refine ⟨hworn, ?_, ?_⟩
  -- the fault is in the nested document, behind a node that has been made
  · have hread : (Document.read faultyInside).toBool = false := by decide +kernel
    cases hdocs : Document.read faultyInside with
    | ok docs => simp [hdocs, Except.toBool] at hread
    | error e =>
      obtain ⟨t, hload, -⟩ := load_of_parse_eq_error hworn (show worn.parse faultyInside = _ by
        rw [parse, hdocs])
      exact ⟨e, t, hload, (load_leaves_nodes hworn faultyInside).1 e t hload⟩
  · have hread : (Document.read soundInside).toBool = true := by decide +kernel
    cases hdocs : Document.read soundInside with
    | error e => simp [hdocs, Except.toBool] at hread
    | ok docs =>
      have hload := load_of_parse_eq_ok hworn (show worn.parse soundInside = _ by
        rw [parse, hdocs])
      obtain ⟨hkept, hnew, -⟩ := (load_leaves_nodes hworn soundInside).2 _ _ hload
      exact ⟨_, _, hload, hnew, hkept⟩

end TreeScript.Store
