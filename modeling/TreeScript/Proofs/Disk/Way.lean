import Mathlib.Data.Set.Basic
import TreeScript.Disk

/-!
# TreeScript — the way of a path over a disk

A path is walked name by name, so an operation on it looks at the places on its way and
at no other, and changes no other. Two disks that hold the same on these places cannot be
told apart by it.

* `FilePath.steps`, `FilePath.way`, `FilePath.place` — the places on a path's way, and the
  last of them;
* `Disk.SameOn` — disks that hold the same on some places;
* `Disk.readText_congr`, `Disk.createFolders_congr`, `Disk.write_congr` — what is not on
  the way does not matter;
* `Disk.Grown`, `Disk.grown_save` — what is not on the way stays;
* `FilePath.place_join`, `FilePath.mem_way_join` — the way of a path behind another.
-/

namespace TreeScript

-- ---------------------------------------------------------------------------
-- Ways
-- ---------------------------------------------------------------------------

namespace FilePath

/-- The folder where a path begins. -/
def start (folder : List String) (p : FilePath) : List String := if p.absolute then [] else folder

/-- The places that names lead through, from a folder on. -/
def steps (place : List String) : List String → List (List String)
  | [] => []
  | name :: rest => Disk.stepFrom place name :: steps (Disk.stepFrom place name) rest

/-- The places that a path leads through, seen from a folder. -/
def way (folder : List String) (p : FilePath) : List (List String) := steps (p.start folder) p.names

/-- The place that a path leads to, seen from a folder. -/
def place (folder : List String) (p : FilePath) : List String :=
  p.names.foldl Disk.stepFrom (p.start folder)

/-- A way goes through the places of its first part and then through those of its second. -/
theorem steps_append (place names more : List String) :
    steps place (names ++ more) =
      steps place names ++ steps (names.foldl Disk.stepFrom place) more := by
  induction names generalizing place with
  | nil => rfl
  | cons name rest ih => simp [steps, ih]

/-- A longer way goes through all places of a shorter one. -/
theorem mem_steps_of_prefix_names {place names names' : List String} (h : names <+: names')
    {x : List String} (hx : x ∈ steps place names) : x ∈ steps place names' := by
  obtain ⟨more, rfl⟩ := h
  rw [steps_append]
  exact List.mem_append_left _ hx

/-- A way goes through the place at its end. -/
theorem mem_steps_foldl {place names : List String} (hne : names ≠ []) :
    names.foldl Disk.stepFrom place ∈ steps place names := by
  induction names generalizing place with
  | nil => exact absurd rfl hne
  | cons name rest ih =>
    by_cases hrest : rest = []
    · simp [hrest, steps]
    · exact List.mem_cons_of_mem _ (ih hrest)

/-- Without the dots at its end a path is the front of itself. -/
theorem dropDots_prefix_self (names : List String) : dropDots names <+: names := by
  unfold dropDots
  rw [← List.reverse_suffix, List.reverse_reverse]
  exact List.dropWhile_suffix _

/-- The folder of a path is on its way. -/
theorem mem_way_of_parent {folder : List String} {p : FilePath} {x : List String}
    (hx : x ∈ p.parent.way folder) : x ∈ p.way folder := by
  refine mem_steps_of_prefix_names ?_ hx
  exact (dropDots_prefix_self _).trans ((List.dropLast_prefix _).trans (dropDots_prefix_self _))

end FilePath

-- ---------------------------------------------------------------------------
-- Looking
-- ---------------------------------------------------------------------------

namespace Disk

open FilePath

variable {d d' : Disk} {W : Set (List String)}

/-- Disks that hold the same on some places. -/
def SameOn (W : Set (List String)) (d d' : Disk) : Prop := ∀ x ∈ W, d'.entry? x = d.entry? x

@[simp] theorem entry?_nil (d : Disk) : d.entry? [] = some .folder := rfl

/-- Following names looks at the places on the way only. -/
theorem follow_congr (h : SameOn W d d') {place names : List String}
    (hW : ∀ x ∈ steps place names, x ∈ W) : d'.follow place names = d.follow place names := by
  induction names generalizing place with
  | nil => rfl
  | cons name rest ih =>
    obtain ⟨hnext, hrest⟩ := List.forall_mem_cons.1 hW
    simp only [follow, h _ hnext, ih hrest]

/-- Names that can be followed lead to their place. -/
theorem follow_eq_ok {place names place' : List String} (hok : d.follow place names = .ok place') :
    place' = names.foldl stepFrom place := by
  induction names generalizing place with
  | nil => exact (Except.ok.inj hok).symm
  | cons name rest ih =>
    simp only [follow] at hok
    split at hok
    next => simp at hok
    next =>
      split at hok
      next => exact ih hok
      next => simp at hok
      next => simp at hok

variable {folder : List String} {p : FilePath}

/-- Entering the folder of a path looks at the places on the way only. -/
theorem enter_congr (h : SameOn W d d') (hW : ∀ x ∈ p.way folder, x ∈ W) :
    d'.enter folder p = d.enter folder p := by
  have hfollow : d'.follow (p.start folder) p.names.dropLast =
      d.follow (p.start folder) p.names.dropLast :=
    follow_congr h fun x hx =>
      hW x (mem_steps_of_prefix_names (List.dropLast_prefix _) hx)
  unfold enter
  split
  next => rfl
  next =>
    split
    next => rfl
    next => exact hfollow

/-- Finding a file looks at the places on the way only. -/
theorem locate_congr (h : SameOn W d d') (hW : ∀ x ∈ p.way folder, x ∈ W) :
    d'.locate folder p = d.locate folder p := by
  unfold locate
  rw [enter_congr h hW]

/-- The place that a path leads to is the top or the last place on the path's way. -/
theorem locate_eq_ok {place : List String} (hok : d.locate folder p = .ok place) :
    place = p.place folder ∧ (place = [] ∨ place ∈ p.way folder) := by
  unfold locate at hok
  cases henter : d.enter folder p with
  | error e => simp [henter, bind, Except.bind] at hok
  | ok entered =>
    -- the folder is entered step by step, so it is where the names lead
    have hentered : entered = p.names.dropLast.foldl stepFrom (p.start folder) ∧
        ¬ (p.names = [] ∧ p.absolute = false) := by
      unfold enter at henter
      split at henter
      next => simp at henter
      next hne =>
        split at henter
        next => simp at henter
        next => exact ⟨follow_eq_ok henter, by simpa using hne⟩
    obtain ⟨hentered, hne⟩ := hentered
    simp only [henter, bind, Except.bind] at hok
    split at hok
    -- a path without names is the root, else it would not have been entered
    next hlast =>
      rw [List.getLast?_eq_none_iff] at hlast
      have habs : p.absolute = true := by
        by_contra hrel
        exact hne ⟨hlast, by simpa using hrel⟩
      obtain rfl := Except.ok.inj hok
      rw [hentered, FilePath.place, hlast]
      exact ⟨rfl, Or.inl (by simp [start, habs])⟩
    next name hlast =>
      split at hok
      next =>
        obtain rfl := Except.ok.inj hok
        have hnames : p.names = p.names.dropLast ++ [name] := by
          obtain ⟨front, hfront⟩ := List.getLast?_eq_some_iff.1 hlast
          simp [hfront]
        have hplace : stepFrom entered name = p.place folder := by
          rw [FilePath.place, hnames, List.foldl_append, hentered]
          simp
        refine ⟨hplace, Or.inr ?_⟩
        rw [hplace]
        exact mem_steps_foldl (by rw [hnames]; simp)
      next => simp at hok

/-- What a path leads to is the same on both disks. -/
theorem SameOn.entry?_of_locate (h : SameOn W d d') (hW : ∀ x ∈ p.way folder, x ∈ W)
    {place : List String} (hok : d.locate folder p = .ok place) :
    d'.entry? place = d.entry? place := by
  rcases (locate_eq_ok hok).2 with rfl | hmem
  · rfl
  · exact h place (hW place hmem)

variable {path : String}

/-- Reading a file depends on the places on its way only. -/
theorem readText_congr (h : SameOn W d d') (hW : ∀ x ∈ (FilePath.ofString path).way folder, x ∈ W) :
    d'.readText folder path = d.readText folder path := by
  have hbytes : d'.readBytes folder path = d.readBytes folder path := by
    unfold readBytes
    simp only
    rw [locate_congr h hW]
    cases hlocate : d.locate folder (FilePath.ofString path) with
    | error e => rfl
    | ok place =>
      simp only [bind, Except.bind]
      rw [h.entry?_of_locate hW hlocate]
  unfold readText
  rw [hbytes]

-- ---------------------------------------------------------------------------
-- Changing
-- ---------------------------------------------------------------------------

/-- What has been put at a place is found there, and everything else where it was; the top is always
a folder. -/
theorem entry?_put (d : Disk) (place : List String) (e : DiskEntry) (x : List String) :
    Disk.entry? (d.put place e) x =
      if x = [] then some .folder else if x = place then some e else d.entry? x := by
  unfold entry? put
  by_cases hnil : x = []
  · simp [hnil]
  · by_cases heq : x = place
    · simp [heq]
    · have hne : (place == x) = false := by simpa using fun h => heq h.symm
      have hfind : ∀ l : List (List String × DiskEntry),
          (l.filter fun y => y.1 != place).find? (fun y => y.1 == x) =
            l.find? fun y => y.1 == x := by
        intro l
        rw [List.find?_filter]
        congr 1
        funext y
        by_cases hy : y.1 = x
        · simp [hy, heq]
        · simp [hy]
      simp [hnil, heq, hne, hfind]

/-- The same put on two disks leaves them the same where they were. -/
theorem SameOn.put (h : SameOn W d d') (place : List String) (e : DiskEntry) :
    SameOn W (d.put place e) (d'.put place e) := by
  intro x hx
  rw [entry?_put, entry?_put, h x hx]

/-- Making folders looks at the places on the way only, and makes the same on both disks. -/
theorem createFrom_congr (h : SameOn W d d') (made : Bool) {place names : List String}
    (hW : ∀ x ∈ steps place names, x ∈ W) :
    (d'.createFrom made place names).2 = (d.createFrom made place names).2 ∧
      SameOn W (d.createFrom made place names).1 (d'.createFrom made place names).1 := by
  induction names generalizing d d' made place with
  | nil => exact ⟨rfl, h⟩
  | cons name rest ih =>
    obtain ⟨hnext, hrest⟩ := List.forall_mem_cons.1 hW
    simp only [createFrom, h _ hnext]
    split
    next => exact ⟨rfl, h⟩
    next =>
      split
      next => exact ih h made hrest
      next => exact ⟨rfl, h⟩
      next => exact ih (h.put _ _) true hrest

/-- Making folders depends on the places on the way only, and so does what is there then. -/
theorem createFolders_congr (h : SameOn W d d') (hW : ∀ x ∈ p.way folder, x ∈ W) :
    (d'.createFolders folder p).2 = (d.createFolders folder p).2 ∧
      SameOn W (d.createFolders folder p).1 (d'.createFolders folder p).1 := by
  unfold createFolders
  split
  next => exact ⟨rfl, h⟩
  next => exact createFrom_congr h false hW

/-- A disk later on: all is as it was, but there may be new folders at some places where
nothing was, and some places may hold anything. -/
def Grown (made files : Set (List String)) (d d' : Disk) : Prop :=
  ∀ x, d'.entry? x = d.entry? x ∨
    (x ∈ made ∧ d.entry? x = none ∧ d'.entry? x = some .folder) ∨ x ∈ files

theorem Grown.refl (made files : Set (List String)) (d : Disk) : Grown made files d d :=
  fun _ => Or.inl rfl

theorem Grown.trans {made files : Set (List String)} {d d' d'' : Disk}
    (h : Grown made files d d') (h' : Grown made files d' d'') : Grown made files d d'' := by
  intro x
  rcases h' x with hsame | ⟨hmade, hwas, hnew⟩ | hfile
  · rw [hsame]
    exact h x
  · rcases h x with hsame | ⟨-, -, hfolder⟩ | hfile
    · exact Or.inr (Or.inl ⟨hmade, hsame ▸ hwas, hnew⟩)
    · rw [hfolder] at hwas
      cases hwas
    · exact Or.inr (Or.inr hfile)
  · exact Or.inr (Or.inr hfile)

variable {made files : Set (List String)}

/-- A new folder at a place where nothing was. -/
theorem grown_put_folder {place : List String} (hmade : place ∈ made)
    (hnone : d.entry? place = none) : Grown made files d (d.put place .folder) := by
  intro x
  rw [entry?_put]
  by_cases hnil : x = []
  · simp [hnil]
  · by_cases heq : x = place
    · subst heq
      exact Or.inr (Or.inl ⟨hmade, hnone, by simp⟩)
    · simp [hnil, heq]

/-- A file at one of the places for files. -/
theorem grown_put_file {place : List String} (hfile : place ∈ files) (e : DiskEntry) :
    Grown made files d (d.put place e) := by
  intro x
  rw [entry?_put]
  by_cases hnil : x = []
  · simp [hnil]
  · by_cases heq : x = place
    · subst heq
      exact Or.inr (Or.inr hfile)
    · simp [hnil, heq]

/-- Making folders adds folders on the way only. -/
theorem grown_createFrom (d : Disk) (taken : Bool) {place names : List String}
    (hmade : ∀ x ∈ steps place names, x ∈ made) :
    Grown made files d (d.createFrom taken place names).1 := by
  induction names generalizing d taken place with
  | nil => exact Grown.refl _ _ _
  | cons name rest ih =>
    obtain ⟨hnext, hrest⟩ := List.forall_mem_cons.1 hmade
    simp only [createFrom]
    split
    next => exact Grown.refl _ _ _
    next =>
      split
      next => exact ih d taken hrest
      next => exact Grown.refl _ _ _
      next hnone => exact (grown_put_folder hnext hnone).trans (ih _ true hrest)

/-- Making folders changes nothing but that there are folders where nothing was, on the way. -/
theorem grown_createFolders (d : Disk) (hmade : ∀ x ∈ p.way folder, x ∈ made) :
    Grown made files d (d.createFolders folder p).1 := by
  unfold createFolders
  split
  next => exact Grown.refl _ _ _
  next => exact grown_createFrom d false hmade

variable {bytes : List UInt8}

/-- A file that is written stands at the place of its path, and all else is as it was. -/
theorem write_eq_ok {d₁ : Disk} (hok : d.write folder path bytes = .ok d₁) :
    d₁ = d.put ((FilePath.ofString path).place folder) (.file bytes) ∧
      (FilePath.ofString path).place folder ∈ (FilePath.ofString path).way folder := by
  unfold write at hok
  simp only at hok
  cases henter : d.enter folder (FilePath.ofString path) with
  | error e => simp [henter, bind, Except.bind] at hok
  | ok entered =>
    simp only [henter, bind, Except.bind] at hok
    split at hok
    next => simp at hok
    next =>
      -- the place is on the way, and it is not the root because that is a folder
      cases hlocate : d.locate folder (FilePath.ofString path) with
      | error e => simp [hlocate] at hok
      | ok place =>
        obtain ⟨hplace, hmem⟩ := locate_eq_ok hlocate
        simp only [hlocate] at hok
        split at hok
        next => simp at hok
        next hfile =>
          obtain rfl := Except.ok.inj hok
          rw [← hplace]
          refine ⟨rfl, hmem.resolve_left ?_⟩
          rintro rfl
          simp at hfile

/-- Whether a file can be written depends on the places on its way only, and so does what
is there then. -/
theorem write_congr (h : SameOn W d d') (hW : ∀ x ∈ (FilePath.ofString path).way folder, x ∈ W) :
    (∀ e, d.write folder path bytes = .error e → d'.write folder path bytes = .error e) ∧
      ∀ d₁, d.write folder path bytes = .ok d₁ →
        ∃ d₂, d'.write folder path bytes = .ok d₂ ∧ SameOn W d₁ d₂ := by
  unfold write
  simp only
  -- both disks are looked at along the way only
  rw [enter_congr h hW, locate_congr h hW]
  cases d.enter folder (FilePath.ofString path) with
  | error e => simp [bind, Except.bind]
  | ok entered =>
    simp only [bind, Except.bind]
    cases (FilePath.ofString path).trailing with
    | true => simp
    | false =>
      simp only [Bool.false_eq_true, if_false]
      cases hlocate : d.locate folder (FilePath.ofString path) with
      | error e => simp
      | ok place =>
        simp only
        rw [h.entry?_of_locate hW hlocate]
        have hput := h.put place (.file bytes)
        cases d.entry? place with
        | none => simpa using hput
        | some e =>
          cases e with
          | folder => simp
          | file _ => simpa using hput

/-- Writes a file, with the folders on its way. What was done before an error stays. -/
def save (d : Disk) (folder : List String) (path : String) (bytes : List UInt8) :
    Disk × Option FileError :=
  match d.createFolders folder (FilePath.ofString path).parent with
  | (made, some e) => (made, some e)
  | (made, none) =>
    match made.write folder path bytes with
    | .error e => (made, some e)
    | .ok written => (written, none)

/-- Writing with the folders depends on the places on the way only, and so does what is
there then. -/
theorem save_congr (h : SameOn W d d') (hW : ∀ x ∈ (FilePath.ofString path).way folder, x ∈ W) :
    (d'.save folder path bytes).2 = (d.save folder path bytes).2 ∧
      SameOn W (d.save folder path bytes).1 (d'.save folder path bytes).1 := by
  have hparent : ∀ x ∈ (FilePath.ofString path).parent.way folder, x ∈ W :=
    fun x hx => hW x (mem_way_of_parent hx)
  obtain ⟨herror, hmade⟩ := createFolders_congr h hparent
  unfold save
  -- the folders are made alike, then the file is written alike
  generalize d.createFolders folder (FilePath.ofString path).parent = r at *
  generalize d'.createFolders folder (FilePath.ofString path).parent = r' at *
  obtain ⟨made, error⟩ := r
  obtain ⟨made', error'⟩ := r'
  obtain rfl : error' = error := herror
  cases error' with
  | some e => exact ⟨rfl, hmade⟩
  | none =>
    dsimp only at hmade ⊢
    obtain ⟨hfail, hok⟩ := write_congr hmade hW
    cases hwrite : made.write folder path bytes with
    | error e =>
      rw [hfail e hwrite]
      exact ⟨rfl, hmade⟩
    | ok written =>
      obtain ⟨written', hwrite', hsame⟩ := hok written hwrite
      rw [hwrite']
      exact ⟨rfl, hsame⟩

/-- Writing with the folders changes the place of the path, and makes folders on the way. -/
theorem grown_save (d : Disk) (folder : List String) (path : String) (bytes : List UInt8)
    (hmade : ∀ x ∈ (FilePath.ofString path).way folder, x ∈ made)
    (hfile : (FilePath.ofString path).place folder ∈ files) :
    Grown made files d (d.save folder path bytes).1 := by
  have hfolders : Grown made files d
      (d.createFolders folder (FilePath.ofString path).parent).1 :=
    grown_createFolders d fun x hx => hmade x (mem_way_of_parent hx)
  unfold save
  generalize d.createFolders folder (FilePath.ofString path).parent = r at *
  obtain ⟨made₁, error⟩ := r
  cases error with
  | some e => exact hfolders
  | none =>
    dsimp only at hfolders ⊢
    cases hwrite : made₁.write folder path bytes with
    | error e => exact hfolders
    | ok written =>
      obtain ⟨rfl, -⟩ := write_eq_ok hwrite
      exact hfolders.trans (grown_put_file hfile _)

end Disk

-- ---------------------------------------------------------------------------
-- A path behind another
-- ---------------------------------------------------------------------------

namespace FilePath

open Disk

theorem splitOn_append_cons (front back : List Char) :
    (front ++ '/' :: back).splitOn '/' = front.splitOn '/' ++ back.splitOn '/' := by
  unfold List.splitOn
  induction front with
  | nil => simp [List.splitOnP_cons_eq_if_modifyHead]
  | cons c front ih =>
    rw [List.cons_append, List.splitOnP_cons_eq_if_modifyHead, List.splitOnP_cons_eq_if_modifyHead,
      ih]
    split
    next => rfl
    next =>
      cases hsplit : front.splitOnP fun x => x == '/' with
      | nil => exact absurd hsplit (List.splitOnP_ne_nil _ _)
      | cons a as => simp

/-- A part between slashes stands in the text. -/
theorem infix_of_mem_splitOn {cs part : List Char} (h : part ∈ cs.splitOn '/') : part <:+: cs := by
  have hinfix : ∀ parts : List (List Char), part ∈ parts → part <:+: ['/'].intercalate parts := by
    intro parts
    induction parts with
    | nil => simp
    | cons a rest ih =>
      intro hmem
      cases rest with
      | nil => simp_all
      | cons b rest =>
        rw [List.intercalate_cons_cons]
        rcases List.mem_cons.1 hmem with rfl | hmem
        · exact ((List.prefix_append _ _).trans (List.prefix_append _ _)).isInfix
        · exact (ih hmem).trans (List.suffix_append _ _).isInfix
  have hall := hinfix _ h
  rwa [List.intercalate_splitOn] at hall

/-- The names of a path are what stands between its slashes, if that is something. -/
theorem names_eq (text : String) : (ofString text).names =
    ((text.toList.splitOn '/').filter (· != [])).map String.ofList := rfl

/-- The names of a path behind another are the names of both. -/
theorem names_join {front back : String} (hback : back.toList.head? ≠ some '/') :
    (ofString (join front back)).names = (ofString front).names ++ (ofString back).names := by
  unfold join
  by_cases hfront : front = ""
  · subst hfront
    rw [if_pos (Or.inr rfl)]
    have hempty : (ofString "").names = [] := by decide
    rw [hempty, List.nil_append]
  · rw [if_neg (by simp [hback, hfront])]
    split
    next hslash =>
      obtain ⟨cs, hcs⟩ := List.getLast?_eq_some_iff.1 hslash
      rw [names_eq, names_eq, names_eq, String.toList_append, hcs, List.append_assoc]
      simp [splitOn_append_cons]
    next => simp [names_eq, String.toList_append, splitOn_append_cons]

/-- A path behind another begins where that one begins. -/
theorem start_join {front back : String} (hback : back.toList.head? ≠ some '/')
    (folder : List String) :
    (ofString (join front back)).start folder = (ofString front).start folder := by
  have habs : (ofString (join front back)).absolute = (ofString front).absolute := by
    unfold join
    by_cases hfront : front = ""
    · subst hfront
      rw [if_pos (Or.inr rfl)]
      simp [ofString, hback]
    · rw [if_neg (by simp [hback, hfront])]
      have hne : front.toList ≠ [] := by simpa using hfront
      obtain ⟨c, cs, hcs⟩ := List.exists_cons_of_ne_nil hne
      split <;> simp [ofString, hcs]
  rw [start, start, habs]

/-- Names without two dots lead further down. -/
theorem foldl_stepFrom {names : List String} (h : ".." ∉ names) (place : List String) :
    names.foldl stepFrom place = place ++ names.filter (· ≠ ".") := by
  induction names generalizing place with
  | nil => simp
  | cons name rest ih =>
    rw [List.mem_cons, not_or] at h
    obtain ⟨hname, hrest⟩ := h
    rw [List.foldl_cons, ih hrest, stepFrom]
    by_cases hdot : name = "."
    · simp [hdot]
    · simp [hdot, Ne.symm hname]

/-- Every place that such names lead through is below the one where they begin. -/
theorem prefix_of_mem_steps {names : List String} (h : ".." ∉ names) {place x : List String}
    (hx : x ∈ steps place names) : place <+: x := by
  induction names generalizing place with
  | nil => simp [steps] at hx
  | cons name rest ih =>
    rw [List.mem_cons, not_or] at h
    obtain ⟨hname, hrest⟩ := h
    have hnext : place <+: stepFrom place name := by
      unfold stepFrom
      rw [if_neg (Ne.symm hname)]
      split
      next => exact List.prefix_refl _
      next => exact List.prefix_append _ _
    rcases List.mem_cons.1 hx with rfl | hx
    · exact hnext
    · exact hnext.trans (ih hrest hx)

variable {front back : String} {folder : List String}

/-- A path behind another leads to its own names below the place of the other. -/
theorem place_join (hback : back.toList.head? ≠ some '/') (hdots : ".." ∉ (ofString back).names) :
    (ofString (join front back)).place folder =
      (ofString front).place folder ++ (ofString back).names.filter (· ≠ ".") := by
  rw [place, start_join hback, names_join hback, List.foldl_append, foldl_stepFrom hdots]
  rfl

/-- The way of a path behind another is the way of the other, and then below its place. -/
theorem mem_way_join (hback : back.toList.head? ≠ some '/')
    (hdots : ".." ∉ (ofString back).names) {x : List String}
    (hx : x ∈ (ofString (join front back)).way folder) :
    x ∈ (ofString front).way folder ∨ (ofString front).place folder <+: x := by
  rw [way, start_join hback, names_join hback, steps_append, List.mem_append] at hx
  exact hx.imp id (prefix_of_mem_steps hdots)

end FilePath

end TreeScript
