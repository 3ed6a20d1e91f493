import Mathlib.Data.List.TakeWhile
import TreeScript.Keyword.Files
import TreeScript.Proofs.Disk.Way
import TreeScript.Proofs.Engine.Run

/-!
# TreeScript — keywords for files stay below the file root

What a call of a keyword looks at and changes on the disk is told by comparison: on two
disks that hold the same on some places the call ends in the same way, and all other
places stay as they are. These places are the ways of paths that the guard has allowed,
up to the first that it refuses; and every such way goes to the file root and then only
further down.

* `TouchesOnly` — a computation that touches some places of the disk only;
* `TouchesOnly.bind`, `TouchesOnly.bind_get`, `Diskless` — rules;
* `BelowRoot`, `belowRoot_of_isSane` — where a program's path leads to;
* `loadable`, `savable`, `Cleared` — the paths that a call may touch;
* `touchesOnly_loadFile`, `touchesOnly_saveFile` — the keywords;
* `file_keywords_stay_below_root` — the keywords touch what is below the file root.
-/

namespace TreeScript

open Disk

/-- The same session with another disk. -/
def Session.withDisk (σ : Session) (d : Disk) : Session := { σ with disk := d }

namespace Engine

variable {α β : Type}

/-- The disk at the end of a computation, however it ends. -/
def diskOf : EStateM.Result Halt Session α → Disk
  | .ok _ σ => σ.disk
  | .error _ σ => σ.disk

/-- The same end with another disk. -/
def onDisk (d : Disk) : EStateM.Result Halt Session α → EStateM.Result Halt Session α
  | .ok a σ => .ok a (σ.withDisk d)
  | .error e σ => .error e (σ.withDisk d)

/-- An end put on another disk has that disk. -/
@[simp] theorem diskOf_onDisk (d : Disk) (r : EStateM.Result Halt Session α) :
    diskOf (onDisk d r) = d := by
  cases r <;> rfl

/-- Of two disks put under an end, the last one counts. -/
@[simp] theorem onDisk_onDisk (d d' : Disk) (r : EStateM.Result Halt Session α) :
    onDisk d' (onDisk d r) = onDisk d' r := by
  cases r <;> rfl

-- ---------------------------------------------------------------------------
-- Computations that touch some places only
-- ---------------------------------------------------------------------------

/-- A computation that looks at no places of the disk but those in `seen`, so that it
does the same on every disk that holds the same there, and that changes none but by new
folders in `made` and whatever is put in `files`. -/
structure TouchesOnly (seen made files : Set (List String)) (x : Engine α) (σ : Session) :
    Prop where
  grown : Grown made files σ.disk (diskOf (x σ))
  blind (d : Disk) : SameOn seen σ.disk d →
    ∃ d', x (σ.withDisk d) = onDisk d' (x σ) ∧ SameOn seen (diskOf (x σ)) d'

/-- A computation that does not touch the disk. -/
def Diskless (x : Engine α) : Prop := ∀ σ d, x (σ.withDisk d) = onDisk d (x σ)

variable {seen made files : Set (List String)}

/-- A computation that does not touch the disk leaves it as it was. -/
theorem Diskless.diskOf {x : Engine α} (hx : Diskless x) (σ : Session) : diskOf (x σ) = σ.disk := by
  have h := congrArg Engine.diskOf (hx σ σ.disk)
  rwa [diskOf_onDisk] at h

/-- A computation that does not touch the disk touches nothing but the given places. -/
theorem Diskless.touchesOnly {x : Engine α} (hx : Diskless x) (σ : Session) :
    TouchesOnly seen made files x σ :=
  ⟨by rw [hx.diskOf]; exact Grown.refl _ _ _, fun d hd => ⟨d, hx σ d, by rwa [hx.diskOf]⟩⟩

/-- One computation after another: what follows has to touch the given places only in the sessions
that it is run in. -/
theorem TouchesOnly.bind {x : Engine α} {f : α → Engine β} {σ : Session}
    (hx : TouchesOnly seen made files x σ)
    (hf : ∀ a σ', x σ = .ok a σ' → TouchesOnly seen made files (f a) σ') :
    TouchesOnly seen made files (x >>= f) σ := by
  obtain ⟨hgrown, hblind⟩ := hx
  cases hr : x σ with
  -- what follows starts on the disk that the first step left, which was blind to the same files
  | ok a σ' =>
    have hrun : (x >>= f) σ = f a σ' := by rw [bind_apply, hr]
    rw [hr] at hgrown hblind
    refine ⟨by rw [hrun]; exact hgrown.trans (hf a σ' hr).grown, fun d hd => ?_⟩
    obtain ⟨d', hrun', hsame⟩ := hblind d hd
    obtain ⟨d'', hlast, hsame'⟩ := (hf a σ' hr).blind d' hsame
    refine ⟨d'', ?_, by rwa [hrun]⟩
    rw [bind_apply, hrun', hrun]
    exact hlast
  -- nothing follows a failure
  | error e σ' =>
    have hrun : (x >>= f) σ = .error e σ' := by rw [bind_apply, hr]
    rw [hr] at hgrown hblind
    refine ⟨by rwa [hrun], fun d hd => ?_⟩
    obtain ⟨d', hrun', hsame⟩ := hblind d hd
    refine ⟨d', ?_, by rwa [hrun]⟩
    rw [bind_apply, hrun', hrun]
    rfl

/-- What is made of the session must be the same on every disk that holds the same. -/
theorem TouchesOnly.bind_get {k : Session → Engine α} {σ : Session}
    (hsame : ∀ d, SameOn seen σ.disk d → k (σ.withDisk d) = k σ)
    (hk : TouchesOnly seen made files (k σ) σ) : TouchesOnly seen made files (get >>= k) σ := by
  refine ⟨hk.grown, fun d hd => ?_⟩
  obtain ⟨d', hrun, hd'⟩ := hk.blind d hd
  refine ⟨d', ?_, hd'⟩
  show k (σ.withDisk d) (σ.withDisk d) = _
  rw [hsame d hd]
  exact hrun

theorem TouchesOnly.bind_nodes {k : Store → Engine α} {σ : Session}
    (hk : TouchesOnly seen made files (k σ.nodes) σ) :
    TouchesOnly seen made files (Engine.nodes >>= k) σ :=
  ⟨hk.grown, hk.blind⟩

theorem TouchesOnly.bind_lift {r : Except Halt β} {k : β → Engine α} {σ : Session}
    (hk : ∀ b, r = .ok b → TouchesOnly seen made files (k b) σ) :
    TouchesOnly seen made files (liftM r >>= k) σ := by
  cases r with
  | ok b => exact hk b rfl
  | error e => exact Diskless.touchesOnly (fun _ _ => rfl) σ

theorem TouchesOnly.bind_liftFault {r : Except Fault β} {k : β → Engine α} {σ : Session}
    (hk : ∀ b, r = .ok b → TouchesOnly seen made files (k b) σ) :
    TouchesOnly seen made files (liftM r >>= k) σ := by
  cases r with
  | ok b => exact hk b rfl
  | error e => exact Diskless.touchesOnly (fun _ _ => rfl) σ

/-- A computation that puts another disk in place, and then does not touch it. -/
theorem TouchesOnly.of_disk {x y : Engine α} {σ : Session} {d₁ : Disk} (hy : Diskless y)
    (hrun : x σ = y (σ.withDisk d₁)) (hgrown : Grown made files σ.disk d₁)
    (hsame : ∀ d, SameOn seen σ.disk d →
      ∃ d₂, x (σ.withDisk d) = y (σ.withDisk d₂) ∧ SameOn seen d₁ d₂) :
    TouchesOnly seen made files x σ := by
  have hdisk : diskOf (x σ) = d₁ := by
    rw [hrun, hy σ d₁, diskOf_onDisk]
  refine ⟨by rwa [hdisk], fun d hd => ?_⟩
  obtain ⟨d₂, hrun₂, hd₂⟩ := hsame d hd
  refine ⟨d₂, ?_, by rwa [hdisk]⟩
  rw [hrun₂, hrun, hy σ d₁, hy σ d₂, onDisk_onDisk]

namespace Diskless

theorem pure (a : α) : Diskless (Pure.pure a) := fun _ _ => rfl

theorem bind {x : Engine α} {f : α → Engine β} (hx : Diskless x) (hf : ∀ a, Diskless (f a)) :
    Diskless (x >>= f) := by
  intro σ d
  rw [bind_apply, bind_apply, hx σ d]
  cases x σ with
  | ok a σ' => exact hf a σ' d
  | error e σ' => rfl

theorem nodes : Diskless Engine.nodes := fun _ _ => rfl

theorem lift (r : Except Halt α) : Diskless (liftM r : Engine α) := by
  intro σ d
  cases r <;> rfl

theorem liftFault (r : Except Fault α) : Diskless (liftM r : Engine α) := by
  intro σ d
  cases r <;> rfl

/-- An edit of the nodes, whatever it does to them. -/
theorem change (f : Store → Except Fault (α × Store)) : Diskless (Engine.change f) := by
  intro σ d
  unfold Engine.change
  rw [show (σ.withDisk d).nodes = σ.nodes from rfl]
  cases f σ.nodes <;> rfl

theorem remove (h : Handle) : Diskless (Engine.remove h) := by
  unfold Engine.remove Engine.edit
  exact change _

theorem setValue (h : Handle) (v : Option Value) : Diskless (Engine.setValue h v) := by
  unfold Engine.setValue Engine.edit
  exact change _

theorem add (parent : Handle) (name : String) (v : Option Value) :
    Diskless (Engine.add parent name v) := by
  unfold Engine.add
  exact change _

theorem fail (h : Handle) (f : NodeContext → Failure) : Diskless (Engine.fail h f : Engine α) :=
  nodes.bind fun s => lift (s.fail h f)

theorem forM {f : α → Engine Unit} (hf : ∀ a, Diskless (f a)) (as : List α) :
    Diskless (as.forM f) := by
  induction as with
  | nil => exact pure _
  | cons a rest ih => exact (hf a).bind fun _ => ih

end Diskless

end Engine

-- ---------------------------------------------------------------------------
-- Where a program's path leads to
-- ---------------------------------------------------------------------------

namespace Keyword

open Engine

/-- A program's path as the disk sees it: a path behind the file root that neither starts
at the top nor goes up. So the way to it is the way of the file root, and then stays below
the root's place. -/
structure BelowRoot (settings : Settings) (path : String) : Prop where
  behind : ∃ back, diskPath settings path = FilePath.join settings.fileRoot back ∧
    back.toList.head? ≠ some '/' ∧ ".." ∉ (FilePath.ofString back).names
  place (folder : List String) : (FilePath.ofString settings.fileRoot).place folder <+:
    (FilePath.ofString (diskPath settings path)).place folder
  way (folder x : List String) : x ∈ (FilePath.ofString (diskPath settings path)).way folder →
    x ∈ (FilePath.ofString settings.fileRoot).way folder ∨
      (FilePath.ofString settings.fileRoot).place folder <+: x

/-- Two characters next to each other that pass two tests are found by the search for such a pair.
-/
theorem hasPair_of_infix {p q : Char → Bool} {a b : Char} {cs : List Char} (ha : p a = true)
    (hb : q b = true) (h : [a, b] <:+: cs) : Access.hasPair p q cs = true := by
  obtain ⟨front, back, rfl⟩ := h
  induction front with
  | nil => simp [Access.hasPair, ha, hb]
  | cons c front ih =>
    cases front with
    | nil => simp_all [Access.hasPair]
    | cons d front =>
      simp only [List.cons_append, Access.hasPair, Bool.or_eq_true]
      exact Or.inr ih

/-- The names of a path of the proper form do not go up. -/
theorem not_mem_names_of_isSane {path : String} (hpath : Access.isSane path = true) :
    ".." ∉ (FilePath.ofString (String.ofList (path.toList.dropWhile (· == '/')))).names := by
  intro hmem
  rw [FilePath.names_eq, String.toList_ofList, List.mem_map] at hmem
  obtain ⟨part, hpart, hname⟩ := hmem
  have hdots : part = ['.', '.'] := by
    rw [← @String.toList_ofList part, hname]
    rfl
  subst hdots
  have hinfix := (FilePath.infix_of_mem_splitOn (List.mem_filter.1 hpart).1).trans
    (List.dropWhile_suffix _).isInfix
  have hpair := hasPair_of_infix (p := (· == '.')) (q := (· == '.')) rfl rfl hinfix
  simp [Access.isSane, hpair] at hpath

/-- A path that is let through as sane leads below the file root: it has no way up and does not
start at the top. -/
theorem belowRoot_of_isSane (settings : Settings) {path : String}
    (hpath : Access.isSane path = true) : BelowRoot settings path := by
  have hhead : (String.ofList (path.toList.dropWhile (· == '/'))).toList.head? ≠ some '/' := by
    rw [String.toList_ofList]
    intro h
    have := List.head?_dropWhile_not (· == '/') path.toList
    simp [h] at this
  have hdots := not_mem_names_of_isSane hpath
  refine ⟨⟨_, rfl, hhead, hdots⟩, fun folder => ?_, fun folder x hx => ?_⟩
  · rw [diskPath, FilePath.place_join hhead hdots]
    exact List.prefix_append _ _
  · exact FilePath.mem_way_join hhead hdots hx

/-- What a guard allows it has found sane, whatever its rules say. -/
theorem isSane_of_check {t : Ticket} {path : String} {allowed : Bool}
    (h : Guard.check t path allowed = .ok ()) : Access.isSane path = true := by
  unfold Guard.check at h
  split at h
  next => simp at h
  next hsane => simpa using hsane

-- ---------------------------------------------------------------------------
-- The paths of a call
-- ---------------------------------------------------------------------------

/-- The paths in front of the first one that is refused. -/
def admitted (verdict : String → Except Denied Unit) (paths : List String) : List String :=
  paths.takeWhile fun path => (verdict path).isOk

/-- The paths that a keyword's node leads to. -/
def pathsOf (h : Handle) (σ : Session) : List String :=
  match σ.nodes.strings h with
  | .ok paths => paths
  | .error _ => []

/-- The paths that a call may read. -/
def loadable (scope : Scope) (h : Handle) (σ : Session) : List String :=
  admitted (scope.settings.access.read σ.ticket) (pathsOf h σ)

/-- The paths that a call may write, which is one at most. -/
def savable (scope : Scope) (h : Handle) (σ : Session) : List String :=
  admitted (scope.settings.access.modify σ.ticket) ((pathsOf h σ).take 1)

/-- Paths that a call may touch out of all that it is given: allowed ones below the file
root, and none behind one that is refused. -/
structure Cleared (settings : Settings) (verdict : String → Except Denied Unit)
    (given paths : List String) : Prop where
  allowed (path : String) : path ∈ paths → verdict path = .ok ()
  below (path : String) : path ∈ paths → BelowRoot settings path
  stops (front : List String) (path : String) (rest : List String) :
    given = front ++ path :: rest → verdict path ≠ .ok () → paths <+: front

/-- The places that the ways of some paths go through. -/
def territory (settings : Settings) (paths : List String) : Set (List String) :=
  { x | ∃ path ∈ paths, x ∈ (FilePath.ofString (diskPath settings path)).way settings.workFolder }

/-- A verdict that is good is the only good one. -/
theorem eq_ok_of_isOk {r : Except Denied Unit} (h : r.isOk = true) : r = .ok () := by
  cases r with
  | ok _ => rfl
  | error _ => simp [Except.isOk, Except.toBool] at h

/-- The paths behind a refused one are not admitted. -/
theorem admitted_prefix {verdict : String → Except Denied Unit} {front rest : List String}
    {path : String} (hrefused : verdict path ≠ .ok ()) :
    admitted verdict (front ++ path :: rest) <+: front := by
  have hstop : (verdict path).isOk ≠ true := fun hok => hrefused (eq_ok_of_isOk hok)
  unfold admitted
  rw [List.takeWhile_append]
  split
  next => simp [hstop]
  next => exact List.takeWhile_prefix _

theorem admitted_eq_ok {verdict : String → Except Denied Unit} {paths : List String} {path : String}
    (h : path ∈ admitted verdict paths) : verdict path = .ok () :=
  eq_ok_of_isOk (List.mem_takeWhile_imp (p := fun path => (verdict path).isOk) h)

-- ---------------------------------------------------------------------------
-- Loading
-- ---------------------------------------------------------------------------

variable {scope : Scope} {h : Handle} {seen made files : Set (List String)} {σ σ' : Session}

theorem diskless_removeArguments (h : Handle) (args : List Handle) :
    Diskless (removeArguments h args) := by
  unfold removeArguments
  exact .bind (.forM .remove args) fun _ => .setValue h none

theorem diskless_authorize (h : Handle) (verdict : Except Denied Unit) :
    Diskless (authorize h verdict) := by
  unfold authorize
  cases verdict with
  | ok _ => exact .pure _
  | error e => exact .fail h _

/-- What the disk has answered is passed on without touching it again. -/
theorem diskless_ofDisk {α : Type} (h : Handle) (path : String) (r : Except FileError α) :
    Diskless (ofDisk h path r) := by
  unfold ofDisk
  cases r with
  | ok a => exact .pure a
  | error e => exact .fail h _

theorem fail_ne_ok {α : Type} {f : NodeContext → Failure} {a : α} :
    Engine.fail h f σ ≠ .ok a σ' := by
  have hrun : Engine.fail h f σ = (liftM (σ.nodes.fail h f) : Engine α) σ := rfl
  rw [hrun]
  unfold Store.fail
  cases σ.nodes.describe h <;> exact nofun

/-- Who goes on after asking for leave has got it, and nothing has changed. -/
theorem authorize_ok {verdict : Except Denied Unit} (hrun : authorize h verdict σ = .ok () σ') :
    verdict = .ok () ∧ σ' = σ := by
  cases verdict with
  | ok _ => exact ⟨rfl, by cases hrun; rfl⟩
  | error e => exact absurd hrun fail_ne_ok

/-- Who goes on with an answer of the disk has got it, and nothing has changed. -/
theorem ofDisk_ok {α : Type} {path : String} {r : Except FileError α} {a : α}
    (hrun : ofDisk h path r σ = .ok a σ') : r = .ok a ∧ σ' = σ := by
  cases r with
  | ok _ => cases hrun; exact ⟨rfl, rfl⟩
  | error e => exact absurd hrun fail_ne_ok

/-- Reads the file of one path. -/
def loadOne (scope : Scope) (h : Handle) (path : String) : Engine (String × String) := do
  authorize h (scope.settings.access.read (← get).ticket path)
  let text ← ofDisk h path
    ((← get).disk.readText scope.settings.workFolder (diskPath scope.settings path))
  return (path, text)

/-- All files are read before the node is changed. -/
theorem loadFile_eq (scope : Scope) (h : Handle) : loadFile scope h = (do
    let paths ← (← Engine.nodes).strings h
    let args ← (← Engine.nodes).children h
    let loaded ← paths.mapM (loadOne scope h)
    removeArguments h args
    loaded.forM fun (path, text) => do
      let _ ← Engine.add h path (some (.scalar (.string text)))) := rfl

/-- A file that has been read is one that may be read. -/
theorem loadOne_ok {path : String} {r : String × String}
    (hrun : loadOne scope h path σ = .ok r σ') :
    scope.settings.access.read σ.ticket path = .ok () ∧ σ' = σ := by
  unfold loadOne at hrun
  rw [get_bind_apply, bind_apply] at hrun
  split at hrun
  next hallowed =>
    obtain ⟨hverdict, rfl⟩ := authorize_ok hallowed
    rw [get_bind_apply, bind_apply] at hrun
    split at hrun
    next hread =>
      obtain ⟨-, rfl⟩ := ofDisk_ok hread
      cases hrun
      exact ⟨hverdict, rfl⟩
    next => cases hrun
  next => cases hrun

/-- What is read for a path is on its way, and nothing is read for a refused one. -/
theorem touchesOnly_loadOne {path : String}
    (hseen : scope.settings.access.read σ.ticket path = .ok () →
      ∀ x ∈ (FilePath.ofString (diskPath scope.settings path)).way scope.settings.workFolder,
        x ∈ seen) :
    TouchesOnly seen ∅ ∅ (loadOne scope h path) σ := by
  unfold loadOne
  refine .bind_get (fun _ _ => rfl) (((diskless_authorize h _).touchesOnly σ).bind ?_)
  intro _ σ' hrun
  obtain ⟨hallowed, rfl⟩ := authorize_ok hrun
  refine .bind_get (fun d hd => ?_)
    ((Diskless.bind (diskless_ofDisk h path _) fun _ => .pure _).touchesOnly _)
  have hread := Disk.readText_congr hd (hseen hallowed)
  show (ofDisk h path (d.readText _ _) >>= _) = _
  rw [hread]

/-- Reading touches the ways of the admitted paths: a refusal ends the reading. -/
theorem touchesOnly_loadAll {paths : List String}
    (hseen : ∀ path ∈ admitted (scope.settings.access.read σ.ticket) paths,
      ∀ x ∈ (FilePath.ofString (diskPath scope.settings path)).way scope.settings.workFolder,
        x ∈ seen) :
    TouchesOnly seen ∅ ∅ (paths.mapM (loadOne scope h)) σ := by
  induction paths with
  | nil => exact (Diskless.pure _).touchesOnly σ
  | cons path rest ih =>
    have hfirst : scope.settings.access.read σ.ticket path = .ok () →
        admitted (scope.settings.access.read σ.ticket) (path :: rest) =
          path :: admitted (scope.settings.access.read σ.ticket) rest := by
      intro hallowed
      simp [admitted, hallowed, Except.isOk, Except.toBool]
    rw [List.mapM_cons]
    refine .bind (touchesOnly_loadOne fun hallowed => hseen path ?_) fun r σ' hrun => ?_
    · rw [hfirst hallowed]
      exact List.mem_cons_self
    · obtain ⟨hallowed, rfl⟩ := loadOne_ok hrun
      rw [hfirst hallowed] at hseen
      refine .bind (ih fun p hp => hseen p (List.mem_cons_of_mem _ hp)) fun _ _ _ => ?_
      exact (Diskless.pure _).touchesOnly _

/-- `load-file` touches the ways of the paths that it may read, and changes nothing on the disk. -/
theorem touchesOnly_loadFile (scope : Scope) (h : Handle) (σ : Session) :
    TouchesOnly (territory scope.settings (loadable scope h σ)) ∅ ∅ (loadFile scope h) σ := by
  rw [loadFile_eq]
  refine .bind_nodes (.bind_lift fun paths hpaths => .bind_nodes (.bind_liftFault fun args _ => ?_))
  refine .bind (touchesOnly_loadAll fun path hpath x hx => ⟨path, ?_, hx⟩) fun loaded σ' _ => ?_
  · unfold loadable pathsOf
    rwa [hpaths]
  · exact ((diskless_removeArguments h args).bind fun _ => .forM
      (fun _ => .bind (.add _ _ _) fun _ => .pure _) loaded).touchesOnly σ'

-- ---------------------------------------------------------------------------
-- Saving
-- ---------------------------------------------------------------------------

theorem diskless_contentToSave (h : Handle) : Diskless (contentToSave h) := by
  unfold contentToSave
  refine .bind .nodes fun s => .bind (.liftFault _) fun found => ?_
  cases found with
  | some src => exact .bind (.lift _) fun _ => .pure _
  | none => exact .liftFault _

/-- Puts a text into the file of a path, with the folders on the way. -/
def writeOut (scope : Scope) (h : Handle) (path text : String) : Engine Unit := do
  let full := diskPath scope.settings path
  let (made, error) :=
    (← get).disk.createFolders scope.settings.workFolder (FilePath.ofString full).parent
  modify fun session => { session with disk := made }
  if let some e := error then Engine.fail h (.file path e)
  let written ← ofDisk h path
    (made.write scope.settings.workFolder full (Utf8.encode text.toList))
  modify fun session => { session with disk := written }
  let args ← (← Engine.nodes).children h
  removeArguments h args

/-- Only the first path is written to, after leave has been asked and the text has been put
together. -/
theorem saveFile_eq (scope : Scope) (h : Handle) : saveFile scope h = (do
    match ← (← Engine.nodes).strings h with
    | [] => Engine.fail h (.execution .noFilePath)
    | path :: _ =>
      authorize h (scope.settings.access.modify (← get).ticket path)
      let text ← contentToSave h
      writeOut scope h path text) := by
  refine congrArg (_ >>= ·) (funext fun s => congrArg (_ >>= ·) (funext fun paths => ?_))
  cases paths with
  | nil => rfl
  | cons path rest =>
    refine congrArg (_ >>= ·) (funext fun σ => congrArg (_ >>= ·) (funext fun _ => ?_))
    refine congrArg (_ >>= ·) (funext fun text => ?_)
    unfold writeOut
    refine congrArg (_ >>= ·) (funext fun σ => ?_)
    generalize σ.disk.createFolders scope.settings.workFolder
      (FilePath.ofString (diskPath scope.settings path)).parent = r
    obtain ⟨made, error⟩ := r
    cases error with
    | none => rfl
    | some e => rfl

/-- The places where the files of some paths are. -/
def targets (settings : Settings) (paths : List String) : Set (List String) :=
  { x | ∃ path ∈ paths, x = (FilePath.ofString (diskPath settings path)).place settings.workFolder }

/-- What follows when the disk is done: the arguments go, or there is a failure. -/
def conclude (h : Handle) (path : String) : Option FileError → Engine Unit
  | some e => Engine.fail h (.file path e)
  | none => do
    let args ← (← Engine.nodes).children h
    removeArguments h args

theorem diskless_conclude (h : Handle) (path : String) (error : Option FileError) :
    Diskless (conclude h path error) := by
  cases error with
  | some e => exact .fail h _
  | none =>
    exact .bind .nodes fun _ => .bind (.liftFault _) fun args => diskless_removeArguments h args

/-- The run of writing: first the disk, and then what follows. -/
theorem writeOut_apply (scope : Scope) (h : Handle) (path text : String) (σ : Session) :
    writeOut scope h path text σ =
      conclude h path
        (σ.disk.save scope.settings.workFolder (diskPath scope.settings path)
          (Utf8.encode text.toList)).2
        (σ.withDisk (σ.disk.save scope.settings.workFolder (diskPath scope.settings path)
          (Utf8.encode text.toList)).1) := by
  unfold writeOut Disk.save
  rw [get_bind_apply]
  generalize σ.disk.createFolders scope.settings.workFolder
    (FilePath.ofString (diskPath scope.settings path)).parent = r
  obtain ⟨made, error⟩ := r
  cases error with
  -- a folder that could not be made stops the write, what was made before stays
  | some e =>
    simp only [modify_bind_apply, fail_bind]
    rfl
  | none =>
    simp only [modify_bind_apply]
    cases made.write scope.settings.workFolder (diskPath scope.settings path)
      (Utf8.encode text.toList) with
    | error e =>
      simp only [ofDisk, fail_bind]
      rfl
    | ok written =>
      simp only [ofDisk, pure_bind, modify_bind_apply]
      rfl

/-- Writing touches the way of the path, makes folders on it, and puts a file at its end. -/
theorem touchesOnly_writeOut (scope : Scope) (h : Handle) {path : String} (text : String)
    (σ : Session)
    (hseen : ∀ x ∈ (FilePath.ofString (diskPath scope.settings path)).way scope.settings.workFolder,
        x ∈ seen)
    (hmade : ∀ x ∈ (FilePath.ofString (diskPath scope.settings path)).way scope.settings.workFolder,
        x ∈ made)
    (hfile : (FilePath.ofString (diskPath scope.settings path)).place scope.settings.workFolder ∈
      files) :
    TouchesOnly seen made files (writeOut scope h path text) σ := by
  have hrun := writeOut_apply scope h path text
  refine .of_disk (diskless_conclude h path _) (hrun σ)
    (grown_save σ.disk scope.settings.workFolder _ _ hmade hfile) fun d hd => ?_
  obtain ⟨herror, hsame⟩ := @save_congr _ d seen _ _ (Utf8.encode text.toList) hd hseen
  refine ⟨_, ?_, hsame⟩
  rw [hrun, show (σ.withDisk d).disk = d from rfl, herror]
  rfl

/-- `save-file` touches the way of the path that it may write, if it may. -/
theorem touchesOnly_saveFile (scope : Scope) (h : Handle) (σ : Session) :
    TouchesOnly (territory scope.settings (savable scope h σ))
      (territory scope.settings (savable scope h σ)) (targets scope.settings (savable scope h σ))
      (saveFile scope h) σ := by
  rw [saveFile_eq]
  refine .bind_nodes (.bind_lift fun paths hpaths => ?_)
  cases paths with
  | nil => exact (Diskless.fail h _).touchesOnly σ
  | cons path rest =>
    refine .bind_get (fun _ _ => rfl) (((diskless_authorize h _).touchesOnly σ).bind ?_)
    intro _ σ' hrun
    obtain ⟨hallowed, rfl⟩ := authorize_ok hrun
    have hsavable : path ∈ savable scope h σ' := by
      simp [savable, admitted, pathsOf, hpaths, hallowed, Except.isOk, Except.toBool]
    refine .bind ((diskless_contentToSave h).touchesOnly _) fun text σ'' _ => ?_
    exact touchesOnly_writeOut scope h text σ'' (fun x hx => ⟨path, hsavable, hx⟩)
      (fun x hx => ⟨path, hsavable, hx⟩) ⟨path, hsavable, rfl⟩

/-- The paths that a guard admits are allowed, below the root, and in front of the first refusal. -/
theorem cleared_admitted (settings : Settings) {t : Ticket} {verdict : String → Bool}
    (given : List String) :
    Cleared settings (fun path => Guard.check t path (verdict path)) given
      (admitted (fun path => Guard.check t path (verdict path)) given) := by
  refine ⟨fun path hpath => admitted_eq_ok hpath, fun path hpath => ?_, ?_⟩
  · exact belowRoot_of_isSane settings (isSane_of_check (admitted_eq_ok hpath))
  · rintro front path rest rfl hrefused
    exact admitted_prefix hrefused

/-- A program's call of a keyword for files touches the disk only for paths that the guard
allows to the present ticket, in front of the first path that it refuses. What it looks at
and changes is on the ways of these paths, which lead to the file root and then stay below
it. Loading changes nothing; saving makes missing folders on the way of the one path and
puts something at its end. -/
theorem file_keywords_stay_below_root (scope : Scope) (h : Handle) (σ : Session) :
    (Cleared scope.settings (scope.settings.access.read σ.ticket) (pathsOf h σ)
        (loadable scope h σ) ∧
      TouchesOnly (territory scope.settings (loadable scope h σ)) ∅ ∅ (loadFile scope h) σ) ∧
    (Cleared scope.settings (scope.settings.access.modify σ.ticket) ((pathsOf h σ).take 1)
        (savable scope h σ) ∧
      TouchesOnly (territory scope.settings (savable scope h σ))
        (territory scope.settings (savable scope h σ))
        (targets scope.settings (savable scope h σ)) (saveFile scope h) σ) :=
  ⟨⟨cleared_admitted scope.settings _, touchesOnly_loadFile scope h σ⟩,
    cleared_admitted scope.settings _, touchesOnly_saveFile scope h σ⟩

end Keyword

end TreeScript
