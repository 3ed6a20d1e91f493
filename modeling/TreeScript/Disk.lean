import TreeScript.Text.Utf8

/-!
# TreeScript — files and folders

A disk as a value: which names are files and which are folders. A path is
walked name by name; every name before the last has to be a folder. A dot stays
where it is, two dots go up, and the top is its own parent.

* `FileError` — why a file could not be read or written;
* `FilePath` — a path as names;
* `Disk` — the files and folders;
* `Disk.readText`, `Disk.write`, `Disk.createFolders` — what programs do with it.
-/

namespace TreeScript

/-- Why a file could not be read or written. -/
inductive FileError where
  | notFound
  | alreadyExists
  | notDirectory
  | isDirectory
  | nameTooLong
  | notUtf8
  | nulInName
  deriving DecidableEq, Repr

/-- The wording of each error. -/
def FileError.message : FileError → String
  | .notFound => "No such file or directory (os error 2)"
  | .alreadyExists => "File exists (os error 17)"
  | .notDirectory => "Not a directory (os error 20)"
  | .isDirectory => "Is a directory (os error 21)"
  | .nameTooLong => "File name too long (os error 36)"
  | .notUtf8 => "stream did not contain valid UTF-8"
  | .nulInName => "file name contained an unexpected NUL byte"

-- ---------------------------------------------------------------------------
-- Paths
-- ---------------------------------------------------------------------------

/-- A path as names: whether it starts at the top, its names with the dots,
whether a slash stands at its end, and how many bytes its text takes. -/
structure FilePath where
  absolute : Bool
  names : List String
  trailing : Bool
  size : Nat
  deriving DecidableEq, Repr

namespace FilePath

/-- The path of a text. -/
def ofString (text : String) : FilePath where
  absolute := text.toList.head? == some '/'
  names := ((text.toList.splitOn '/').filter (· != [])).map String.ofList
  trailing := text.toList.getLast? == some '/'
  size := text.utf8ByteSize

/-- A text behind another as one path; a text that starts at the top stands for itself. -/
def join (front back : String) : String :=
  if back.toList.head? = some '/' ∨ front = "" then back
  else if front.toList.getLast? = some '/' then front ++ back
  else front ++ "/" ++ back

/-- Names without the dots at their end. -/
def dropDots (names : List String) : List String := (names.reverse.dropWhile (· == ".")).reverse

/-- The path without its last name; dots at the end do not count as names. -/
def parent (p : FilePath) : FilePath :=
  let names := dropDots (dropDots p.names).dropLast
  { absolute := p.absolute
    names
    trailing := false
    size := names.foldl (fun n name => n + name.utf8ByteSize + 1) 0 }

/-- The greatest number of bytes of a path. -/
def sizeLimit : Nat := 4095

/-- The greatest number of bytes of a name. -/
def nameLimit : Nat := 255

/-- Whether a name is short enough. -/
def fits (name : String) : Bool := name.utf8ByteSize ≤ nameLimit

/-- What is wrong with a path, wherever it leads. -/
def fault? (p : FilePath) : Option FileError :=
  if p.names.any fun n => n.toList.contains '\x00' then some .nulInName
  else if sizeLimit < p.size then some .nameTooLong
  else none

end FilePath

-- ---------------------------------------------------------------------------
-- The disk
-- ---------------------------------------------------------------------------

/-- What a place of the disk holds. -/
inductive DiskEntry where
  | folder
  | file (bytes : List UInt8)
  deriving DecidableEq, Repr

/-- Files and folders by their names from the top. The top itself is a folder. -/
structure Disk where
  entries : List (List String × DiskEntry) := []
  deriving DecidableEq, Repr

namespace Disk

/-- What a place holds. -/
def entry? (d : Disk) (place : List String) : Option DiskEntry :=
  if place = [] then some .folder else (d.entries.find? fun e => e.1 == place).map Prod.snd

/-- Puts something at a place. -/
def put (d : Disk) (place : List String) (e : DiskEntry) : Disk :=
  { entries := (place, e) :: d.entries.filter fun x => x.1 != place }

/-- The place one name further on. -/
def stepFrom (place : List String) (name : String) : List String :=
  if name = "." then place else if name = ".." then place.dropLast else place ++ [name]

/-- The folder that names lead to, starting from a folder. -/
def follow (d : Disk) : (place : List String) → List String → Except FileError (List String)
  | place, [] => .ok place
  | place, name :: rest =>
    if !FilePath.fits name then .error .nameTooLong
    else
      let next := stepFrom place name
      match d.entry? next with
      | some .folder => follow d next rest
      | some (.file _) => .error .notDirectory
      | none => .error .notFound

/-- The folder that the last name of a path is looked up in, seen from a folder. -/
def enter (d : Disk) (folder : List String) (p : FilePath) : Except FileError (List String) :=
  if p.names = [] ∧ ¬ p.absolute then .error .notFound
  else
    match p.fault? with
    | some e => .error e
    | none => d.follow (if p.absolute then [] else folder) p.names.dropLast

/-- The place of a path, seen from a folder. All places on the way have to be folders;
the last one may hold anything or nothing. -/
def locate (d : Disk) (folder : List String) (p : FilePath) : Except FileError (List String) := do
  let place ← d.enter folder p
  match p.names.getLast? with
  | none => .ok place
  | some name => if FilePath.fits name then .ok (stepFrom place name) else .error .nameTooLong

/-- The bytes of a file. -/
def readBytes (d : Disk) (folder : List String) (path : String) : Except FileError (List UInt8) := do
  let p := FilePath.ofString path
  let place ← d.locate folder p
  match d.entry? place with
  | none => .error .notFound
  | some .folder => .error .isDirectory
  | some (.file bytes) => if p.trailing then .error .notDirectory else .ok bytes

/-- The text of a file. -/
def readText (d : Disk) (folder : List String) (path : String) : Except FileError String := do
  let bytes ← d.readBytes folder path
  match Utf8.decode? bytes with
  | some cs => .ok (String.ofList cs)
  | none => .error .notUtf8

/-- Whether a path leads to something. -/
def hasPath (d : Disk) (folder : List String) (path : String) : Bool :=
  let p := FilePath.ofString path
  match d.locate folder p with
  | .error _ => false
  | .ok place =>
    match d.entry? place with
    | none => false
    | some .folder => true
    | some (.file _) => !p.trailing

/-- Writes a file, whose folder has to be there. -/
def write (d : Disk) (folder : List String) (path : String) (bytes : List UInt8) :
    Except FileError Disk := do
  let p := FilePath.ofString path
  let _ ← d.enter folder p
  if p.trailing then .error .isDirectory
  else
    let place ← d.locate folder p
    match d.entry? place with
    | some .folder => .error .isDirectory
    | _ => .ok (d.put place (.file bytes))

/-- Makes folders of names that are not there yet, starting from a folder, up to the
first that cannot be made. A file in the way is no folder; but at the end of the names,
or once a folder had to be made (`made`), what counts is that its name is taken. -/
def createFrom (d : Disk) (made : Bool) :
    (place : List String) → List String → Disk × Option FileError
  | _, [] => (d, none)
  | place, name :: rest =>
    if !FilePath.fits name then (d, some .nameTooLong)
    else
      let next := stepFrom place name
      match d.entry? next with
      | some .folder => createFrom d made next rest
      | some (.file _) =>
        (d, some (if made ∨ rest = [] then .alreadyExists else .notDirectory))
      | none => createFrom (d.put next .folder) true next rest

/-- Makes the folder of a path with all folders on the way. Those that could be made
stay when a later one cannot. -/
def createFolders (d : Disk) (folder : List String) (p : FilePath) : Disk × Option FileError :=
  match p.fault? with
  | some e => (d, some e)
  | none => d.createFrom false (if p.absolute then [] else folder) p.names

/-- The files below a folder, with their paths from there, in the order of the paths. -/
def filesBelow (d : Disk) (folder : List String) : List (String × List UInt8) :=
  let found := d.entries.filterMap fun
    | (place, .file bytes) =>
      if folder.isPrefixOf place then
        some ("/".intercalate (place.drop folder.length), bytes)
      else none
    | (_, .folder) => none
  found.mergeSort fun a b => decide (a.1 ≤ b.1)

/-- Puts files below a folder; folders are made as needed. What cannot be put
somewhere is left out. -/
def addFiles (d : Disk) (folder : List String) (files : List (String × List UInt8)) : Disk :=
  files.foldl (fun d (path, bytes) =>
    let made := (d.createFolders folder (FilePath.ofString path).parent).1
    match made.write folder path bytes with
    | .ok d => d
    | .error _ => made) (d.createFrom false [] folder).1

/-- A disk with the given files below a folder. -/
def ofFiles (folder : List String) (files : List (String × List UInt8)) : Disk :=
  addFiles {} folder files

end Disk

end TreeScript
