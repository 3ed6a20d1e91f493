import TreeScript.Keyword.Arguments

/-!
# TreeScript — keywords for files

Paths of a program start at the file root of the settings. Each path is
checked against the access rules before it is touched.

* `loadFile` — reads files;
* `saveFile` — writes a file.
-/

namespace TreeScript.Keyword

/-- A program's path as a path of the disk. -/
def diskPath (settings : Settings) (path : String) : String :=
  FilePath.join settings.fileRoot (String.ofList (path.toList.dropWhile (· == '/')))

/-- Goes on if a path is allowed; otherwise a failure about the keyword's node. -/
def authorize (h : Handle) (verdict : Except Denied Unit) : Engine Unit := do
  match verdict with
  | .ok _ => pure ()
  | .error d => Engine.fail h (.denied d)

/-- The outcome of touching a file; an error is a failure about the keyword's node. -/
def ofDisk {α : Type} (h : Handle) (path : String) (r : Except FileError α) : Engine α := do
  match r with
  | .ok a => return a
  | .error e => Engine.fail h (.file path e)

/-- Reads the files that the value leads to. Each becomes a child with its path
as name and its text as value. -/
def loadFile : Handler := fun scope h => do
  let settings := scope.settings
  let paths ← (← Engine.nodes).strings h
  let args ← (← Engine.nodes).children h
  let loaded ← paths.mapM fun path => do
    authorize h (settings.access.read (← get).ticket path)
    let text ← ofDisk h path
      ((← get).disk.readText settings.workFolder (diskPath settings path))
    return (path, text)
  removeArguments h args
  loaded.forM fun (path, text) => do
    let _ ← Engine.add h path (some (.scalar (.string text)))

/-- The text to write: what a child `src` leads to, or the children as a document. -/
def contentToSave (h : Handle) : Engine String := do
  let s ← Engine.nodes
  match ← s.childNamed? h "src" with
  | some src => return String.join (← s.strings src)
  | none => s.renderBelow h

/-- Writes the file that the value leads to first, with the folders on the way. -/
def saveFile : Handler := fun scope h => do
  let settings := scope.settings
  match ← (← Engine.nodes).strings h with
  | [] => Engine.fail h (.execution .noFilePath)
  | path :: _ =>
    authorize h (settings.access.modify (← get).ticket path)
    let text ← contentToSave h
    let full := diskPath settings path
    let (made, error) :=
      (← get).disk.createFolders settings.workFolder (FilePath.ofString full).parent
    modify fun session => { session with disk := made }
    if let some e := error then Engine.fail h (.file path e)
    let written ← ofDisk h path
      (made.write settings.workFolder full (Utf8.encode text.toList))
    modify fun session => { session with disk := written }
    let args ← (← Engine.nodes).children h
    removeArguments h args

end TreeScript.Keyword
