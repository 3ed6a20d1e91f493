import TreeScript.Command.Run

/-!
# TreeScript — the program

The outermost layer: it takes up the files that a command may need, performs
the command on them, puts the changed files back, and prints.

* `Program.load`, `Program.store` — files of the machine, as a disk and back;
* `main` — the program.
-/

namespace TreeScript.Program

/-- The path of a place. -/
def pathOf (place : List String) : String := "/" ++ "/".intercalate place

/-- The place of a path, seen from a folder. -/
def placeOf (folder : List String) (path : String) : List String :=
  let p := FilePath.ofString path
  p.names.foldl Disk.stepFrom (if p.absolute then [] else folder)

/-- Takes up what is at a place, with all that is below it to a depth. What cannot
be read is left out. -/
def load : (depth : Nat) → (place : List String) → Disk → IO Disk
  | 0, _, disk => return disk
  | depth + 1, place, disk => do
    let path := (← IO.currentDir) / pathOf place
    try
      if ← path.isDir then
        (← path.readDir).foldlM (fun d e => load depth (place ++ [e.fileName]) d)
          (disk.createFrom false [] place).1
      else
        let bytes ← IO.FS.readBinFile path
        return disk.addFiles place.dropLast [(place.getLastD "", bytes.toList)]
    catch _ => return disk

/-- How deep the folder of a program's files is looked into. -/
def depth : Nat := 32

/-- Puts an entry of a disk at its place, unless the old disk has the same there. -/
def store (old : Disk) (place : List String) (entry : DiskEntry) : IO Unit := do
  if old.entry? place ≠ some entry then
    match entry with
    | .folder => IO.FS.createDirAll (pathOf place)
    | .file bytes =>
      IO.FS.createDirAll (pathOf place.dropLast)
      IO.FS.writeBinFile (pathOf place) (ByteArray.mk bytes.toArray)

/-- The variables of the machine that matter: those of the settings, and those that
the file of assignments mentions. -/
def environment (disk : Disk) (folder : List String) : IO Environment := do
  let text := ((Config.Request.assignments? disk folder).bind Utf8.decode?).getD []
  let names := (Config.variableNames ++ Environment.mentioned text).filter (· != "")
  let found ← names.filterMapM fun name => do
    return (← IO.getEnv name).map fun value => (name, value)
  return ⟨found⟩

/-- The files that a command line names, besides those in the usual places. -/
def namedFiles (i : Invocation) (env : Environment) : List String :=
  let program := match i.command with
    | .run file _ _ => [file]
    | .parse file _ => [file]
    | _ => []
  program ++ i.request.path.toList ++ (env.get? "LAMBDA_CONFIG_PATH").toList
    ++ (env.get? "HOME").toList.map Config.userFile

/-- The working folder on an empty disk, with the files of assignments that count there. -/
def startDisk (folder : List String) : IO Disk :=
  ((Config.Request.foldersUp folder).map (· ++ [Config.Request.assignmentFile])).foldlM
    (fun d place => load 1 place d) (Disk.createFrom {} false [] folder).1

/-- The disk that a command needs: the files that it names, and for a program that
runs the folder that its paths start at. -/
def diskFor (i : Invocation) (folder : List String) (env : Environment) (disk : Disk) :
    IO Disk := do
  let files := Config.projectFile :: namedFiles i (Config.Request.environment disk folder env)
  let disk ← files.foldlM (fun d file => load 1 (placeOf folder file) d) disk
  match i.command, i.request.resolve disk folder env with
  | .run .., .ok config => load depth (placeOf folder config.fileRoot) disk
  | _, _ => return disk

end TreeScript.Program

open TreeScript in
/-- Performs the command line. -/
def main (words : List String) : IO UInt32 := do
  let folder := Program.placeOf [] (← IO.currentDir).toString
  let start ← Program.startDisk folder
  let env ← Program.environment start folder
  let disk ← match Invocation.ofWords? words with
    | some i => Program.diskFor i folder env start
    | none => pure start
  let outcome := perform words disk folder env
  outcome.disk.entries.reverse.forM fun (place, entry) => Program.store disk place entry
  IO.print outcome.output
  IO.eprint outcome.errors
  return outcome.exit.toUInt32
