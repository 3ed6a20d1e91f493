import TreeScript.Access
import TreeScript.Config.Environment
import TreeScript.Disk
import TreeScript.Engine.Registry
import TreeScript.Text.Quote
import TreeScript.Toml.Reader

/-!
# TreeScript — configuration

The settings of the command line come from a file, then from environment
variables, then from what the caller asks for; each of these wins over those
before it. The file is the one that the caller names, else the one that a
variable names, else the first of two usual places that has one. Settings that
nobody gives have defaults. In an *isolated* configuration only the file that
the caller names and what the caller asks for count.

* `Config`, `ConfigError` — the settings, and why there are none;
* `Config.ofEntries?` — the settings of a document;
* `Config.ofFile` — the settings of a file;
* `Config.Request`, `Config.Request.resolve` — the settings of a call.
-/

namespace TreeScript

/-- The settings of the command line. -/
structure Config where
  unknownEvents : UnknownEvents := .error
  maxDepth : Nat := 256
  access : Guard := {}
  fileRoot : String := "."
  logFilter : Option String := none

/-- Why there are no settings. -/
inductive ConfigError where
  | missing (path : String)
  | unreadable (path : String) (error : FileError)
  | malformed (path : String)
  | unknownEvents (text : String)
  | maxDepth (text : String) (fault : Numeral.Fault)
  | zeroDepth
  deriving DecidableEq, Repr

namespace ConfigError

/-- The wording of each error. -/
def message : ConfigError → String
  | .missing path => "Config file not found: " ++ Text.shownQuoted path
  | .unreadable path _ => "Failed to read config file: " ++ Text.shownQuoted path
  | .malformed path => "Failed to parse config file: " ++ Text.shownQuoted path
  | .unknownEvents _ => "Invalid LAMBDA_ENGINE_UNKNOWN_EVENTS"
  | .maxDepth text _ => "Invalid LAMBDA_ENGINE_MAX_DEPTH: " ++ text
  | .zeroDepth => "engine.max_depth must be at least 1"

/-- What lies behind an error, if it has a cause of its own. -/
def cause? : ConfigError → Option String
  | .missing _ => none
  | .unreadable _ error => some error.message
  | .malformed _ => some "not a table of settings"
  | .unknownEvents text => some (UnknownEvents.unknownWord text)
  | .maxDepth _ fault => some fault.message
  | .zeroDepth => none

end ConfigError

-- ---------------------------------------------------------------------------
-- Documents
-- ---------------------------------------------------------------------------

namespace Toml

/-- The text of a string. -/
def string? : Toml → Option String
  | .string s => some s
  | _ => none

/-- A whole number that is not negative. -/
def natural? : Toml → Option Nat
  | .integer (.ofNat n) => some n
  | _ => none

/-- Whether a table or an array has nothing in it; other values have something. -/
def isEmpty : Toml → Bool
  | .array items => items.isEmpty
  | .table _ entries => entries.isEmpty
  | .tables items => items.isEmpty
  | _ => false

/-- The word for one of several choices: a string, or the only name of a table if there
is nothing under it. -/
def choice? : Toml → Option String
  | .string s => some s
  | .table _ [(name, v)] => if v.isEmpty then some name else none
  | _ => none

/-- The items of an array of either kind. -/
def items? : Toml → Option (List Toml)
  | .array items => some items
  | .tables items => some (items.map (.table .header))
  | _ => none

/-- The fields of a record. They stand in a table by their names, or in an array by
their positions; an array has to reach the first `required` ones. A date is a record
without fields. -/
def fields? (names : List String) (required : Nat) (v : Toml) : Option Entries :=
  match v, v.items? with
  | .table _ entries, _ => some entries
  | .date _, _ => some []
  | _, some items => if required ≤ items.length then some (names.zip items) else none
  | _, none => none

/-- The value of a field that has to be there. -/
def field? {α : Type} (read : Toml → Option α) (name : String) (t : Entries) : Option α :=
  (t.lookup name).bind read

/-- The value of a field, or a default if it is not there. -/
def fieldOr {α : Type} (read : Toml → Option α) (default : α) (name : String) (t : Entries) :
    Option α :=
  match t.lookup name with
  | none => some default
  | some v => read v

end Toml

namespace Config

open TreeScript.Toml (Entries fields? field? fieldOr string? natural?)

/-- The choice that a word stands for, in lower case only. -/
def unknownEvents? (v : Toml) : Option UnknownEvents :=
  v.choice?.bind fun s => [UnknownEvents.error, .ignore].find? fun u => u.word == s

/-- The verdict that a word stands for. -/
def verdict? (v : Toml) : Option Verdict :=
  match v.choice? with
  | some "allow" => some .allow
  | some "deny" => some .deny
  | _ => none

/-- The operation that a word stands for. -/
def operation? (v : Toml) : Option Operation :=
  match v.choice? with
  | some "read" => some .read
  | some "write" => some .write
  | _ => none

/-- An access rule, of which every part has to be there. -/
def accessRule? (v : Toml) : Option AccessRule := do
  let t ← fields? ["role", "path", "access", "operation"] 4 v
  some {
    role := ← field? string? "role" t
    path := ← field? string? "path" t
    verdict := ← field? verdict? "access" t
    operation := ← field? operation? "operation" t }

/-- The access rules of an array. -/
def accessRules? (v : Toml) : Option (List AccessRule) := v.items?.bind fun items =>
  items.mapM accessRule?

/-- What a document says about paths. -/
def access? (v : Toml) : Option Guard := do
  let t ← fields? ["data_path", "auth_file", "access"] 0 v
  some {
    dataPath := ← fieldOr string? "/db/" "data_path" t
    authFile := ← fieldOr string? "/auth.hl" "auth_file" t
    rules := ← fieldOr accessRules? [] "access" t }

/-- What a document says about unknown names and the greatest depth. -/
def engine? (v : Toml) : Option (UnknownEvents × Nat) := do
  let t ← fields? ["unknown_events", "max_depth"] 0 v
  some (← fieldOr unknownEvents? .error "unknown_events" t, ← fieldOr natural? 256 "max_depth" t)

/-- The folder that paths of programs start at, as a document gives it. -/
def fileRoot? (v : Toml) : Option String :=
  (fields? ["root"] 0 v).bind (fieldOr string? "." "root")

/-- The log filter that a document gives. -/
def logFilter? (v : Toml) : Option (Option String) :=
  (fields? ["filter"] 1 v).bind (fieldOr (fun v => v.string?.map some) none "filter")

/-- The settings of a document. Names that are no settings do not matter; a
setting of the wrong type does. -/
def ofEntries? (t : Entries) : Option Config := do
  let (unknownEvents, maxDepth) ← fieldOr engine? (.error, 256) "engine" t
  let access ← fieldOr access? {} "auth" t
  let fileRoot ← fieldOr fileRoot? "." "io" t
  let logFilter ← fieldOr logFilter? none "log" t
  some { unknownEvents, maxDepth, access, fileRoot, logFilter }

/-- The settings of a text. -/
def ofText? (text : String) : Option Config := (Toml.read? text).bind ofEntries?

-- ---------------------------------------------------------------------------
-- Files
-- ---------------------------------------------------------------------------

/-- The settings of a file, seen from a folder. -/
def ofFile (disk : Disk) (folder : List String) (path : String) : Except ConfigError Config :=
  match disk.readText folder path with
  | .error e => .error (.unreadable path e)
  | .ok text =>
    match ofText? text with
    | some config => .ok config
    | none => .error (.malformed path)

/-- The place of the file in the working folder. -/
def projectFile : String := "lambda.toml"

/-- The place of the file of a user with this home. -/
def userFile (home : String) : String :=
  FilePath.join (FilePath.join (FilePath.join home ".config") "lambda") "config.toml"

/-- The variables that matter here. -/
def variableNames : List String :=
  ["HOME", "LAMBDA_CONFIG_PATH", "LAMBDA_ENGINE_UNKNOWN_EVENTS", "LAMBDA_ENGINE_MAX_DEPTH",
    "LAMBDA_AUTH_DATA_PATH", "LAMBDA_AUTH_FILE", "LAMBDA_IO_ROOT", "LAMBDA_LOG"]

/-- The settings with those that environment variables give. -/
def withVariables (config : Config) (env : Environment) : Except ConfigError Config := do
  let unknownEvents ← match env.get? "LAMBDA_ENGINE_UNKNOWN_EVENTS" with
    | none => .ok config.unknownEvents
    | some text =>
      match UnknownEvents.ofWord? text with
      | some u => .ok u
      | none => .error (.unknownEvents text)
  let maxDepth ← match env.get? "LAMBDA_ENGINE_MAX_DEPTH" with
    | none => .ok config.maxDepth
    | some text =>
      match Numeral.readUnsigned (Numeral.span 64 - 1) text.toList with
      | .ok n => .ok n
      | .error fault => .error (.maxDepth text fault)
  let access := { config.access with
    dataPath := (env.get? "LAMBDA_AUTH_DATA_PATH").getD config.access.dataPath
    authFile := (env.get? "LAMBDA_AUTH_FILE").getD config.access.authFile }
  .ok {
    unknownEvents, maxDepth, access
    fileRoot := (env.get? "LAMBDA_IO_ROOT").getD config.fileRoot
    logFilter := (env.get? "LAMBDA_LOG").or config.logFilter }

-- ---------------------------------------------------------------------------
-- Calls
-- ---------------------------------------------------------------------------

/-- What a caller asks for. -/
structure Request where
  path : Option String := none
  unknownEvents : Option UnknownEvents := none
  maxDepth : Option Nat := none
  fileRoot : Option String := none
  isolated : Bool := false
  deriving DecidableEq, Repr

namespace Request

/-- The name of the files of assignments. -/
def assignmentFile : String := ".env"

/-- A folder and all folders above it, the nearest first. -/
def foldersUp (folder : List String) : List (List String) :=
  (List.range (folder.length + 1)).reverse.map folder.take

/-- The nearest file of assignments, which is in the working folder or a folder above it. -/
def assignments? (disk : Disk) (folder : List String) : Option (List UInt8) :=
  (foldersUp folder).findSome? fun place =>
    match disk.readBytes place assignmentFile with
    | .ok bytes => some bytes
    | .error _ => none

/-- The variables of a call: those of the nearest file of assignments count too. -/
def environment (disk : Disk) (folder : List String) (env : Environment) : Environment :=
  match assignments? disk folder with
  | some bytes => env.extend bytes
  | none => env

/-- A named file has to be there. -/
def named (disk : Disk) (folder : List String) (path : String) :
    Except ConfigError (Option String) :=
  if disk.hasPath folder path then .ok (some path) else .error (.missing path)

/-- The file that the settings of a call are in, if there is one. -/
def file? (r : Request) (disk : Disk) (folder : List String) (env : Environment) :
    Except ConfigError (Option String) :=
  match r.path with
  | some path => named disk folder path
  | none =>
    if r.isolated then .ok none
    else
      match env.get? "LAMBDA_CONFIG_PATH" with
      | some path => named disk folder path
      | none =>
        let places := projectFile :: (env.get? "HOME").toList.map userFile
        .ok (places.find? fun place => disk.hasPath folder place)

/-- The settings with what the caller asks for. -/
def override (r : Request) (config : Config) : Config :=
  { config with
    unknownEvents := r.unknownEvents.getD config.unknownEvents
    maxDepth := r.maxDepth.getD config.maxDepth
    fileRoot := r.fileRoot.getD config.fileRoot }

/-- The settings of a call. -/
def resolve (r : Request) (disk : Disk) (folder : List String) (env : Environment) :
    Except ConfigError Config := do
  let env := if r.isolated then env else environment disk folder env
  let config ← match ← r.file? disk folder env with
    | some path => ofFile disk folder path
    | none => .ok {}
  let config ← if r.isolated then .ok config else config.withVariables env
  let config := r.override config
  if config.maxDepth = 0 then .error .zeroDepth else .ok config

end Request

end Config

end TreeScript
