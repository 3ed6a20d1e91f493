import TreeScript.Text.Lower
import TreeScript.Text.Space

/-!
# TreeScript — who may touch which path

Paths begin with a slash; one that ends with a slash is a folder. Whether a path begins with
another one, or is the same, is asked without the case of the letters `A`–`Z`. The role `root`
may do everything with a path of the proper form. Any other role may not read the homes of other
users, the data folder, configuration files and the credentials file, may always change its
own home and the common folder, and for the rest the rules decide: of those that match, the last
one in the order of their paths in lower case, where a rule for one role comes after a rule for
all. Without a matching rule reading is allowed and changing is not.

* `Ticket`, `AccessRule`, `Guard`, `Denied` — the types;
* `Guard.decide` — what the rules say;
* `Guard.read`, `Guard.modify` — the two questions.
-/

namespace TreeScript

/-- Who is asking. -/
structure Ticket where
  username : String := "guest"
  role : String := "guest"
  deriving DecidableEq, Repr

/-- Whether the ticket is one of the role that may do everything. -/
def Ticket.isRoot (t : Ticket) : Bool := t.role == "root"

/-- What a rule is about. -/
inductive Operation where
  | read
  | write
  deriving DecidableEq, Repr

/-- What a rule says. -/
inductive Verdict where
  | allow
  | deny
  deriving DecidableEq, Repr

/-- A rule for all paths that begin with `path`; the role `*` means every role. -/
structure AccessRule where
  role : String
  path : String
  verdict : Verdict
  operation : Operation
  deriving DecidableEq, Repr

/-- Why a path is refused. -/
inductive DenialCause where
  | malformed
  | offLimits
  deriving DecidableEq, Repr

/-- A refused path. -/
structure Denied where
  path : String
  cause : DenialCause
  deriving DecidableEq, Repr

/-- Whether a path is a folder. -/
def isFolderPath (path : String) : Bool := path.toList.getLast? == some '/'

/-- The wording of a refusal. -/
def Denied.reason (d : Denied) : String :=
  let kind := if isFolderPath d.path then "folder" else "file"
  match d.cause with
  | .malformed => "path '" ++ d.path ++ "' is not a valid " ++ kind ++ " path"
  | .offLimits => kind ++ " '" ++ d.path ++ "' is off limits"

/-- What is known about paths: the data folder, the credentials file and the rules. -/
structure Guard where
  dataPath : String := "/db/"
  authFile : String := "/auth.hl"
  rules : List AccessRule := []
  deriving DecidableEq, Repr

-- ---------------------------------------------------------------------------
-- Paths
-- ---------------------------------------------------------------------------

namespace Access

open TreeScript.Text

/-- Whether two characters that satisfy the tests stand next to each other. -/
def hasPair (p q : Char → Bool) : List Char → Bool
  | a :: b :: rest => (p a && q b) || hasPair p q (b :: rest)
  | _ => false

/-- Whether a path has the proper form: it begins with a slash, and has no
doubled slash, no backslash and no two dots in a row. -/
def isSane (path : String) : Bool :=
  let cs := path.toList
  cs.head? == some '/' && !hasPair (· == '/') (· == '/') cs && !cs.contains '\\'
    && !hasPair (· == '.') (· == '.') cs

/-- Whether a path begins with another one, without regard to case. -/
def startsWith (path front : String) : Bool := startsFolded path.toList front.toList

/-- The last name of a path; single dots are no names. -/
def fileName? (path : String) : Option (List Char) :=
  ((path.toList.splitOn '/').filter fun part => part != [] && part != ['.']).getLast?

/-- What follows the last dot of a name, if something stands in front of it. -/
def extension? (name : List Char) : Option (List Char) :=
  let back := name.reverse.takeWhile (· != '.')
  match name.reverse.dropWhile (· != '.') with
  | [] => none
  | _ :: front => if front = [] then none else some back.reverse

/-- Whether a path names a configuration file. -/
def isConfigFile (path : String) : Bool :=
  ((fileName? path).bind extension?).any fun e => sameFolded e "config".toList

/-- The home folder of a ticket's user. -/
def home (t : Ticket) : String := "/users/" ++ t.username ++ "/"

end Access

-- ---------------------------------------------------------------------------
-- Rules
-- ---------------------------------------------------------------------------

namespace AccessRule

/-- Whether a rule is about this role, operation and path. -/
def appliesTo (r : AccessRule) (role : String) (operation : Operation) (path : String) : Bool :=
  (r.role == "*" || r.role == role) && r.operation == operation && Access.startsWith path r.path

/-- Whether a rule is about one role only. -/
def isSpecific (r : AccessRule) : Bool := r.role != "*"

/-- The order of rules: by path, then rules for every role before rules for one. -/
def notAfter (a b : AccessRule) : Bool :=
  let p := Text.lowerCase a.path.toList
  let q := Text.lowerCase b.path.toList
  if p = q then !a.isSpecific || b.isSpecific else decide (p < q)

end AccessRule

namespace Guard

open TreeScript.Access

/-- What the rules say: the last of the matching rules in their order decides,
and `otherwise` holds if there is none. -/
def decide (g : Guard) (t : Ticket) (path : String) (operation : Operation) (otherwise : Bool) :
    Bool :=
  let applicable := g.rules.filter fun r => r.appliesTo t.role operation path
  match (applicable.mergeSort AccessRule.notAfter).getLast? with
  | some r => r.verdict == .allow
  | none => otherwise

/-- Whether a file may be read. -/
def mayReadFile (g : Guard) (t : Ticket) (path : String) : Bool :=
  !(startsWith path "/users/" && !startsWith path (home t))
    && !startsWith path g.dataPath
    && !isConfigFile path
    && !Text.sameFolded path.toList g.authFile.toList
    && g.decide t path .read true

/-- Whether a folder may be read; the folder of all homes itself may. -/
def mayReadFolder (g : Guard) (t : Ticket) (path : String) : Bool :=
  !(startsWith path "/users/" && "/users/".length < path.length && !startsWith path (home t))
    && !startsWith path g.dataPath
    && g.decide t path .read true

/-- Whether a file or folder may be changed. -/
def mayModify (g : Guard) (t : Ticket) (path : String) : Bool :=
  startsWith path (home t) || startsWith path "/common/" || g.decide t path .write false

/-- Refuses what has no proper form, and what `allowed` does not allow a
ticket that is not of the role `root`. -/
def check (t : Ticket) (path : String) (allowed : Bool) : Except Denied Unit :=
  if !isSane path then .error ⟨path, .malformed⟩
  else if t.isRoot || allowed then .ok ()
  else .error ⟨path, .offLimits⟩

/-- Whether a path may be read. -/
def read (g : Guard) (t : Ticket) (path : String) : Except Denied Unit :=
  check t path (if isFolderPath path then g.mayReadFolder t path else g.mayReadFile t path)

/-- Whether a path may be changed. -/
def modify (g : Guard) (t : Ticket) (path : String) : Except Denied Unit :=
  check t path (g.mayModify t path)

end Guard

end TreeScript
