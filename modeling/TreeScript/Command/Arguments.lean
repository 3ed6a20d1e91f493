import TreeScript.Config.Basic

/-!
# TreeScript — command lines

A command line is a command with its operands and flags, and options that may
stand in front of the command or behind it. An option has a value, in the next
word or behind an equals sign. In front of the command and behind it each option
may be given once; the one behind the command wins. Two dashes end the options.
A command line of any other form is refused as a whole.

* `Command`, `Invocation` — what a command line asks for;
* `Argument.ofWords?` — words as options, flags and operands;
* `Choices` — the options at one side of the command;
* `Invocation.ofWords?` — what words ask for.
-/

namespace TreeScript

/-- What the program is asked to do. -/
inductive Command where
  | run (file : String) (copy json : Bool)
  | parse (file : String) (json : Bool)
  | access (path : String) (write : Bool)
  | keywords
  deriving DecidableEq, Repr

/-- A command with what is asked for besides: the settings, and who is asking. -/
structure Invocation where
  request : Config.Request := {}
  ticket : Ticket := {}
  command : Command
  deriving DecidableEq, Repr

-- ---------------------------------------------------------------------------
-- Words
-- ---------------------------------------------------------------------------

/-- The options. -/
inductive CommandOption where
  | config
  | unknownEvents
  | maxDepth
  | fileRoot
  | role
  | username
  deriving DecidableEq, Repr

namespace CommandOption

/-- The word for each option, without its dashes. -/
def word : CommandOption → String
  | .config => "config"
  | .unknownEvents => "unknown-events"
  | .maxDepth => "max-depth"
  | .fileRoot => "io-root"
  | .role => "role"
  | .username => "username"

/-- All options. -/
def all : List CommandOption := [.config, .unknownEvents, .maxDepth, .fileRoot, .role, .username]

/-- The option of a word. -/
def ofWord? (word : List Char) : Option CommandOption :=
  all.find? fun o => o.word.toList == word

end CommandOption

/-- A part of a command line. The divider is what ends the options. -/
inductive Argument where
  | option (o : CommandOption) (value : String)
  | flag (word : String)
  | operand (text : String)
  | divider
  deriving DecidableEq, Repr

namespace Argument

/-- Whether a word can only be an option, a flag or the divider. -/
def isDashed (word : String) : Bool :=
  match word.toList with
  | '-' :: _ :: _ => true
  | _ => false

/-- A word with two dashes that carries its value behind an equals sign; only
options have values. -/
def ofAssignment? (front value : List Char) : Option Argument :=
  (CommandOption.ofWord? front).map fun o => .option o (String.ofList value)

/-- Words as options, flags and operands. A word with dashes is no value of an
option unless it stands behind an equals sign, and single dashes mean nothing. -/
def ofWords? : List String → Option (List Argument)
  | [] => some []
  | word :: rest =>
    match word.toList with
    | ['-', '-'] => some (.divider :: rest.map .operand)
    | '-' :: '-' :: name =>
      match Text.splitWhile (· != '=') name with
      | (front, _ :: value) => do
        let a ← ofAssignment? front value
        some (a :: (← ofWords? rest))
      | (front, []) =>
        match CommandOption.ofWord? front, rest with
        | some o, value :: rest =>
          if isDashed value then none
          else (ofWords? rest).map (.option o value :: ·)
        | some _, [] => none
        | none, rest => (ofWords? rest).map (.flag (String.ofList front) :: ·)
    | _ => if isDashed word then none else (ofWords? rest).map (.operand word :: ·)

/-- The text of an operand. -/
def operand? : Argument → Option String
  | .operand text => some text
  | _ => none

/-- The word of a flag. -/
def flag? : Argument → Option String
  | .flag word => some word
  | _ => none

/-- The option with its value. -/
def option? : Argument → Option (CommandOption × String)
  | .option o value => some (o, value)
  | _ => none

end Argument

-- ---------------------------------------------------------------------------
-- Options
-- ---------------------------------------------------------------------------

/-- The options at one side of the command. -/
structure Choices where
  config : Option String := none
  unknownEvents : Option UnknownEvents := none
  maxDepth : Option Nat := none
  fileRoot : Option String := none
  role : Option String := none
  username : Option String := none
  deriving DecidableEq, Repr

namespace Choices

/-- A path that is not empty. -/
def path? (text : String) : Option String := if text = "" then none else some text

/-- The value of an option that is given at most once: `none` is a refusal,
`some none` no option. -/
def choice? {α : Type} (options : List (CommandOption × String)) (o : CommandOption)
    (read : String → Option α) : Option (Option α) :=
  match options.filter fun p => p.1 == o with
  | [] => some none
  | [(_, text)] => (read text).map some
  | _ => none

/-- The options among some arguments. -/
def ofArguments? (arguments : List Argument) : Option Choices := do
  let options := arguments.filterMap Argument.option?
  some {
    config := ← choice? options .config path?
    unknownEvents := ← choice? options .unknownEvents UnknownEvents.ofWord?
    maxDepth := ← choice? options .maxDepth fun text =>
      (Numeral.readUnsigned (Numeral.span 64 - 1) text.toList).toOption
    fileRoot := ← choice? options .fileRoot path?
    role := ← choice? options .role some
    username := ← choice? options .username some }

/-- The options of two sides, of which the first wins. -/
def orElse (a b : Choices) : Choices where
  config := a.config.or b.config
  unknownEvents := a.unknownEvents.or b.unknownEvents
  maxDepth := a.maxDepth.or b.maxDepth
  fileRoot := a.fileRoot.or b.fileRoot
  role := a.role.or b.role
  username := a.username.or b.username

/-- The settings that the options ask for. -/
def request (c : Choices) : Config.Request where
  path := c.config
  unknownEvents := c.unknownEvents
  maxDepth := c.maxDepth
  fileRoot := c.fileRoot

/-- Who is asking; a guest unless the options say otherwise. -/
def ticket (c : Choices) : Ticket where
  username := c.username.getD "guest"
  role := c.role.getD "guest"

end Choices

-- ---------------------------------------------------------------------------
-- Commands
-- ---------------------------------------------------------------------------

/-- The command of a word with its operands and flags. Each flag may be given once. -/
def Command.of? (word : String) (operands flags : List String) : Option Command :=
  let only := fun allowed : List String => flags.all allowed.contains && flags.Nodup
  match word, operands with
  | "run", [file] =>
    if only ["copy", "json"] && file != "" then
      some (.run file (flags.contains "copy") (flags.contains "json"))
    else none
  | "parse", [file] =>
    if only ["json"] && file != "" then some (.parse file (flags.contains "json")) else none
  | "access", [path] =>
    if only ["write"] then some (.access path (flags.contains "write")) else none
  | "keywords", [] => if flags = [] then some .keywords else none
  | _, _ => none

/-- What a command line asks for. -/
def Invocation.ofWords? (words : List String) : Option Invocation := do
  let arguments ← Argument.ofWords? words
  let front := arguments.takeWhile fun a => a.option?.isSome
  match arguments.drop front.length with
  | .operand word :: back =>
    let command ←
      Command.of? word (back.filterMap Argument.operand?) (back.filterMap Argument.flag?)
    let choices := (← Choices.ofArguments? back).orElse (← Choices.ofArguments? front)
    some { request := choices.request, ticket := choices.ticket, command }
  | _ => none

/-- What is said to a command line that is refused. -/
def Invocation.usage : String :=
  "Usage: lambda [OPTIONS] run <FILE> [--copy] [--json]\n" ++
  "       lambda [OPTIONS] parse <FILE> [--json]\n" ++
  "       lambda [OPTIONS] access <PATH> [--write]\n" ++
  "       lambda [OPTIONS] keywords\n" ++
  "Options: --config <FILE>, --unknown-events <error|ignore>, --max-depth <N>,\n" ++
  "         --io-root <FOLDER>, --role <ROLE>, --username <NAME>\n"

end TreeScript
