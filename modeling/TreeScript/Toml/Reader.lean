import TreeScript.Toml.Date

/-!
# TreeScript — reading TOML

Statements are read one after the other, each on lines of its own; a comment
may stand behind them. The document is what the statements describe. Arrays and
tables that are values are inside one another only up to a bound, and so many
parts at most has a dotted name.

* `Toml.nestingBound` — the bound;
* `Toml.readNames?` — dotted names;
* `Toml.readValue?` — values;
* `Toml.statements?` — the statements of a text;
* `Toml.read?` — the document of a text.
-/

namespace TreeScript.Toml

/-- Values have to be inside fewer arrays and tables than this, and dotted names to have
fewer parts. -/
def nestingBound : Nat := 80

/-- A character of a name without quotes. -/
def isNameChar (c : Char) : Bool := c.isAlphanum || c == '-' || c == '_'

/-- Reads one name: in quotes, or of name characters only. -/
def readName? (cs : List Char) : Option (String × List Char) :=
  match readString? cs with
  | some r => some r
  | none =>
    match Text.splitWhile isNameChar cs with
    | ([], _) => none
    | (name, rest) => some (String.ofList name, rest)

/-- Reads at most `bound` names with dots between them; blanks may stand around each. -/
def scanNames : (bound : Nat) → List Char → Option (List String × List Char)
  | 0, _ => none
  | bound + 1, cs => do
    let (name, rest) ← readName? (skipBlanks cs)
    match skipBlanks rest with
    | '.' :: rest =>
      let (names, rest) ← scanNames bound rest
      some (name :: names, rest)
    | rest => some ([name], rest)

/-- Reads a dotted name. -/
def readNames? (cs : List Char) : Option (List String × List Char) :=
  scanNames (nestingBound - 1) cs

/-- A character of a value that is written in one piece. -/
def isWordChar (c : Char) : Bool := c.isAlphanum || c == '-' || c == '+' || c == '_' || c == '.'

/-- Whether three quotes of one kind stand in front. -/
def startsLong : List Char → Bool
  | a :: b :: c :: _ => (a == '"' || a == '\'') && b == a && c == a
  | _ => false

/-- Reads a value that is neither an array nor a table. -/
def readSimple? (cs : List Char) : Option (Toml × List Char) :=
  if startsLong cs then (readLongString? cs).map fun (s, rest) => (.string s, rest)
  else
    match readString? cs, readDate? cs with
    | some (s, rest), _ => some (.string s, rest)
    | none, some (s, rest) => some (.date s, rest)
    | none, none =>
      let (word, rest) := Text.splitWhile isWordChar cs
      (word? word).map fun v => (v, rest)

mutual

/-- Reads a value inside of `depth` others. -/
def readValue? : (fuel depth : Nat) → List Char → Option (Toml × List Char)
  | 0, _, _ => none
  | fuel + 1, depth, cs =>
    match cs with
    | '[' :: rest =>
      if depth + 1 < nestingBound then
        (readItems? fuel (depth + 1) rest).map fun (items, rest) => (.array items, rest)
      else none
    | '\x7b' :: rest =>
      if depth + 1 < nestingBound then do
        let (pairs, rest) ← readPairs? fuel (depth + 1) true rest
        some (← inlineTable? pairs, rest)
      else none
    | cs => readSimple? cs

/-- Reads the items of an array up to the closing bracket. Lines may end anywhere
between them, and a comma may follow the last one. -/
def readItems? : (fuel depth : Nat) → List Char → Option (List Toml × List Char)
  | 0, _, _ => none
  | fuel + 1, depth, cs => do
    match ← skipSpace false cs with
    | ']' :: rest => some ([], rest)
    | cs =>
      let (v, rest) ← readValue? fuel depth cs
      match ← skipSpace false rest with
      | ',' :: rest =>
        let (items, rest) ← readItems? fuel depth rest
        some (v :: items, rest)
      | ']' :: rest => some ([v], rest)
      | _ => none

/-- Reads the assignments of a table that is written as a value, up to the closing
brace; `first` holds in front of the first one. -/
def readPairs? : (fuel depth : Nat) → (first : Bool) → List Char →
    Option (List (List String × Toml) × List Char)
  | 0, _, _, _ => none
  | fuel + 1, depth, first, cs => do
    match first, skipBlanks cs with
    | true, '\x7d' :: rest => some ([], rest)
    | _, cs =>
      match ← readNames? cs with
      | (names, '=' :: rest) =>
        let (v, rest) ← readValue? fuel depth (skipBlanks rest)
        match skipBlanks rest with
        | ',' :: rest =>
          let (pairs, rest) ← readPairs? fuel depth false rest
          some ((names, v) :: pairs, rest)
        | '\x7d' :: rest => some ([(names, v)], rest)
        | _ => none
      | _ => none

end

/-- Reads one statement. -/
def readStatement? (fuel : Nat) : List Char → Option (Statement × List Char)
  | '[' :: '[' :: rest => do
    match ← readNames? rest with
    | (names, ']' :: ']' :: rest) => some (.element names, rest)
    | _ => none
  | '[' :: rest => do
    match ← readNames? rest with
    | (names, ']' :: rest) => some (.header names, rest)
    | _ => none
  | cs => do
    match ← readNames? cs with
    | (names, '=' :: rest) =>
      let (v, rest) ← readValue? fuel 0 (skipBlanks rest)
      some (.assignment names v, rest)
    | _ => none

/-- Whether the line ends here, apart from blanks and a comment. -/
def atLineEnd (cs : List Char) : Bool :=
  match skipBlanks cs with
  | [] => true
  | '\n' :: _ => true
  | '\r' :: '\n' :: _ => true
  | '#' :: _ => true
  | _ => false

/-- Reads statements up to the end of the text. -/
def readStatements? : (fuel : Nat) → List Char → Option (List Statement)
  | 0, _ => none
  | fuel + 1, cs => do
    match ← skipSpace false cs with
    | [] => some []
    | cs =>
      let (statement, rest) ← readStatement? (fuel + 1) cs
      if atLineEnd rest then
        let more ← readStatements? fuel rest
        some (statement :: more)
      else none

/-- The statements of a text. Each reading step takes at least one character, so
the length of the text bounds their number. -/
def statements? (cs : List Char) : Option (List Statement) := readStatements? (cs.length + 1) cs

/-- A text without a byte order mark in front. -/
def dropMark : List Char → List Char
  | '\uFEFF' :: rest => rest
  | cs => cs

/-- The document of a text. -/
def read? (text : String) : Option Entries := (statements? (dropMark text.toList)).bind build?

end TreeScript.Toml
