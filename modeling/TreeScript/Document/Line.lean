import TreeScript.Text.Quote
import TreeScript.Document.Writer

/-!
# TreeScript — lines of a source text

A source text is cut into lines, each with its indentation and its node. A
line ends at a line feed, a carriage return, or both, unless that stands in a
verbatim value. A name or value that begins like a quoted or verbatim text but
has no proper end is plain text up to where plain text ends; the only way a
text is refused is something other than spaces and tabs between a proper
closing quote and the end of its line.

* `Position` — a line and a column of a text;
* `Line`, `Line.Node`, `Line.Value` — a line before its value is read;
* `Line.scan` — one line and the rest of the text;
* `Line.scanAll` — all lines, or what follows where the text is refused.
-/

namespace TreeScript

-- ---------------------------------------------------------------------------
-- Positions
-- ---------------------------------------------------------------------------

/-- A place in a text, counted from zero. -/
structure Position where
  line : Nat
  column : Nat
  deriving DecidableEq, Repr

/-- The place after some characters. A carriage return without line feed is a
character like any other here. -/
def Position.advance : Position → List Char → Position
  | p, [] => p
  | p, '\r' :: '\n' :: rest => Position.advance ⟨p.line + 1, 0⟩ rest
  | p, c :: rest =>
    if c = '\n' then Position.advance ⟨p.line + 1, 0⟩ rest
    else Position.advance ⟨p.line, p.column + 1⟩ rest

/-- The place where the last part of a text begins. -/
def Position.ofTail (text tail : List Char) : Position :=
  Position.advance ⟨0, 0⟩ (text.take (text.length - tail.length))

-- ---------------------------------------------------------------------------
-- Lines
-- ---------------------------------------------------------------------------

/-- The value of a node before it is read: its text and, if there is one, its type. -/
inductive Line.Value where
  | absent
  | untyped (text : List Char)
  | typed (typeName text : List Char)
  deriving DecidableEq, Repr

/-- The node on a line. -/
structure Line.Node where
  name : List Char
  value : Line.Value
  deriving DecidableEq, Repr

/-- A line: the text from its beginning on, how many spaces stand in front, and its
node unless the line is blank or a comment. -/
structure Line where
  tail : List Char
  indent : Nat
  node : Option Line.Node
  deriving DecidableEq, Repr

namespace Line

open TreeScript.Text

/-- A name at the beginning of a text: the name, whether it is quoted, and the rest. -/
def scanName (cs : List Char) : List Char × Bool × List Char :=
  let bare := splitWhile (fun c => !(c == ':' || isLineEnd c)) cs
  match cs with
  | '"' :: rest =>
    match scanQuoted rest with
    | some (body, after) => (body, true, after)
    | none => (trimEnd bare.1, false, bare.2)
  | _ => (trimEnd bare.1, false, bare.2)

/-- The text of a value up to the end of its line, and the rest. -/
def scanBare (cs : List Char) : List Char × List Char :=
  let (body, after) := splitWhile (fun c => !isLineEnd c) cs
  (trimEnd body, after)

/-- The text of a value at the beginning of a text, and the rest. -/
def scanText (cs : List Char) : List Char × List Char :=
  match cs with
  | '@' :: '"' :: rest => (scanVerbatim rest).getD (scanBare cs)
  | '"' :: rest => (scanQuoted rest).getD (scanBare cs)
  | _ => scanBare cs

/-- A value behind a name, and the rest. -/
def scanValue : List Char → Value × List Char
  | ':' :: rest =>
    match Doc.splitType? rest with
    | some (word, rest) =>
      let (text, after) := scanText rest
      (.typed word text, after)
    | none =>
      let (text, after) := scanText rest
      (.untyped text, after)
  | cs => (.absent, cs)

/-- A node at the beginning of a text, and the rest; `none` for a node of white
space only. -/
def scanNode (cs : List Char) : Option Node × List Char :=
  let (name, isQuoted, rest) := scanName cs
  let (value, rest) := scanValue rest
  if !isQuoted && name == [] && value == .absent then (none, rest)
  else (some ⟨name, value⟩, rest)

/-- What stands on a line after its indentation — a comment or a node — and
what follows it, behind any spaces and tabs. -/
def scanBody (cs : List Char) : Option Node × List Char :=
  let (node, rest) :=
    if ['/', '/'].isPrefixOf cs then (none, cs.dropWhile fun c => !isLineEnd c)
    else scanNode cs
  (node, rest.dropWhile isBlank)

/-- One line of a text and what follows it. -/
def scan (cs : List Char) : Line × List Char :=
  let (spaces, rest) := splitWhile (· == ' ') cs
  let (node, rest) := scanBody rest
  (⟨cs, spaces.length, node⟩, rest)

-- ---------------------------------------------------------------------------
-- Nothing is read twice
-- ---------------------------------------------------------------------------

theorem scanName_length (cs : List Char) : (scanName cs).2.2.length ≤ cs.length := by
  have bare := dropWhile_length_le (fun c => !(c == ':' || isLineEnd c)) cs
  unfold scanName
  split
  · split
    next h => have := scanQuoted_length h; simp; omega
    · exact bare
  · exact bare

theorem scanBare_length (cs : List Char) : (scanBare cs).2.length ≤ cs.length :=
  dropWhile_length_le _ _

theorem scanText_length (cs : List Char) : (scanText cs).2.length ≤ cs.length := by
  have bare := scanBare_length cs
  unfold scanText
  split
  next rest =>
    cases h : scanVerbatim rest with
    | none => exact bare
    | some r => obtain ⟨_, _⟩ := r; have := scanVerbatim_length h; simp; omega
  next rest =>
    cases h : scanQuoted rest with
    | none => exact bare
    | some r => obtain ⟨_, _⟩ := r; have := scanQuoted_length h; simp; omega
  · exact bare

theorem splitType?_length {cs word rest : List Char}
    (h : Doc.splitType? cs = some (word, rest)) : rest.length ≤ cs.length := by
  unfold Doc.splitType? at h
  split at h
  next w r hs =>
    have hd : cs.dropWhile (· != ':') = ':' :: r := congrArg Prod.snd hs
    have := dropWhile_length_le (· != ':') cs
    grind
  · simp at h

theorem scanValue_length (cs : List Char) : (scanValue cs).2.length ≤ cs.length := by
  unfold scanValue
  split
  next rest =>
    split
    next h =>
      have := splitType?_length h
      have := scanText_length ‹_›
      simp; omega
    · have := scanText_length rest
      simp; omega
  · exact Nat.le_refl _

theorem scanNode_length (cs : List Char) : (scanNode cs).2.length ≤ cs.length := by
  have h₁ := scanName_length cs
  have h₂ := scanValue_length (scanName cs).2.2
  have h : (scanNode cs).2 = (scanValue (scanName cs).2.2).2 := by
    simp only [scanNode]
    split <;> rfl
  rw [h]
  omega

theorem scanBody_length (cs : List Char) : (scanBody cs).2.length ≤ cs.length := by
  unfold scanBody
  simp only
  refine Nat.le_trans (dropWhile_length_le _ _) ?_
  split
  · exact dropWhile_length_le _ _
  · exact scanNode_length cs

theorem scan_length (cs : List Char) : (scan cs).2.length ≤ cs.length :=
  Nat.le_trans (scanBody_length _) (dropWhile_length_le _ _)

-- ---------------------------------------------------------------------------
-- All lines
-- ---------------------------------------------------------------------------

/-- What follows the line end in front; `none` if something else is in front. -/
def afterLineEnd? : List Char → Option (List Char)
  | '\r' :: '\n' :: rest => some rest
  | '\r' :: rest => some rest
  | '\n' :: rest => some rest
  | _ => none

/-- A line end takes one character at least, so reading line by line comes to an end. -/
theorem afterLineEnd?_length {cs rest : List Char} (h : afterLineEnd? cs = some rest) :
    rest.length < cs.length := by
  unfold afterLineEnd? at h
  split at h <;> grind

/-- The lines of a text, or the part of it that begins with the first character
standing where a line has to end. -/
def scanAll (cs : List Char) : Except (List Char) (List Line) :=
  match _h : scan cs with
  | (line, rest) =>
    match _h' : afterLineEnd? rest with
    | some next => (scanAll next).map (line :: ·)
    | none => if rest = [] then .ok [line] else .error rest
termination_by cs.length
decreasing_by
  have h₁ := scan_length cs
  have h₂ := afterLineEnd?_length _h'
  simp only [_h] at h₁
  omega

end Line

end TreeScript
