import TreeScript.Text.Shape
import TreeScript.Text.Space

/-!
# TreeScript — quoted and verbatim text

Two ways to write a text so that a reader knows where it ends. A quoted text
stands on one line between double quotes and has five escapes; a verbatim text
begins with `@"`, may span lines and writes a double quote twice. Both readers
start behind the opening mark and give the text and what follows the closing
quote, or nothing if there is no closing quote to be found.

* `quoted`, `verbatim` — writing;
* `scanQuoted`, `scanVerbatim` — reading;
* `shownQuoted` — a text as messages show it.
-/

namespace TreeScript.Text

-- ---------------------------------------------------------------------------
-- Quoted text
-- ---------------------------------------------------------------------------

/-- How a character is written inside quotes. -/
def escapeChar (c : Char) : List Char :=
  if c = '"' then ['\\', '"']
  else if c = '\\' then ['\\', '\\']
  else if c = '\t' then ['\\', 't']
  else if c = '\n' then ['\\', 'n']
  else if c = '\r' then ['\\', 'r']
  else [c]

/-- The text between double quotes. -/
def quoted (cs : List Char) : List Char := '"' :: (cs.flatMap escapeChar ++ ['"'])

/-- The character that an escape stands for; `none` for a letter that is no escape. -/
def unescape? (c : Char) : Option Char :=
  if c = '"' then some '"'
  else if c = '\\' then some '\\'
  else if c = 'n' then some '\n'
  else if c = 'r' then some '\r'
  else if c = 't' then some '\t'
  else none

/-- Reads a quoted text up to its closing quote. -/
def scanQuoted : List Char → Option (List Char × List Char)
  | [] => none
  | c :: rest =>
    if c = '"' then some ([], rest)
    else if c = '\\' then
      match rest with
      | [] => none
      | e :: rest =>
        match unescape? e with
        | none => none
        | some d => (scanQuoted rest).map fun r => (d :: r.1, r.2)
    else if isLineEnd c then none
    else (scanQuoted rest).map fun r => (c :: r.1, r.2)

theorem scanQuoted_length {cs body rest : List Char}
    (h : scanQuoted cs = some (body, rest)) : rest.length < cs.length := by
  fun_induction scanQuoted cs generalizing body <;> grind [Option.map_eq_some_iff]

-- ---------------------------------------------------------------------------
-- Verbatim text
-- ---------------------------------------------------------------------------

/-- The text between `@"` and a double quote, with inner double quotes doubled. -/
def verbatim (cs : List Char) : List Char :=
  '@' :: '"' :: (cs.flatMap (fun c => if c = '"' then ['"', '"'] else [c]) ++ ['"'])

/-- Reads a verbatim text up to its closing quote. -/
def scanVerbatim : List Char → Option (List Char × List Char)
  | [] => none
  | c :: rest =>
    if c = '"' then
      match rest with
      | '"' :: rest => (scanVerbatim rest).map fun r => ('"' :: r.1, r.2)
      | rest => some ([], rest)
    else (scanVerbatim rest).map fun r => (c :: r.1, r.2)

theorem scanVerbatim_length {cs body rest : List Char}
    (h : scanVerbatim cs = some (body, rest)) : rest.length < cs.length := by
  fun_induction scanVerbatim cs generalizing body <;> grind [Option.map_eq_some_iff]

-- ---------------------------------------------------------------------------
-- Text in messages
-- ---------------------------------------------------------------------------

/-- How a character is written in a quoted text of a message: one without a shape
is shown by its number, or by a letter if there is one for it. -/
def shownChar (c : Char) : List Char :=
  if c = '"' ∨ c = '\\' then ['\\', c]
  else if c = '\n' then ['\\', 'n']
  else if c = '\r' then ['\\', 'r']
  else if c = '\t' then ['\\', 't']
  else if c = '\x00' then ['\\', '0']
  else if isShapeless c then '\\' :: 'u' :: '\x7b' :: (Nat.toDigits 16 c.toNat ++ ['\x7d'])
  else [c]

/-- A text between double quotes as messages show it. -/
def shownQuoted (s : String) : String :=
  String.ofList ('"' :: (s.toList.flatMap shownChar ++ ['"']))

end TreeScript.Text
