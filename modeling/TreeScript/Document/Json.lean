import TreeScript.Document.Writer

/-!
# TreeScript — snapshots as JSON

A snapshot is an object with the fields `name`, `type`, `value` and `children`,
in this order; a field that has nothing to say is left out. Each field and each
child stands on a line of its own, two spaces deeper than what it is in.

* `Json.escapeChar`, `Json.string` — texts;
* `Json.block` — lines between brackets;
* `Snapshot.json` — snapshots.
-/

namespace TreeScript.Json

/-- How a character is written in a text. -/
def escapeChar (c : Char) : List Char :=
  if c = '"' ∨ c = '\\' then ['\\', c]
  else if c = '\x08' then ['\\', 'b']
  else if c = '\t' then ['\\', 't']
  else if c = '\n' then ['\\', 'n']
  else if c = '\x0c' then ['\\', 'f']
  else if c = '\r' then ['\\', 'r']
  else if c.toNat < 0x20 then
    "\\u00".toList ++ [Nat.digitChar (c.toNat / 16), Nat.digitChar (c.toNat % 16)]
  else [c]

/-- A text between quotes. -/
def string (s : String) : List Char := '"' :: (s.toList.flatMap escapeChar ++ ['"'])

/-- The line end and the spaces in front of a line. -/
def newLine (depth : Nat) : List Char := '\n' :: List.replicate (2 * depth) ' '

/-- Parts between brackets, each on a line of its own with a comma between them. -/
def block (depth : Nat) (opening closing : Char) (parts : List (List Char)) : List Char :=
  let lines := parts.map fun part => newLine (depth + 1) ++ part
  opening :: (List.intercalate [','] lines ++ newLine depth ++ [closing])

/-- A field with its value. -/
def field (name : String) (value : List Char) : List Char :=
  string name ++ ':' :: ' ' :: value

end TreeScript.Json

namespace TreeScript

mutual

/-- A snapshot as JSON; all lines but the first are as deep as `depth` says. -/
def Snapshot.json (depth : Nat) : Snapshot → List Char
  | .node name typeName value children =>
    let below := Snapshot.jsonAll (depth + 2) children
    Json.block depth '\x7b' '\x7d'
      (Json.field "name" (Json.string name)
        :: (typeName.toList.map fun t => Json.field "type" (Json.string t))
        ++ (value.toList.map fun v => Json.field "value" (Json.string v))
        ++ (if below.isEmpty then []
          else [Json.field "children" (Json.block (depth + 1) '[' ']' below)]))

/-- Some snapshots as JSON, each for itself. -/
def Snapshot.jsonAll (depth : Nat) : List Snapshot → List (List Char)
  | [] => []
  | s :: rest => s.json depth :: Snapshot.jsonAll depth rest

end

end TreeScript
