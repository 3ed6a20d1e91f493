import TreeScript.Scalar.Binary64

/-!
# TreeScript — TOML documents

A TOML document is a table: names with values. Its text is a list of
statements. A header names the table that the assignments after it fill, a
doubled header appends a new table to an array, and an assignment may reach
into tables by a dotted name. A table can be opened only once, each name be
given only once, and a dotted name only adds to tables that dotted names made;
a document that breaks this is no document.

* `Toml`, `Toml.Entries`, `Toml.Origin` — values and tables;
* `Toml.Statement` — what one statement of the text says;
* `Toml.descend` — changing the table that names lead to;
* `Toml.build?` — the document that some statements describe.
-/

namespace TreeScript

/-- How a table came to be: as part of the name of another one, by its own
header, by a dotted name of an assignment, or written out as a value. -/
inductive Toml.Origin where
  | implied
  | header
  | dotted
  | inline
  deriving DecidableEq, Repr

/-- A value of a document. An array of tables that headers append to is kept
apart from an array that is written out, which nothing can be appended to. -/
inductive Toml where
  | string (text : String)
  | integer (n : Int)
  | float (x : Binary64)
  | boolean (b : Bool)
  | date (text : String)
  | array (items : List Toml)
  | table (origin : Toml.Origin) (entries : List (String × Toml))
  | tables (items : List (List (String × Toml)))

namespace Toml

/-- The names and values of a table. -/
abbrev Entries : Type := List (String × Toml)

/-- What one statement of a document says. -/
inductive Statement where
  | header (names : List String)
  | element (names : List String)
  | assignment (names : List String) (value : Toml)

/-- A value under a name, in the place of the one that the name has, or at the end. -/
def put (name : String) (v : Toml) : Entries → Entries
  | [] => [(name, v)]
  | e :: rest => if e.1 = name then (name, v) :: rest else e :: put name v rest

/-- Whether names of one kind may lead through a table. Headers lead through any
table that is not a value; dotted names only through tables without a header. -/
def Origin.leadsThrough : (way table : Origin) → Bool
  | .dotted, o => o == .dotted || o == .implied
  | _, o => o != .inline

/-- Changes the table that names lead to, from a table on; `f` gets it with its origin.
Missing tables on the way are made; the way through an array of tables leads into its
last one, which a header made. -/
def descend (way : Origin) (f : Origin → Entries → Option Entries) :
    List String → Origin → Entries → Option Entries
  | [], o, t => f o t
  | name :: rest, _, t =>
    match t.lookup name with
    | none => (descend way f rest way []).map fun sub => put name (.table way sub) t
    | some (.table o sub) =>
      if way.leadsThrough o then
        (descend way f rest o sub).map fun sub => put name (.table o sub) t
      else none
    | some (.tables items) =>
      match items.getLast? with
      | some sub =>
        (descend way f rest .header sub).map fun sub =>
          put name (.tables (items.dropLast ++ [sub])) t
      | none => none
    | some _ => none

/-- Changes what the last of a header's names stands for; `f` gets what is there. -/
def alter (f : Option Toml → Option Toml) (names : List String) (t : Entries) :
    Option Entries :=
  match names.getLast? with
  | none => none
  | some last =>
    descend .implied (fun _ t => (f (t.lookup last)).map fun v => put last v t) names.dropLast
      .header t

/-- Opens a table: one that is not there yet, or that is so far only part of names. -/
def openTable : Option Toml → Option Toml
  | none => some (.table .header [])
  | some (.table .implied entries) => some (.table .header entries)
  | some _ => none

/-- Appends an empty table to an array of tables. -/
def appendTable : Option Toml → Option Toml
  | none => some (.tables [[]])
  | some (.tables items) => some (.tables (items ++ [[]]))
  | some _ => none

/-- Gives a dotted name its only value. If the name has several parts, the table that it
leads to has to be made by dotted names too. -/
def assign (names : List String) (v : Toml) (o : Origin) (t : Entries) : Option Entries :=
  match names.getLast? with
  | none => none
  | some last =>
    let path := names.dropLast
    descend .dotted (fun o t =>
      if path ≠ [] ∧ o ≠ .dotted then none
      else
        match t.lookup last with
        | none => some (put last v t)
        | some _ => none) path o t

/-- A document under construction: its table so far, and the names of the table
that assignments go to. -/
structure Draft where
  entries : Entries := []
  current : List String := []

/-- A document with one more statement. -/
def Draft.add? (d : Draft) : Statement → Option Draft
  | .header names => (alter openTable names d.entries).map fun t => ⟨t, names⟩
  | .element names => (alter appendTable names d.entries).map fun t => ⟨t, names⟩
  | .assignment names v =>
    (descend .implied (assign names v) d.current .header d.entries).map fun t =>
      { d with entries := t }

/-- The document that some statements describe. -/
def build? (statements : List Statement) : Option Entries :=
  (statements.foldlM Draft.add? {}).map Draft.entries

/-- The table of some dotted names with their values, as a value. -/
def inlineTable? (pairs : List (List String × Toml)) : Option Toml :=
  (pairs.foldlM (fun t (names, v) => assign names v .inline t) []).map (.table .inline)

end Toml

end TreeScript
