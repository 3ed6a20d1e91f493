import TreeScript.Scalar.Basic

/-!
# TreeScript — documents

What a source text says: an ordered forest of named nodes. A node holds no
value, a scalar, or a whole document of its own.

* `Doc` — a node of a document with all that is below it;
* `Doc.Entry` — a node as one line shows it, with its depth;
* `Doc.ofEntries`, `Doc.entries` — a forest from its lines, and back.
-/

namespace TreeScript

/-- A node of a document. `plain` holds a scalar or nothing, `holder` holds a
document. -/
inductive Doc where
  | plain (name : String) (value : Option Scalar) (children : List Doc)
  | holder (name : String) (nested : List Doc) (children : List Doc)

namespace Doc

/-- The name of a node. -/
def name : Doc → String
  | .plain name _ _ => name
  | .holder name _ _ => name

/-- The nodes below a node. -/
def children : Doc → List Doc
  | .plain _ _ children => children
  | .holder _ _ children => children

/-- What a node holds, without the nodes below it. -/
inductive Content where
  | scalar (value : Option Scalar)
  | nested (docs : List Doc)

/-- What a node holds. -/
def content : Doc → Content
  | .plain _ value _ => .scalar value
  | .holder _ nested _ => .nested nested

/-- The node with this name and content above the given nodes. -/
def make (name : String) : Content → List Doc → Doc
  | .scalar value, children => .plain name value children
  | .nested docs, children => .holder name docs children

-- ---------------------------------------------------------------------------
-- Lines
-- ---------------------------------------------------------------------------

/-- A node as one line shows it. -/
structure Entry where
  depth : Nat
  name : String
  content : Content

/-- The forest of some lines: the lines after a line that are deeper than it,
up to the first one that is not, are what stands below it. -/
def ofEntries : List Entry → List Doc
  | [] => []
  | e :: rest =>
    let below := fun x : Entry => decide (e.depth < x.depth)
    make e.name e.content (ofEntries (rest.takeWhile below)) :: ofEntries (rest.dropWhile below)
termination_by es => es.length
decreasing_by
  all_goals simp only [List.length_cons]
  · exact Nat.lt_succ_of_le (List.takeWhile_sublist _).length_le
  · exact Nat.lt_succ_of_le (List.dropWhile_sublist _).length_le

mutual

/-- The lines of a node at a depth: its own, then those of what is below it. -/
def entries (depth : Nat) : Doc → List Entry
  | .plain name value children =>
    ⟨depth, name, .scalar value⟩ :: forestEntries (depth + 1) children
  | .holder name nested children =>
    ⟨depth, name, .nested nested⟩ :: forestEntries (depth + 1) children

/-- The lines of a forest at a depth. -/
def forestEntries (depth : Nat) : List Doc → List Entry
  | [] => []
  | d :: rest => entries depth d ++ forestEntries depth rest

end

end Doc

end TreeScript
