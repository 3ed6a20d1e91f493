import TreeScript.Store.Navigation

/-!
# TreeScript — editing the store

Creating, moving and freeing nodes. A node has at most one parent and stands
once in its list of children; a node that another node owns as its value has
no parent. No node is moved below itself.

* `create`, `add` — new nodes;
* `rename`, `setValue`, `takeValue` — a node's own data;
* `detach`, `wouldCycle`, `moveBelow` — a node's place;
* `remove`, `clear` — freeing nodes with all that they hold.
-/

namespace TreeScript.Store

-- ---------------------------------------------------------------------------
-- Links
-- ---------------------------------------------------------------------------

/-- Takes a node out of its parent's children; it stays alive. -/
def detach (s : Store) (h : Handle) : Store :=
  match s.parent? h with
  | none => s
  | some p =>
    (s.modify p fun n => { n with children := n.children.filter (· != h) }).modify h
      fun n => { n with parent := none }

/-- Makes a node without parent the child of another at a position. -/
def link (s : Store) (parent : Handle) (index : Nat) (child : Handle) : Store :=
  (s.modify child fun n => { n with parent := some parent }).modify parent
    fun n => { n with children := n.children.insertIdx index child }

/-- Makes a node without parent the last child of another. -/
def linkLast (s : Store) (parent child : Handle) : Store :=
  s.link parent (s.childList parent).length child

-- ---------------------------------------------------------------------------
-- Freeing
-- ---------------------------------------------------------------------------

/-- Frees a node with all that is below it and all that these nodes own. -/
def remove (s : Store) (h : Handle) : Store :=
  if s.isAlive h then (s.detach h).releaseAll [h] else s

/-- Frees the nodes of a list one after the other; each has to be alive when
its turn comes. -/
def removeEach (s : Store) : List Handle → Except Fault Store
  | [] => .ok s
  | h :: rest =>
    if s.isAlive h then
      removeEach ((s.modify h fun n => { n with parent := none }).releaseAll [h]) rest
    else .error .stale

/-- Frees all children of a live node. -/
def clear (s : Store) (h : Handle) : Except Fault Store := do
  let below ← s.children h
  (s.modify h fun n => { n with children := [] }).removeEach below

-- ---------------------------------------------------------------------------
-- Data
-- ---------------------------------------------------------------------------

/-- Gives a node a value. A node that the value owns loses its parent; a node
that the old value owned is freed, unless the new value owns it too. -/
def assign (s : Store) (h : Handle) (v : Option Value) : Store :=
  let incoming := v.bind Value.owned?
  let s := match incoming with
    | some nested => s.detach nested
    | none => s
  let outgoing := (s.node? h).bind Node.owned?
  let s := s.modify h fun n => { n with value := v }
  match outgoing with
  | some old => if incoming = some old then s else s.remove old
  | none => s

/-- Gives a live node a value. -/
def setValue (s : Store) (h : Handle) (v : Option Value) : Except Fault Store :=
  if s.isAlive h then .ok (s.assign h v) else .error .stale

/-- Takes the value out of a live node; a node that it owns is not freed. -/
def takeValue (s : Store) (h : Handle) : Except Fault (Option Value × Store) := do
  let n ← s.node h
  .ok (n.value, s.modify h fun n => { n with value := none })

/-- Gives a live node a name. -/
def rename (s : Store) (h : Handle) (name : String) : Except Fault Store :=
  if s.isAlive h then .ok (s.modify h fun n => { n with name }) else .error .stale

-- ---------------------------------------------------------------------------
-- New nodes
-- ---------------------------------------------------------------------------

/-- A new node without parent. -/
def create (s : Store) (name : String) (v : Option Value) : Handle × Store :=
  let (h, s) := s.allocate { name }
  match v with
  | none => (h, s)
  | some _ => (h, s.assign h v)

/-- A new node as the last child of a live node. -/
def add (s : Store) (parent : Handle) (name : String) (v : Option Value) :
    Except Fault (Handle × Store) :=
  if s.isAlive parent then
    let (h, s) := s.create name v
    if s.isAlive parent then .ok (h, s.linkLast parent h) else .error .stale
  else .error .stale

-- ---------------------------------------------------------------------------
-- Moving
-- ---------------------------------------------------------------------------

/-- The position that a node takes among children it may be one of itself:
its own place no longer counts. -/
def targetIndex (s : Store) (parent : Handle) (index : Nat) (child : Handle) : Nat :=
  if s.parent? child = some parent then
    match s.indexOf? child with
    | some old => if old < index then index - 1 else index
    | none => index
  else index

/-- Whether a node would stand above itself if it were moved below `parent`. -/
def wouldCycle (s : Store) (parent child : Handle) : Bool :=
  child == parent || s.isAncestor child parent

/-- Moves a node below another that it does not stand above, in front of the child
at `index`; past the end means last. -/
def moveBelow (s : Store) (parent : Handle) (index : Nat) (child : Handle) : Except Fault Store :=
  let index := s.targetIndex parent index child
  let s := s.detach child
  if s.isAlive parent ∧ s.isAlive child then
    .ok (s.link parent (min index (s.childList parent).length) child)
  else .error .stale

end TreeScript.Store
