import TreeScript.Failure
import TreeScript.Path.Grammar

/-!
# TreeScript — resolving values

What a node's value leads to. A path expression starts at the node that holds
it; each step turns the nodes found so far into the nodes found next, every
node once and in the order in which it is first met. Resolving changes nothing
and is done before anything is made of the result.

* `Item` — one thing that a value leads to;
* `Path.slice` — a part of a list, within its bounds;
* `Path.Step.apply`, `Path.Step.applyAll` — a step from one node, from several;
* `PathExpr.nodes`, `PathExpr.evaluate` — the nodes of an expression, and what
  is given for them;
* `Store.resolve` — what a node's value leads to;
* `Store.singleValue`, `Store.values`, `Store.strings` — the same as values.
-/

namespace TreeScript

/-- One thing that a value leads to. -/
inductive Item where
  | node (h : Handle)
  | value (v : Value)
  | name (s : String)
  | count (n : Nat)
  deriving DecidableEq

namespace Path

/-- The members of a list from the place `start` up to the place `stop`. The two have to be
places of the list, in this order: there is no slice out of bounds. -/
def slice {α : Type} (xs : List α) (start stop : Nat) (_ : start ≤ stop) (_ : stop ≤ xs.length) :
    List α :=
  (xs.take stop).drop start

theorem mem_of_mem_slice {α : Type} {xs : List α} {start stop : Nat} {hstart : start ≤ stop}
    {hstop : stop ≤ xs.length} {x : α} (hx : x ∈ slice xs start stop hstart hstop) : x ∈ xs :=
  List.mem_of_mem_take (List.mem_of_mem_drop hx)

/-- The nodes that a step leads to from one node. -/
def Step.apply (s : Store) (h : Handle) : Step → Except Fault (List Handle)
  | .root => .ok (s.root? h).toList
  | .parent => .ok (s.parent? h).toList
  | .children => s.children h
  | .descendants => s.descendants h
  | .reference => do
    let v ← s.value h
    .ok ((v.bind Value.target?).filter s.isAlive).toList
  | .previous => .ok (s.previousSibling? h).toList
  | .next => .ok (s.nextSibling? h).toList
  | .index n => .ok (s.child? h n).toList
  | .range first last => do
    let below ← s.children h
    let stop := min last below.length
    .ok (slice below (min first stop) stop (Nat.min_le_right _ _) (Nat.min_le_right _ _))
  | .valueEquals text => do
    let v ← s.value h
    .ok (if v.bind (Value.scalarText? false) = some text then [h] else [])
  | .named name => do
    let n ← s.name h
    .ok (if n = name then [h] else [])

/-- The nodes that a step leads to from several nodes, each where it is met first. -/
def Step.applyAll (s : Store) (step : Step) (hs : List Handle) : Except Fault (List Handle) := do
  let found ← hs.mapM fun h => step.apply s h
  .ok found.flatten.eraseDups

/-- The nodes that some steps lead to from several nodes. -/
def walk (s : Store) : List Step → List Handle → Except Fault (List Handle)
  | [], hs => .ok hs
  | step :: rest, hs => do walk s rest (← step.applyAll s hs)

end Path

namespace PathExpr

/-- The nodes that an expression leads to. From a node that is gone it leads nowhere. -/
def nodes (e : PathExpr) (s : Store) (start : Handle) : Except Fault (List Handle) :=
  Path.walk s e.steps (if s.isAlive start then [start] else [])

/-- What an expression gives. -/
def evaluate (e : PathExpr) (s : Store) (start : Handle) : Except Fault (List Item) := do
  let found ← e.nodes s start
  match e.yield with
  | .node => .ok (found.map .node)
  | .value =>
    let values ← found.mapM s.value
    .ok ((values.filterMap id).map .value)
  | .name =>
    let names ← found.mapM s.name
    .ok (names.map .name)
  | .count => .ok [.count found.length]

end PathExpr

namespace Store

/-- What a node's value leads to: nothing without a value, the result of an
expression, the node of a node value, and otherwise the value itself. -/
def resolve (s : Store) (h : Handle) : Except Halt (List Item) := do
  match ← s.value h with
  | none => .ok []
  | some (.scalar (.expr text)) =>
    match PathExpr.parse text with
    | .error cause => s.fail h (.expression text cause)
    | .ok e => Halt.ofFault (e.evaluate s h)
  | some (.node target) => .ok [.node target]
  | some (.ref target) => .ok [.node target]
  | some v => .ok [.value v]

/-- The value that an item stands for: a node stands for its own value. -/
def itemValue (s : Store) : Item → Except Fault (Option Value)
  | .node h => s.value h
  | .value v => .ok (some v)
  | .name text => .ok (some (.scalar (.string text)))
  | .count n => .ok (some (.scalar (.int (Int64.ofNat n))))

/-- The value of the first thing that a node's value leads to. -/
def singleValue (s : Store) (h : Handle) : Except Halt (Option Value) := do
  match ← s.resolve h with
  | [] => .ok none
  | item :: _ => Halt.ofFault (s.itemValue item)

/-- The values of all things that a node's value leads to. -/
def values (s : Store) (h : Handle) : Except Halt (List Value) := do
  let items ← s.resolve h
  let found ← Halt.ofFault (items.mapM s.itemValue)
  .ok (found.filterMap id)

/-- The text forms of all scalar values that a node's value leads to. -/
def strings (s : Store) (h : Handle) : Except Halt (List String) := do
  .ok ((← s.values h).filterMap (Value.scalarText? false))

end Store

end TreeScript
