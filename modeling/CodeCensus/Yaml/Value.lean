import CodeCensus.Yaml.Literal
import CodeCensus.Yaml.Merge

/-! The values that nodes stand for. A list, a table or a set is made empty where it is met first and filled later,
in the order of meeting; so it may hold itself, and of several faults the first in that order counts. -/

namespace CodeCensus.Yaml

inductive Made where
  | plain (d : Data)
  | list (items : List NodeId)
  | pairs (items : List (NodeId × NodeId))
  | table (entries : List (Data × NodeId))
  | set (keys : List Data)

def Kind.empty? : Kind → Option Made
  | .list => some (.list [])
  | .pairs => some (.pairs [])
  | .table => some (.table [])
  | .set => some (.set [])
  | _ => none

structure Builder where
  graph : Graph
  made : Array (Option Made)
  /-- The nodes whose values are still to be filled, last first. -/
  waiting : List NodeId := []
  merges : Nat

abbrev Build (α : Type) := StateT Builder (Except Refusal) α

namespace Build

def nodeAt (id : NodeId) : Build Node := do return (← get).graph.node id

def made? (id : NodeId) : Build (Option Made) := do return ((← get).made[id]?).join

def keep (id : NodeId) (value : Made) : Build Unit :=
  modify fun ⟨graph, made, waiting, merges⟩ => ⟨graph, made.setIfInBounds id (some value), waiting, merges⟩

def keepEmpty (id : NodeId) (value : Made) : Build Unit := do
  keep id value
  modify fun b => { b with waiting := id :: b.waiting }

/-- The code points of a scalar. A mapping counts as what its first mark stands for. -/
def codesOf : Nat → NodeId → Build (List Nat)
  | 0, _ => throw .deepNesting
  | fuel + 1, id => do
    match (← nodeAt id).body with
    | .scalar codes => return codes
    | .sequence _ => throw .malformed
    | .mapping entries =>
      let g := (← get).graph
      match entries.find? fun (key, _) => g.kind key == .mark with
      | some (_, value) => codesOf fuel value
      | none => throw .malformed

def literalAt (id : NodeId) : Build Data := do
  let node ← nodeAt id
  if [Kind.merge, .mark, .unknown].contains node.kind then throw .malformed
  let codes ← codesOf ((← get).graph.nodes.size + 1) id
  if node.kind == .moment && node.entries?.isSome then throw .notScalar
  literal node.kind codes

def make (id : NodeId) : Build Unit := do
  if (← made? id).isSome then return
  match (← nodeAt id).kind.empty? with
  | some empty => keepEmpty id empty
  | none => keep id (.plain (← literalAt id))

def makeKey (id : NodeId) : Build Data := do
  -- lists, tables and sets cannot be keys
  make id
  match ← made? id with
  | some (.plain d) => return d
  | _ => throw .malformed

/-! ## Filling -/

def tableAt (id : NodeId) : Build (List (Data × NodeId)) := do
  -- each key once, with its last value
  let ⟨graph, made, waiting, merges⟩ ← get
  let ((), graph) ← (Merge.flatten merges id).run graph
  set (Builder.mk graph made waiting merges)
  let entries ← ((graph.node id).entries?.getD []).mapM fun (key, value) => do
    let k ← makeKey key
    make value
    return (k, value)
  return Data.collect entries

def pairsOf (items : List NodeId) : Build (List (NodeId × NodeId)) :=
  items.mapM fun item => do
    match (← nodeAt item).body with
    | .mapping [(key, value)] =>
      make key
      make value
      return (key, value)
    | _ => throw .malformed

/-- The keys of a set: numbers in ascending order, others in that of their first appearance. -/
def setOrder (keys : List Data) : List Data :=
  match keys.mapM fun key => match key with | .int n => some n | _ => none with
  | some numbers => (numbers.mergeSort fun a b => a ≤ b).map .int
  | none => keys

def fill (id : NodeId) : Build Unit := do
  let node ← nodeAt id
  match node.kind, node.body with
  | .list, .sequence items =>
    items.forM make
    keep id (.list items)
  | .pairs, .sequence items => keep id (.pairs (← pairsOf items))
  | .table, .mapping _ => keep id (.table (← tableAt id))
  | .set, .mapping _ => keep id (.set (setOrder ((← tableAt id).map Prod.fst)))
  | _, _ => throw .malformed

/-- Fills all values that wait for it, and those that wait then. `fuel` is more than there are nodes. -/
def fillAll : Nat → Build Unit
  | 0 => pure ()
  | fuel + 1 => do
    let waiting := (← get).waiting.reverse
    if waiting.isEmpty then return
    modify fun b => { b with waiting := [] }
    waiting.forM fill
    fillAll fuel

end Build

def valuesFrom (root : NodeId) (g : Graph) : Except Refusal (Array (Option Made)) := do
  let count := g.nodes.size
  let start : Builder := { graph := g, made := Array.replicate count none, merges := g.merges }
  let ((), b) ← (do Build.make root; Build.fillAll (count + 1)).run start
  return b.made

/-! ## Whole values -/

def Made.knot : Made → Data
  | .plain d => d
  | .set keys => .set keys
  | .table _ => .knot .table
  | _ => .knot .list

/-- How far from the top values are written out even where they are met inside themselves. -/
def fullDepth : Nat := 4

/-- A whole value with all that it holds. `depth` is how deep it may nest, and `around` are the nodes that it is
met in. What lies far from the top is written out once only, and cut off where it is met inside itself. -/
def wholeFrom (made : Array (Option Made)) :
    Nat → List NodeId → NodeId → StateM (Array (Option Data)) Data
  | 0, _, id => return (((made[id]?).join).map Made.knot).getD .null
  | depth + 1, around, id => do
    let isDeep := decide (fullDepth ≤ around.length)
    match (made[id]?).join with
    | none => return .null
    | some (.plain d) => return d
    | some (.set keys) => return .set keys
    | some value =>
      if isDeep && around.contains id then return value.knot
      let done ← get
      match if isDeep then (done[id]?).join else none with
      | some d => return d
      | none =>
        let below := wholeFrom made depth (id :: around)
        let d ← match value with
          | .table entries => .table <$> entries.mapM fun (k, v) => return (k, ← below v)
          | .pairs items => .list <$> items.mapM fun (k, v) => return Data.pair (← below k) (← below v)
          | .list items => .list <$> items.mapM below
          | value => pure value.knot
        if isDeep then modify fun done => done.setIfInBounds id (some d)
        return d

def valueOf (root : NodeId) (g : Graph) : Except Refusal Data :=
  (valuesFrom root g).map fun made =>
    ((wholeFrom made (Fault.maxNesting + fullDepth) [] root).run (Array.replicate made.size none)).run.1

/-- The value of the only document of a text, which may be cut off; null if it holds none. -/
def read (text : List Char) (cut : Option Refusal) : Except Refusal Data := do
  match ← document? text cut with
  | none => return .null
  | some (root, g) => valueOf root g

end CodeCensus.Yaml
