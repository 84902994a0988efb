import CodeCensus.Yaml.Graph
import CodeCensus.Yaml.Spot

/-! Entries that are taken over. In a mapping, a merge key stands for the entries of the mapping that is its value,
or of several, of which the first counts most; they come before the mapping's own entries, which count more. -/

namespace CodeCensus.Yaml

abbrev Merge (α : Type) := StateT Graph (Except Refusal) α

namespace Merge

def entriesOf (id : NodeId) : Merge (List (NodeId × NodeId)) := do
  match ((← get).node id).entries? with
  | some entries => return entries
  | none => throw .malformed

def unmark (entries : List (NodeId × NodeId)) : Merge Unit :=
  modify fun g => entries.foldl (fun g (key, _) => if g.kind key == .mark then g.setKind key .text else g) g

/-- The entries of a mapping, or of a list of mappings in turn, with what their own merge keys stand for. -/
def entriesFrom (flatten : NodeId → Merge Unit) (source : NodeId) : Merge (List (NodeId × NodeId)) := do
  let flattened (id : NodeId) : Merge (List (NodeId × NodeId)) := do
    let _ ← entriesOf id
    flatten id
    entriesOf id
  match ((← get).node source).body with
  | .mapping _ => flattened source
  | .sequence items => return (← items.mapM flattened).reverse.flatten
  | .scalar _ => throw .malformed

/-- Drops the next merge key of a mapping from a place on: what it stands for, and the place after it, if there is
one. The keys before it are gone through. -/
def dropMerge? (id : NodeId) (place : Nat) : Merge (Option (NodeId × Nat)) := do
  let entries ← entriesOf id
  let g ← get
  let between := (entries.drop place).takeWhile fun (key, _) => g.kind key != .merge
  unmark between
  let next := place + between.length
  match entries.drop next with
  | [] => return none
  | (_, source) :: rest =>
    modify (Graph.setBody id (.mapping (entries.take next ++ rest)))
    return some (source, next)

def takeOver (id : NodeId) (taken : List (NodeId × NodeId)) : Merge Unit := do
  let entries ← entriesOf id
  modify (Graph.setBody id (.mapping (taken ++ entries)))

/-- Goes through the entries of a mapping from a place on, `taken` being what has been taken over so far. `fuel` is
more than the number of merge keys that are left anywhere. -/
def flattenFrom : Nat → NodeId → Nat → List (NodeId × NodeId) → Merge Unit
  | 0, _, _, _ => throw .malformed
  | fuel + 1, id, place, taken => do
    match ← dropMerge? id place with
    | none => takeOver id taken
    | some (source, place) =>
      let more ← entriesFrom (fun id => flattenFrom fuel id 0 []) source
      flattenFrom fuel id place (taken ++ more)

/-- Takes over what the merge keys of a mapping stand for. `merges` is at least the number of merge keys that are
left anywhere. -/
def flatten (merges : Nat) (id : NodeId) : Merge Unit := flattenFrom (merges + 1) id 0 []

end Merge

end CodeCensus.Yaml
