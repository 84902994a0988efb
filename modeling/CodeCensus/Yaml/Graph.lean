import CodeCensus.Yaml.Kind

/-! The nodes of a document. They are known by numbers, since an alias stands for a node that may stand elsewhere
too, even for one that holds the alias. -/

namespace CodeCensus.Yaml

abbrev NodeId := Nat

inductive Body where
  | scalar (codes : List Nat)
  | sequence (items : List NodeId)
  | mapping (entries : List (NodeId × NodeId))
  deriving DecidableEq, Repr

/-- A node: what it stands for, and what it is made of. -/
structure Node where
  kind : Kind
  body : Body
  deriving DecidableEq, Repr

def Node.nothing : Node := ⟨.null, .scalar []⟩

def Node.entries? (n : Node) : Option (List (NodeId × NodeId)) :=
  match n.body with
  | .mapping entries => some entries
  | _ => none

structure Graph where
  nodes : Array Node := #[]

namespace Graph

def node (g : Graph) (id : NodeId) : Node := (g.nodes[id]?).getD .nothing

def add (n : Node) (g : Graph) : NodeId × Graph := (g.nodes.size, ⟨g.nodes.push n⟩)

def setBody (id : NodeId) (body : Body) (g : Graph) : Graph :=
  ⟨g.nodes.modify id fun n => { n with body := body }⟩

def setKind (id : NodeId) (kind : Kind) (g : Graph) : Graph :=
  ⟨g.nodes.modify id fun n => { n with kind := kind }⟩

def kind (g : Graph) (id : NodeId) : Kind := (g.node id).kind

def merges (g : Graph) : Nat :=
  g.nodes.foldl
    (fun count n => count + ((n.entries?.getD []).filter fun (key, _) => g.kind key == .merge).length) 0

end Graph

end CodeCensus.Yaml
