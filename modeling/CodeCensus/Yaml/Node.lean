import CodeCensus.Fault
import CodeCensus.Yaml.Graph
import CodeCensus.Yaml.TokenStream

/-! The nodes of a text, put together from its tokens. -/

namespace CodeCensus.Yaml

structure Composer where
  tokens : List Token
  graph : Graph := {}
  /-- The nodes with anchors; that of a sequence or mapping is there before what it holds. -/
  anchors : List (String × NodeId) := []
  handles : List (String × String) := []

abbrev Compose (α : Type) := StateT Composer (Except Refusal) α

namespace Compose

def refuse {α : Type} (r : Refusal) : Compose α := fun _ => .error r

/-- The next token, which stays. A place where the text could not be read on refuses. -/
def peek : Compose Token := fun c =>
  match c.tokens with
  | [] => .error .malformed
  | .refused r :: _ => .error r
  | t :: _ => .ok (t, c)

def drop : Compose Unit := fun c => .ok ((), { c with tokens := c.tokens.drop 1 })

def sees (ts : List Token) : Compose Bool := do
  let t ← peek
  return ts.contains t

def dropIf (t : Token) : Compose Bool := do
  if ← sees [t] then
    drop
    return true
  return false

def expect (t : Token) : Compose Unit := do
  if !(← dropIf t) then refuse .malformed

/-! ## Properties -/

def standardHandles : List (String × String) := [("!", "!"), ("!!", "tag:yaml.org,2002:")]

def anchor? : Compose (Option String) := do
  match ← peek with
  | .anchor name =>
    drop
    return some name
  | _ => return none

def tag? : Compose (Option (Option String × String)) := do
  match ← peek with
  | .tag handle? suffix =>
    drop
    return some (handle?, suffix)
  | _ => return none

def fullTag : Option (Option String × String) → Compose (Option String)
  | none => return none
  | some (none, suffix) => return some suffix
  | some (some handle, suffix) => do
    match (← get).handles.lookup handle with
    | some start => return some (start ++ suffix)
    | none => refuse .malformed

def properties : Compose (Option String × Option String) := do
  match ← anchor? with
  | some name =>
    let tag ← tag?
    return (some name, ← fullTag tag)
  | none =>
    let tag ← tag?
    let name ← if tag.isSome then anchor? else pure none
    return (name, ← fullTag tag)

def add (anchor : Option String) (n : Node) : Compose NodeId := do
  -- each anchor has one node
  let taken := (← get).anchors
  if anchor.any fun name => (taken.lookup name).isSome then refuse .malformed
  modifyGet fun ⟨tokens, graph, anchors, handles⟩ =>
    let (id, graph) := graph.add n
    (id, ⟨tokens, graph, (anchor.map fun name => (name, id)).toList ++ anchors, handles⟩)

def complete (id : NodeId) (body : Body) : Compose NodeId := do
  modify fun ⟨tokens, graph, anchors, handles⟩ => ⟨tokens, graph.setBody id body, anchors, handles⟩
  return id

def aliased (name : String) : Compose NodeId := do
  match (← get).anchors.lookup name with
  | some id => return id
  | none => refuse .malformed

def kindOr (untold : Kind) : Option String → Kind
  | none => untold
  | some tag => if tag == "!" then untold else .ofTag tag

/-- The node of a scalar. What one without quotes and without a tag stands for is to be seen from it. -/
def scalarNode (tag : Option String) (plain : Bool) (codes : List Nat) : Node :=
  let looks := tag == some "!" || (plain && tag.isNone)
  ⟨kindOr (if looks then .ofText (charsOf codes) else .text) tag, .scalar codes⟩

/-! ## Nodes -/

inductive Opening where
  | flowItems
  | flowEntries
  | blockItems
  | blockEntries
  | bareItems
  deriving DecidableEq, Repr

/-- What starts with a token. `block` tells whether what nests by indentation may stand there, and `bare` whether
items without an indentation of their own may. -/
def opening? (block bare : Bool) : Token → Option Opening
  | .entry => if bare then some .bareItems else none
  | .flowSequenceStart => some .flowItems
  | .flowMappingStart => some .flowEntries
  | .sequenceStart => if block then some .blockItems else none
  | .mappingStart => if block then some .blockEntries else none
  | _ => none

def startNode (tag : Option String) : Opening → Node
  | .flowEntries => ⟨kindOr .table tag, .mapping []⟩
  | .blockEntries => ⟨kindOr .table tag, .mapping []⟩
  | _ => ⟨kindOr .list tag, .sequence []⟩

def nothing : Compose NodeId := add none .nothing

mutual

/-- The node at the next token. `fuel` is more than the number of calls that can follow, and `depth` how deep the
node may nest; `block` and `bare` tell what may start there. -/
def node : Nat → Nat → Bool → Bool → Compose NodeId
  | 0, _, _, _ => refuse .malformed
  | fuel + 1, depth, block, bare => do
    match ← peek with
    | .alias name =>
      drop
      aliased name
    | _ =>
      let (anchor, tag) ← properties
      let t ← peek
      match t, opening? block bare t with
      | .scalar plain codes, _ =>
        drop
        add anchor (scalarNode tag plain codes)
      | _, some opening =>
        let id ← add anchor (startNode tag opening)
        if depth == 0 then refuse .deepNesting
        if opening != .bareItems then drop
        match opening with
        | .flowItems => complete id (.sequence (← flowItems fuel (depth - 1) []))
        | .flowEntries => complete id (.mapping (← flowEntries fuel (depth - 1) []))
        | .blockItems => complete id (.sequence (← blockItems fuel (depth - 1) []))
        | .blockEntries => complete id (.mapping (← blockEntries fuel (depth - 1) []))
        | .bareItems => complete id (.sequence (← bareItems fuel (depth - 1) []))
      | _, none =>
        if anchor.isSome || tag.isSome then add anchor (scalarNode tag true []) else refuse .malformed

def nodeUnless : Nat → Nat → Bool → Bool → List Token → Compose NodeId
  | 0, _, _, _, _ => refuse .malformed
  | fuel + 1, depth, block, bare, ends => do
    if ← sees ends then nothing else node fuel depth block bare

def blockItems : Nat → Nat → List NodeId → Compose (List NodeId)
  | 0, _, _ => refuse .malformed
  | fuel + 1, depth, done => do
    if ← dropIf .entry then
      let item ← nodeUnless fuel depth true false [.entry, .blockEnd]
      blockItems fuel depth (item :: done)
    else
      expect .blockEnd
      return done.reverse

/-- The items of a sequence without an indentation of its own, added to those before, last first. -/
def bareItems : Nat → Nat → List NodeId → Compose (List NodeId)
  | 0, _, _ => refuse .malformed
  | fuel + 1, depth, done => do
    if ← dropIf .entry then
      let item ← nodeUnless fuel depth true false [.entry, .key, .value, .blockEnd]
      bareItems fuel depth (item :: done)
    else return done.reverse

def blockEntries : Nat → Nat → List (NodeId × NodeId) → Compose (List (NodeId × NodeId))
  | 0, _, _ => refuse .malformed
  | fuel + 1, depth, done => do
    if ← dropIf .key then
      let ends : List Token := [.key, .value, .blockEnd]
      let key ← nodeUnless fuel depth true true ends
      let value ← if ← dropIf .value then nodeUnless fuel depth true true ends else nothing
      blockEntries fuel depth ((key, value) :: done)
    else
      expect .blockEnd
      return done.reverse

/-- The items of a sequence in brackets, added to those before, last first; a key among them makes a mapping
of one entry. -/
def flowItems : Nat → Nat → List NodeId → Compose (List NodeId)
  | 0, _, _ => refuse .malformed
  | fuel + 1, depth, done => do
    if ← dropIf .flowSequenceEnd then return done.reverse
    if !done.isEmpty then
      expect .flowEntry
    if ← dropIf .flowSequenceEnd then return done.reverse
    if ← dropIf .key then
      let key ← nodeUnless fuel depth false false [.value, .flowEntry, .flowSequenceEnd]
      let value ←
        if ← dropIf .value then nodeUnless fuel depth false false [.flowEntry, .flowSequenceEnd]
        else nothing
      let pair ← add none ⟨.table, .mapping [(key, value)]⟩
      flowItems fuel depth (pair :: done)
    else
      let item ← node fuel depth false false
      flowItems fuel depth (item :: done)

/-- The entries of a mapping in braces, added to those before, last first; an item without a key before it is
a key without a value. -/
def flowEntries : Nat → Nat → List (NodeId × NodeId) → Compose (List (NodeId × NodeId))
  | 0, _, _ => refuse .malformed
  | fuel + 1, depth, done => do
    if ← dropIf .flowMappingEnd then return done.reverse
    if !done.isEmpty then
      expect .flowEntry
    if ← dropIf .flowMappingEnd then return done.reverse
    if ← dropIf .key then
      let key ← nodeUnless fuel depth false false [.value, .flowEntry, .flowMappingEnd]
      let value ←
        if ← dropIf .value then nodeUnless fuel depth false false [.flowEntry, .flowMappingEnd]
        else nothing
      flowEntries fuel depth ((key, value) :: done)
    else
      let key ← node fuel depth false false
      flowEntries fuel depth ((key, ← nothing) :: done)

end

/-! ## Documents -/

/-- Takes the directives before a document; each may be given once, and the version has to be of the first
edition. `told` is whether a version has been given. -/
def directives (versioned : Bool) : Nat → Compose Unit
  | 0 => refuse .malformed
  | fuel + 1 => do
    match ← peek with
    | .directive (.version major) =>
      drop
      if versioned || major != 1 then refuse .malformed
      directives true fuel
    | .directive (.tag handle start) =>
      drop
      let c ← get
      if (c.handles.lookup handle).isSome then refuse .malformed
      set { c with handles := (handle, start) :: c.handles }
      directives versioned fuel
    | .directive .other =>
      drop
      directives versioned fuel
    | _ => return ()

def seesDirective : Compose Bool := do
  match ← peek with
  | .directive _ => return true
  | _ => return false

def documentEnds : Nat → Compose Unit
  | 0 => return ()
  | fuel + 1 => do
    if ← dropIf .documentEnd then documentEnds fuel

def addStandardHandles : Compose Unit :=
  modify fun c => { c with handles := c.handles ++ standardHandles }

def document? : Compose (Option NodeId) := do
  let fuel := 3 * (← get).tokens.length + 10
  let explicit := (← sees [.documentStart, .streamEnd]) || (← seesDirective)
  let found ←
    if explicit then
      documentEnds fuel
      if ← sees [.streamEnd] then pure none
      else
        directives false fuel
        addStandardHandles
        expect .documentStart
        if (← sees [.documentStart, .documentEnd, .streamEnd]) || (← seesDirective) then
          some <$> nothing
        else some <$> node fuel Fault.maxNesting true false
    else
      addStandardHandles
      some <$> node fuel Fault.maxNesting true false
  documentEnds fuel
  if ← sees [.streamEnd] then return found
  modify fun c => { c with handles := [] }
  directives false fuel
  refuse .malformed

end Compose

def document? (text : List Char) (cut : Option Refusal) : Except Refusal (Option (NodeId × Graph)) :=
  (Compose.document?.run { tokens := tokens text cut }).map fun (found, c) =>
    found.map fun id => (id, c.graph)

end CodeCensus.Yaml
