import CodeCensus.Declaration.Basic
import CodeCensus.Fault
import CodeCensus.Record.Lax

/-! What a file declares as tables, and back. An extractor may hand over records that are made already, which
are taken as they are, or values that records are still to be read from. -/

namespace CodeCensus

open Lax

def Data.isTable : Data → Bool
  | .table _ => true
  | _ => false

def Data.ofText? : Option String → Data
  | none => .null
  | some s => .text s

def Lax.wordFor {α : Type} [BEq α] (words : List (String × α)) (a : α) : String :=
  ((words.find? fun (_, b) => b == a).map Prod.fst).getD ""

def Lax.wordOf {α : Type} [BEq α] (words : List (String × α)) (a : α) : Data := .text (wordFor words a)

def Lax.ofTable {α : Type} (read : Reader α) : Reader α := fun d => if d.isTable then read d else none

namespace Function

def toData (f : Function) : Data :=
  .record [("name", .text f.name), ("line", .int f.line), ("complexity", .int f.complexity),
    ("parameters", .texts f.parameters), ("returnType", Data.ofText? f.returnType)]

def ofData? : Reader Function := ofTable fun d => do
  let name ← required text "name" "name" d
  let line ← required (natFrom 1) "line" "line" d
  let complexity ← required (natFrom 1) "complexity" "complexity" d
  let parameters ← optional (list text) [] "parameters" "parameters" d
  let returnType ← optional (nullable text) none "returnType" "return_type" d
  return ⟨name, line, complexity, parameters, returnType⟩

end Function

namespace Import

def toData (i : Import) : Data :=
  .record [("module", .text i.source), ("imports", .texts i.names), ("line", .int i.line)]

def ofData? : Reader Import := ofTable fun d => do
  let source ← required text "module" "module" d
  let names ← optional (list text) [] "imports" "imports" d
  let line ← required (natFrom 1) "line" "line" d
  return ⟨source, names, line⟩

end Import

namespace Export

def kindWords : List (String × ExportKind) := [("default", .standard), ("named", .named)]

def toData (e : Export) : Data :=
  .record [("name", .text e.name), ("type", wordOf kindWords e.kind), ("line", .int e.line)]

def ofData? : Reader Export := ofTable fun d => do
  let name ← required text "name" "name" d
  let kind ← required (word kindWords) "type" "type" d
  let line ← required (natFrom 1) "line" "line" d
  return ⟨name, kind, line⟩

end Export

/-! ## What extractors hand over -/

inductive Found (α : Type) where
  | made (record : α)
  | raw (value : Data)

namespace Found

def record? {α : Type} (read : Reader α) : Found α → Option α
  | .made record => some record
  | .raw value => read value

/-- The records of all items, each of which has to be valid to be kept under a field of a file. -/
def records {α : Type} (read : Reader α) (field : String) (found : List (Found α)) : Except Fault (List α) :=
  match found.mapM (record? read) with
  | some records => .ok records
  | none => .error (.invalidRecord "ParsedFile" field)

end Found

end CodeCensus
