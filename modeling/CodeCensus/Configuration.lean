import CodeCensus.Files.Tree
import CodeCensus.Settings
import CodeCensus.Yaml.Intake
import CodeCensus.Yaml.Value

/-! The configuration that a repository may hold: for each command a table of options. A configuration that
cannot be read as such a table says nothing. -/

namespace CodeCensus.Configuration

def fileName : String := ".repolens.yaml"

def tableOf : Data → Data
  | .table entries => .table entries
  | _ => .emptyTable

/-- The configuration that bytes hold. One that does not follow the rules of the format is passed over; any other
refusal is not. -/
def ofBytes (bytes : List UInt8) : Except Yaml.Refusal Data :=
  let (text, cut) := Yaml.textOf bytes
  match Yaml.read text cut with
  | .ok d => .ok (tableOf d)
  | .error .malformed => .ok .emptyTable
  | .error refusal => .error refusal

/-- The configuration in the directory that a path from a place leads to; empty if there is none. -/
def load (top : Files.Node) (place : Files.Place) (path : String) : Except Yaml.Refusal Data :=
  match top.file? place (path ++ "/" ++ fileName) with
  | none => .ok .emptyTable
  | some bytes => ofBytes bytes

end CodeCensus.Configuration
