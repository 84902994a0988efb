import CodeCensus.Json.Reader
import CodeCensus.Path
import CodeCensus.Text.Lines
import CodeCensus.Toml.Reader

/-! Package manifests: the names of what a package depends on. Versions are not resolved and markers not
interpreted. A value of the wrong type counts as missing. -/

namespace CodeCensus

structure Manifest where
  kind : String
  name : Option String
  version : Option String
  dependencies : List String
  devDependencies : List String
  deriving DecidableEq, Repr

namespace Manifest

inductive Format where
  | packageJson
  | packageLock
  | requirements
  | pyproject
  deriving DecidableEq, Repr

def formats : List (String × Format) := [
  ("package.json", .packageJson), ("package-lock.json", .packageLock), ("requirements.txt", .requirements),
  ("pyproject.toml", .pyproject)]

def formatOf? (path : String) : Option Format := formats.lookup (Path.lowerName path)

def wholeText (field : String) : Data → Except Fault String
  | .text s => .ok s
  | _ => .error (.invalidRecord "ManifestInfo" field)

def textOf (field : String) (value : Option Data) : Except Fault (Option String) :=
  match value with
  | some (.text s) => .ok (some s)
  | some (.broken codes) => (wholeText field (.broken codes)).map some
  | _ => .ok none

def keysOf (value : Option Data) : List Data :=
  match value with
  | some (.table entries) => entries.map Prod.fst
  | _ => []

def names (field : String) (keys : List Data) : Except Fault (List String) :=
  keys.mapM (wholeText field)

def child (key : String) (value : Option Data) : Option Data := value.bind (Data.get? key)

/-! ## Requirements -/

def endsName (c : Char) : Bool :=
  ['=', '<', '>', '!', '~', '#', ';', '['].contains c || Text.isBlank c

def requirementName? (line : List Char) : Option String :=
  -- comments and options have no name
  match Text.trim line with
  | [] => none
  | c :: rest =>
    if c == '#' || c == '-' then none
    else (Text.nonBlank? ((c :: rest).takeWhile fun c => !endsName c)).map String.ofList

def requirementNames : Option Data → List String
  | some (.list items) => items.filterMap fun item => item.text?.bind fun s => requirementName? s.toList
  | _ => []

/-! ## The four formats -/

def ofPackageJson (document : Data) : Except Fault Manifest := do
  let field (key : String) := document.get? key
  return {
    kind := "package-json"
    name := ← textOf "name" (field "name")
    version := ← textOf "version" (field "version")
    dependencies := ← names "dependencies" (keysOf (field "dependencies"))
    devDependencies := ← names "devDependencies" (keysOf (field "devDependencies")) }

def isDev (entry : Data) : Bool := ((entry.get? "dev").map Data.isTruthy).getD false

/-- The keys of dependencies and development dependencies in a lockfile: those of the root package where it is
recorded, and otherwise those of the flat list. -/
def lockedKeys (document : Data) : List Data × List Data :=
  match child "" (document.get? "packages") with
  | some (.table root) =>
    (keysOf (Data.get? "dependencies" (.table root)), keysOf (Data.get? "devDependencies" (.table root)))
  | _ =>
    match document.get? "dependencies" with
    | some (.table entries) =>
      ((entries.filter fun (_, entry) => !isDev entry).map Prod.fst,
        (entries.filter fun (_, entry) => isDev entry).map Prod.fst)
    | _ => ([], [])

def ofPackageLock (document : Data) : Except Fault Manifest := do
  let (keys, devKeys) := lockedKeys document
  return {
    kind := "package-lock"
    name := ← textOf "name" (document.get? "name")
    version := ← textOf "version" (document.get? "version")
    dependencies := ← names "dependencies" keys
    devDependencies := ← names "devDependencies" devKeys }

def ofRequirements (text : List Char) : Manifest :=
  ⟨"requirements", none, none, (Text.breakLines text).filterMap requirementName?, []⟩

def preferred (first second : Option Data) : Option String :=
  match first.bind Data.text? with
  | some s => if s.isEmpty then second.bind Data.text? else some s
  | none => second.bind Data.text?

/-- What a project table declares, in the standard place and in the older one. The interpreter itself is no
dependency there. -/
def ofPyproject (document : Data) : Manifest :=
  let project := document.get? "project"
  let poetry := child "poetry" (document.get? "tool")
  let keys (key : String) := (keysOf (child key poetry)).filterMap Data.text?
  let groups :=
    match child "optional-dependencies" project with
    | some (.table entries) => entries.map Prod.snd
    | _ => []
  { kind := "pyproject"
    name := preferred (child "name" project) (child "name" poetry)
    version := preferred (child "version" project) (child "version" poetry)
    dependencies :=
      requirementNames (child "dependencies" project) ++
        (keys "dependencies").filter fun key => Text.lowercase key != "python"
    devDependencies :=
      (groups.flatMap fun group => requirementNames (some group)) ++ keys "dev-dependencies" }

def ofDocument (read : Except Refusal Data) (declared : Data → Except Fault Manifest) :
    Except Fault (Option Manifest) :=
  match read with
  | .error .malformed => .ok none
  | .error (.fault f) => .error f
  | .ok (.table entries) => (declared (.table entries)).map some
  | .ok _ => .ok none

def readAs (format : Format) (text : List Char) : Except Fault (Option Manifest) :=
  match format with
  | .packageJson => ofDocument (Json.read text) ofPackageJson
  | .packageLock => ofDocument (Json.read text) ofPackageLock
  | .requirements => .ok (some (ofRequirements text))
  | .pyproject => ofDocument (Toml.read text) fun document => .ok (ofPyproject document)

def read (path : String) (text : List Char) : Except Fault (Option Manifest) :=
  match formatOf? path with
  | none => .ok none
  | some format => readAs format text

end Manifest

end CodeCensus
