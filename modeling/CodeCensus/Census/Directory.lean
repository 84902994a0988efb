import CodeCensus.Entry
import CodeCensus.Path

/-! What directories are for, guessed from what their paths mention. -/

namespace CodeCensus

inductive DirectoryKind where
  | source
  | test
  | documentation
  | configuration
  | assets
  | build
  | scripts
  | other
  deriving DecidableEq, Repr

structure Directory where
  name : String
  path : String
  kind : DirectoryKind
  purpose : String
  deriving DecidableEq, Repr

namespace Directory

def kindMarks : List (DirectoryKind × List String) := [
  -- the first that fits counts
  (.source, ["src", "source"]),
  (.test, ["test", "spec", "__tests__"]),
  (.documentation, ["doc", "documentation", "docs"]),
  (.configuration, ["config", "conf", ".config"]),
  (.assets, ["asset", "static", "public", "media"]),
  (.build, ["build", "dist", "output", "target"]),
  (.scripts, ["script", "tool", "bin"])]

def purposeMarks : List (String × List String) := [
  ("UI Components", ["component"]),
  ("Business Logic Services", ["service"]),
  ("Utility Functions", ["util", "helper", "lib"]),
  ("Data Models", ["model", "entity", "schema"]),
  ("Request Handlers", ["controller", "handler", "api"]),
  ("Middleware Functions", ["middleware"]),
  ("Routing Logic", ["route", "router", "endpoint"]),
  ("Test Files", ["test", "spec"]),
  ("Configuration Files", ["config", "settings"]),
  ("Styling", ["style", "css", "scss"]),
  ("Static Assets", ["asset", "image", "icon"]),
  ("Documentation", ["doc", "readme"])]

def firstMarked? {α : Type} (marks : List (α × List String)) (path : String) : Option α :=
  (marks.find? fun (_, needles) => needles.any (Path.mentions path)).map Prod.fst

def kindOf (path : String) : DirectoryKind := (firstMarked? kindMarks (Text.lowercase path)).getD .other

def purposeOf (path : String) : String :=
  (firstMarked? purposeMarks (Text.lowercase path)).getD "General Purpose"

def ofEntry (e : Entry) : Directory := ⟨e.name, e.path, kindOf e.path, purposeOf e.path⟩

/-- Adds the directory of an entry in front, unless it is a file or its path is there already. -/
def addEntry (found : List Directory) (e : Entry) : List Directory :=
  if e.kind != .dir || found.any fun d => d.path == e.path then found else ofEntry e :: found

def ofEntries (entries : List Entry) : List Directory := (entries.foldl addEntry []).reverse

end Directory

end CodeCensus
