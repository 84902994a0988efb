import CodeCensus.Declaration.Exports
import CodeCensus.Declaration.Functions
import CodeCensus.Fault
import CodeCensus.Language.Branching
import CodeCensus.Language.Tag
import CodeCensus.Record.Declared

/-! What the library can do for each language. The analysis looks languages up here and nowhere else, so that
a language is added by registering what it supports. -/

namespace CodeCensus

structure Support where
  /-- The branches that score its code; without a set of its own, ternaries are counted. -/
  branches : Option BranchSet := none
  functions : Option (Scorer → List Char → Except Fault (List (Found Function))) := none
  imports : Option (List Char → Except Fault (List (Found Import))) := none
  exports : Option (List Char → Except Fault (List (Found Export))) := none

namespace Support

def branchSet (s : Support) : BranchSet := s.branches.getD .ternary

def score (s : Support) (text : List Char) : Nat := branchScore s.branchSet.patterns text

end Support

/-- Base languages and what is known of them, the latest first. -/
structure Registry where
  entries : List (String × Support)

namespace Registry

def register (r : Registry) (language : String) (support : Support) : Registry :=
  let base := Language.base language
  ⟨(base, support) :: r.entries.filter fun (other, _) => other != base⟩

def supportFor (r : Registry) (language : String) : Support :=
  -- the side that a language runs on makes no difference
  (r.entries.lookup (Language.base language)).getD {}

def languages (r : Registry) : List String :=
  (r.entries.map Prod.fst).mergeSort fun a b => !decide (b < a)

def functionExtractors : List (String × (Scorer → List Char → List Function)) := [
  ("javascript", Functions.script), ("python", Functions.python), ("java", Functions.java),
  ("csharp", Functions.csharp), ("go", Functions.go), ("rust", Functions.rust), ("php", Functions.php),
  ("ruby", Functions.ruby)]

def importExtractors : List (String × (List Char → List Import)) := [
  ("javascript", Imports.script), ("python", Imports.python), ("java", Imports.java),
  ("csharp", Imports.csharp), ("go", Imports.go), ("rust", Imports.rust)]

def exportExtractors : List (String × (List Char → List Export)) := [("javascript", Exports.script)]

def madeAll {α : Type} (records : List α) : Except Fault (List (Found α)) := .ok (records.map .made)

/-- A language with its branches and the extractors that the library has under its name. -/
def supportNamed (branches : BranchSet) (extractors : String) : Support where
  branches := some branches
  functions := (functionExtractors.lookup extractors).map fun f score text => madeAll (f score text)
  imports := (importExtractors.lookup extractors).map fun f text => madeAll (f text)
  exports := (exportExtractors.lookup extractors).map fun f text => madeAll (f text)

def standard : Registry where
  entries :=
    let script := supportNamed .brace "javascript"
    let braces : Support := { branches := some .brace }
    [("javascript", script), ("typescript", script), ("vue", script), ("svelte", script),
      ("python", supportNamed .python "python"), ("java", supportNamed .brace "java"),
      ("csharp", supportNamed .brace "csharp"), ("go", supportNamed .go "go"),
      ("rust", supportNamed .rust "rust"), ("php", supportNamed .brace "php"),
      ("ruby", supportNamed .ruby "ruby"), ("c", braces), ("cpp", braces), ("kotlin", braces),
      ("swift", braces), ("scala", braces), ("dart", braces)]

end Registry

end CodeCensus
