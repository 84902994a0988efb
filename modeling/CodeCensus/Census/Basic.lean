import CodeCensus.Census.Architecture
import CodeCensus.Census.Directory
import CodeCensus.Census.Framework
import CodeCensus.Census.Issue
import CodeCensus.Census.Tally

/-! The census of a repository: what the tally of its files and its listing together tell. -/

namespace CodeCensus

structure FileComplexity where
  path : String
  complexity : Int
  deriving DecidableEq, Repr

structure ComplexitySummary where
  average : Double := .zero
  max : Int := 0
  min : Int := 0
  files : List FileComplexity := []
  deriving DecidableEq, Repr

/-- The architecture, the frameworks and the patterns of a repository. -/
structure PatternSummary where
  architecture : String := "Unknown"
  frameworks : List String := []
  patterns : List String := []
  deriving DecidableEq, Repr

structure Census where
  totalFiles : Int := 0
  totalLines : Int := 0
  languages : List (String × Int) := []
  complexity : ComplexitySummary := {}
  testCoverage : Nat := 0
  issues : List Issue := []
  directories : List Directory := []
  patterns : PatternSummary := {}
  dependencies : List (String × List String) := []
  files : List SourceFile := []

namespace Census

def scores (files : List SourceFile) : List Nat :=
  -- zero marks files that were not analysed
  (files.map SourceFile.complexity).filter fun n => 0 < n

def complexityOf (files : List SourceFile) : ComplexitySummary :=
  let scores := scores files
  { average := if scores.isEmpty then .zero else .ofRatio false (scores.foldr (· + ·) 0) scores.length
    max := (scores.max?.getD 0 : Nat)
    min := (scores.min?.getD 0 : Nat)
    files := files.map fun f => ⟨f.path, f.complexity⟩ }

/-- Sets the names that a path declares: in place if the path is there, else at the end. -/
def setDependencies (path : String) (names : List String) :
    List (String × List String) → List (String × List String)
  | [] => [(path, names)]
  | (other, old) :: rest =>
    if other = path then (other, names) :: rest else (other, old) :: setDependencies path names rest

def dependenciesOf (files : List SourceFile) : List (String × List String) :=
  files.foldl
    (fun found f =>
      match f.manifest with
      | none => found
      | some m => setDependencies f.path (m.dependencies ++ m.devDependencies) found)
    []

def patternsOf (files : List SourceFile) (entries : List Entry) : PatternSummary :=
  let (architecture, tags) := Architecture.detect (entries.map Entry.path)
  ⟨architecture.label, Framework.detect files entries, tags⟩

def ofTally (t : Tally) (entries : List Entry) : Census where
  totalFiles := t.files.length
  totalLines := t.totalLines
  languages := t.languages.counts
  complexity := complexityOf t.files
  testCoverage := ((coveragePercent? t.testFiles t.files.length).getD 0).toNat
  issues := Issue.ofFiles t.files
  directories := Directory.ofEntries entries
  patterns := patternsOf t.files entries
  dependencies := dependenciesOf t.files
  files := t.files

end Census

end CodeCensus
