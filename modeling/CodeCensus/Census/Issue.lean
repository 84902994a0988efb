import CodeCensus.SourceFile

/-! Issues: files whose complexity, length or count of functions passes a threshold. -/

namespace CodeCensus

inductive IssueKind where
  | complexity
  | maintainability
  deriving DecidableEq, Repr

inductive Severity where
  | low
  | medium
  | high
  deriving DecidableEq, Repr

structure Issue where
  kind : IssueKind
  severity : Severity
  message : String
  file : String
  line : Int
  deriving DecidableEq, Repr

namespace Issue

def complexityThreshold : Nat := 15

def highComplexity : Nat := 25

def linesThreshold : Nat := 500

def veryLargeFile : Nat := 1000

def functionsThreshold : Nat := 20

def raisedIf (condition : Bool) (issue : Issue) : List Issue := if condition then [issue] else []

def ofFile (f : SourceFile) : List Issue :=
  let functions := f.functions.length
  raisedIf (complexityThreshold < f.complexity)
      ⟨.complexity, if highComplexity < f.complexity then .high else .medium,
        "High complexity (" ++ toString f.complexity ++ ") in " ++ f.path, f.path, 1⟩ ++
    raisedIf (linesThreshold < f.lines)
      ⟨.maintainability, if veryLargeFile < f.lines then .medium else .low,
        "Large file (" ++ toString f.lines ++ " lines): " ++ f.path, f.path, 1⟩ ++
    raisedIf (functionsThreshold < functions)
      ⟨.maintainability, .low, "Many functions (" ++ toString functions ++ ") in " ++ f.path, f.path, 1⟩

def ofFiles (files : List SourceFile) : List Issue := files.flatMap ofFile

end Issue

end CodeCensus
