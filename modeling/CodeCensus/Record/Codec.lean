import CodeCensus.Census.Basic
import CodeCensus.Record.Declared

/-! The records of the library as tables, and back. A table's keys may be spelled in either of two ways;
unknown keys are passed over, and a missing entry has its default where there is one. -/

namespace CodeCensus

open Lax

namespace Entry

def kindWords : List (String × EntryKind) := [("file", .file), ("dir", .dir)]

def toData (e : Entry) : Data :=
  .record [("path", .text e.path), ("name", .text e.name), ("type", wordOf kindWords e.kind),
    ("size", .int e.size), ("sha", Data.ofText? e.sha)]

def ofData? : Reader Entry := ofTable fun d => do
  let path ← required text "path" "path" d
  let name ← required text "name" "name" d
  let kind ← required (word kindWords) "type" "type" d
  let size ← optional int 0 "size" "size" d
  let sha ← optional (nullable text) none "sha" "sha" d
  return ⟨path, name, kind, size, sha⟩

end Entry

namespace Manifest

def toData (m : Manifest) : Data :=
  .record [("kind", .text m.kind), ("name", Data.ofText? m.name), ("version", Data.ofText? m.version),
    ("dependencies", .texts m.dependencies), ("devDependencies", .texts m.devDependencies)]

def ofData? : Reader Manifest := ofTable fun d => do
  let kind ← required text "kind" "kind" d
  let name ← optional (nullable text) none "name" "name" d
  let version ← optional (nullable text) none "version" "version" d
  let dependencies ← optional (list text) [] "dependencies" "dependencies" d
  let devDependencies ← optional (list text) [] "devDependencies" "dev_dependencies" d
  return ⟨kind, name, version, dependencies, devDependencies⟩

end Manifest

namespace SourceFile

def fields (withContent : Bool) (f : SourceFile) : List (String × Data) :=
  [("path", .text f.path), ("language", .text f.language)] ++
    (if withContent then [("content", .text f.content)] else []) ++
    [("lines", .int f.lines), ("size", .int f.size), ("complexity", .int f.complexity),
      ("functions", .list (f.functions.map Function.toData)),
      ("imports", .list (f.imports.map Import.toData)),
      ("exports", .list (f.exports.map Export.toData)),
      ("manifest", (f.manifest.map Manifest.toData).getD .null)]

def toData (withContent : Bool) (f : SourceFile) : Data := .record (fields withContent f)

def ofData? : Reader SourceFile := ofTable fun d => do
  let path ← required text "path" "path" d
  let language ← required text "language" "language" d
  let content ← optional text "" "content" "content" d
  let lines ← optional (natFrom 0) 0 "lines" "lines" d
  let size ← optional (natFrom 0) 0 "size" "size" d
  let complexity ← optional (natFrom 0) 0 "complexity" "complexity" d
  let functions ← optional (list Function.ofData?) [] "functions" "functions" d
  let imports ← optional (list Import.ofData?) [] "imports" "imports" d
  let exports ← optional (list Export.ofData?) [] "exports" "exports" d
  let manifest ← optional (nullable Manifest.ofData?) none "manifest" "manifest" d
  return ⟨path, language, content, lines, size, complexity, functions, imports, exports, manifest⟩

end SourceFile

namespace FileComplexity

def toData (f : FileComplexity) : Data :=
  .record [("path", .text f.path), ("complexity", .int f.complexity)]

def ofData? : Reader FileComplexity := ofTable fun d => do
  let path ← required text "path" "path" d
  let complexity ← required int "complexity" "complexity" d
  return ⟨path, complexity⟩

end FileComplexity

namespace ComplexitySummary

def toData (c : ComplexitySummary) : Data :=
  .record [("average", .float c.average), ("max", .int c.max), ("min", .int c.min),
    ("files", .list (c.files.map FileComplexity.toData))]

def ofData? : Reader ComplexitySummary := ofTable fun d => do
  let average ← optional double .zero "average" "average" d
  let max ← optional int 0 "max" "max" d
  let min ← optional int 0 "min" "min" d
  let files ← optional (list FileComplexity.ofData?) [] "files" "files" d
  return ⟨average, max, min, files⟩

end ComplexitySummary

namespace Issue

def kindWords : List (String × IssueKind) :=
  [("complexity", .complexity), ("maintainability", .maintainability)]

def severityWords : List (String × Severity) := [("low", .low), ("medium", .medium), ("high", .high)]

def toData (i : Issue) : Data :=
  .record [("type", wordOf kindWords i.kind), ("severity", wordOf severityWords i.severity),
    ("message", .text i.message), ("file", .text i.file), ("line", .int i.line)]

def ofData? : Reader Issue := ofTable fun d => do
  let kind ← required (word kindWords) "type" "type" d
  let severity ← required (word severityWords) "severity" "severity" d
  let message ← required text "message" "message" d
  let file ← required text "file" "file" d
  let line ← optional int 1 "line" "line" d
  return ⟨kind, severity, message, file, line⟩

end Issue

namespace Directory

def kindWords : List (String × DirectoryKind) := [
  ("source", .source), ("test", .test), ("documentation", .documentation),
  ("configuration", .configuration), ("assets", .assets), ("build", .build), ("scripts", .scripts),
  ("other", .other)]

def toData (d : Directory) : Data :=
  .record [("name", .text d.name), ("path", .text d.path), ("type", wordOf kindWords d.kind),
    ("purpose", .text d.purpose)]

def ofData? : Reader Directory := ofTable fun d => do
  let name ← required text "name" "name" d
  let path ← required text "path" "path" d
  let kind ← required (word kindWords) "type" "type" d
  let purpose ← required text "purpose" "purpose" d
  return ⟨name, path, kind, purpose⟩

end Directory

namespace PatternSummary

def toData (p : PatternSummary) : Data :=
  .record [("architecture", .text p.architecture), ("framework", .texts p.frameworks),
    ("patterns", .texts p.patterns)]

def ofData? : Reader PatternSummary := ofTable fun d => do
  let architecture ← optional text "Unknown" "architecture" "architecture" d
  let frameworks ← optional (list text) [] "framework" "framework" d
  let patterns ← optional (list text) [] "patterns" "patterns" d
  return ⟨architecture, frameworks, patterns⟩

end PatternSummary

namespace Census

def toData (withContent : Bool) (c : Census) : Data :=
  .record [("totalFiles", .int c.totalFiles), ("totalLines", .int c.totalLines),
    ("languages", .record (c.languages.map fun (name, n) => (name, .int n))),
    ("complexity", c.complexity.toData), ("testCoverage", .int c.testCoverage),
    ("issues", .list (c.issues.map Issue.toData)),
    ("directories", .list (c.directories.map Directory.toData)), ("patterns", c.patterns.toData),
    ("dependencies", .record (c.dependencies.map fun (path, names) => (path, .texts names))),
    ("files", .list (c.files.map (SourceFile.toData withContent)))]

def percentage : Reader Nat := fun d => (natFrom 0 d).bind fun n => if n ≤ 100 then some n else none

def ofData? : Reader Census := ofTable fun d => do
  let totalFiles ← optional int 0 "totalFiles" "total_files" d
  let totalLines ← optional int 0 "totalLines" "total_lines" d
  let languages ← optional (table int) [] "languages" "languages" d
  let complexity ← optional ComplexitySummary.ofData? {} "complexity" "complexity" d
  let testCoverage ← optional percentage 0 "testCoverage" "test_coverage" d
  let issues ← optional (list Issue.ofData?) [] "issues" "issues" d
  let directories ← optional (list Directory.ofData?) [] "directories" "directories" d
  let patterns ← optional PatternSummary.ofData? {} "patterns" "patterns" d
  let dependencies ← optional (table (list text)) [] "dependencies" "dependencies" d
  let files ← optional (list SourceFile.ofData?) [] "files" "files" d
  return {
    totalFiles, totalLines, languages, complexity, testCoverage, issues, directories, patterns,
    dependencies, files }

end Census

end CodeCensus
