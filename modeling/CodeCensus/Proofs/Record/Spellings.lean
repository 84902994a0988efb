import CodeCensus.Proofs.Record.Fields
import Mathlib.Tactic.MkIffOfInductiveProp

/-! The codec of each record of the library, from what its fields are, which reads records as they are read and
writes them, under camel case, as they are written. -/

namespace CodeCensus

open Lax

theorem ofText?_eq (o : Option String) : Data.ofText? o = (o.map .text).getD .null := by
  cases o <;> rfl

/-! ## Codecs of the records -/

namespace Entry

def codec : RecordCodec Entry :=
  Fields.record
    (.and (.required "path" "path" .text) <| .and (.required "name" "name" .text) <|
      .and (.required "type" "type" (.word kindWords fun kind => by cases kind <;> rfl)) <|
      .and (.optional "size" "size" .int 0 (by simp)) <|
      .optional "sha" "sha" (.nullable .text fun _ _ => nofun) none (by simp))
    (fun (path, name, kind, size, sha) => ⟨path, name, kind, size, sha⟩)
    (fun e => (e.path, e.name, e.kind, e.size, e.sha))
    (fun _ => True) (by decide) (fun _ => rfl) (by simp)

@[simp] theorem codec_isValid (e : Entry) : codec.IsValid e := trivial

@[simp] theorem codec_read : codec.read = ofData? := by
  funext d
  simp [codec, ofData?, ofTable, Option.bind_assoc]

theorem codec_write : codec.write .camelCase = toData := by
  funext e
  rw [toData, ofText?_eq]
  rfl

end Entry

namespace Function

@[mk_iff]
structure IsValid (f : Function) : Prop where
  one_le_line : 1 ≤ f.line
  one_le_complexity : 1 ≤ f.complexity

def codec : RecordCodec Function :=
  Fields.record
    (.and (.required "name" "name" .text) <| .and (.required "line" "line" (.natFrom 1)) <|
      .and (.required "complexity" "complexity" (.natFrom 1)) <|
      .and (.optional "parameters" "parameters" (.list .text) [] (by simp)) <|
      .optional "returnType" "return_type" (.nullable .text fun _ _ => nofun) none (by simp))
    (fun (name, line, complexity, parameters, returnType) => ⟨name, line, complexity, parameters, returnType⟩)
    (fun f => (f.name, f.line, f.complexity, f.parameters, f.returnType))
    IsValid (by decide) (fun _ => rfl) (by simp [isValid_iff])

@[simp] theorem codec_isValid : codec.IsValid = IsValid := rfl

@[simp] theorem codec_read : codec.read = ofData? := by
  funext d
  simp [codec, ofData?, ofTable, Option.bind_assoc]

theorem codec_write : codec.write .camelCase = toData := by
  funext f
  rw [toData, ofText?_eq]
  rfl

theorem ofData?_toData {f : Function} (hline : 1 ≤ f.line) (hcomplexity : 1 ≤ f.complexity) :
    ofData? f.toData = some f := by
  rw [← codec_read, ← codec_write]
  exact codec.read_write .camelCase ⟨hline, hcomplexity⟩

end Function

namespace Import

@[mk_iff]
structure IsValid (i : Import) : Prop where
  one_le_line : 1 ≤ i.line

def codec : RecordCodec Import :=
  Fields.record
    (.and (.required "module" "module" .text) <| .and (.optional "imports" "imports" (.list .text) [] (by simp)) <|
      .required "line" "line" (.natFrom 1))
    (fun (source, names, line) => ⟨source, names, line⟩)
    (fun i => (i.source, i.names, i.line))
    IsValid (by decide) (fun _ => rfl) (by simp [isValid_iff])

@[simp] theorem codec_isValid : codec.IsValid = IsValid := rfl

@[simp] theorem codec_read : codec.read = ofData? := by
  funext d
  simp [codec, ofData?, ofTable, Option.bind_assoc]

theorem codec_write : codec.write .camelCase = toData := rfl

theorem ofData?_toData {i : Import} (hline : 1 ≤ i.line) :
    ofData? i.toData = some i := by
  rw [← codec_read, ← codec_write]
  exact codec.read_write .camelCase ⟨hline⟩

end Import

namespace Export

@[mk_iff]
structure IsValid (e : Export) : Prop where
  one_le_line : 1 ≤ e.line

def codec : RecordCodec Export :=
  Fields.record
    (.and (.required "name" "name" .text) <| .and (.required "type" "type" (.word kindWords fun kind => by cases kind <;> rfl)) <|
      .required "line" "line" (.natFrom 1))
    (fun (name, kind, line) => ⟨name, kind, line⟩)
    (fun e => (e.name, e.kind, e.line))
    IsValid (by decide) (fun _ => rfl) (by simp [isValid_iff])

@[simp] theorem codec_isValid : codec.IsValid = IsValid := rfl

@[simp] theorem codec_read : codec.read = ofData? := by
  funext d
  simp [codec, ofData?, ofTable, Option.bind_assoc]

theorem codec_write : codec.write .camelCase = toData := rfl

theorem ofData?_toData {e : Export} (hline : 1 ≤ e.line) :
    ofData? e.toData = some e := by
  rw [← codec_read, ← codec_write]
  exact codec.read_write .camelCase ⟨hline⟩

end Export

namespace Manifest

def codec : RecordCodec Manifest :=
  Fields.record
    (.and (.required "kind" "kind" .text) <|
      .and (.optional "name" "name" (.nullable .text fun _ _ => nofun) none (by simp)) <|
      .and (.optional "version" "version" (.nullable .text fun _ _ => nofun) none (by simp)) <|
      .and (.optional "dependencies" "dependencies" (.list .text) [] (by simp)) <|
      .optional "devDependencies" "dev_dependencies" (.list .text) [] (by simp))
    (fun (kind, name, version, dependencies, devDependencies) =>
      ⟨kind, name, version, dependencies, devDependencies⟩)
    (fun m => (m.kind, m.name, m.version, m.dependencies, m.devDependencies))
    (fun _ => True) (by decide) (fun _ => rfl) (by simp)

@[simp] theorem codec_isValid (m : Manifest) : codec.IsValid m := trivial

@[simp] theorem codec_read : codec.read = ofData? := by
  funext d
  simp [codec, ofData?, ofTable, Option.bind_assoc]

theorem codec_write : codec.write .camelCase = toData := by
  funext m
  rw [toData, ofText?_eq, ofText?_eq]
  rfl

end Manifest

namespace SourceFile

@[mk_iff]
structure IsValid (f : SourceFile) : Prop where
  functions : ∀ g ∈ f.functions, g.IsValid
  imports : ∀ i ∈ f.imports, i.IsValid
  exports : ∀ e ∈ f.exports, e.IsValid

def codec : RecordCodec SourceFile :=
  Fields.record
    (.and (.required "path" "path" .text) <| .and (.required "language" "language" .text) <|
      .and (.optional "content" "content" .text "" (by simp)) <|
      .and (.optional "lines" "lines" (.natFrom 0) 0 (by simp)) <|
      .and (.optional "size" "size" (.natFrom 0) 0 (by simp)) <|
      .and (.optional "complexity" "complexity" (.natFrom 0) 0 (by simp)) <|
      .and (.optional "functions" "functions" (.list Function.codec.toCodec) [] (by simp)) <|
      .and (.optional "imports" "imports" (.list Import.codec.toCodec) [] (by simp)) <|
      .and (.optional "exports" "exports" (.list Export.codec.toCodec) [] (by simp)) <|
      .optional "manifest" "manifest" (.nullable Manifest.codec.toCodec fun _ _ => nofun) none (by simp))
    (fun (path, language, content, lines, size, complexity, functions, imports, exports, manifest) =>
      ⟨path, language, content, lines, size, complexity, functions, imports, exports, manifest⟩)
    (fun f => (f.path, f.language, f.content, f.lines, f.size, f.complexity, f.functions, f.imports, f.exports,
      f.manifest))
    IsValid (by decide) (fun _ => rfl) (by simp [isValid_iff])

@[simp] theorem codec_isValid : codec.IsValid = IsValid := rfl

@[simp] theorem codec_read : codec.read = ofData? := by
  funext d
  simp [codec, ofData?, ofTable, Option.bind_assoc]

theorem codec_write : codec.write .camelCase = toData true := by
  funext f
  rw [toData, fields, ← Function.codec_write, ← Import.codec_write, ← Export.codec_write, ← Manifest.codec_write]
  rfl

end SourceFile

namespace FileComplexity

def codec : RecordCodec FileComplexity :=
  Fields.record
    (.and (.required "path" "path" .text) <| .required "complexity" "complexity" .int)
    (fun (path, complexity) => ⟨path, complexity⟩)
    (fun f => (f.path, f.complexity))
    (fun _ => True) (by decide) (fun _ => rfl) (by simp)

@[simp] theorem codec_isValid (f : FileComplexity) : codec.IsValid f := trivial

@[simp] theorem codec_read : codec.read = ofData? := by
  funext d
  simp [codec, ofData?, ofTable, Option.bind_assoc]

theorem codec_write : codec.write .camelCase = toData := rfl

end FileComplexity

namespace ComplexitySummary

def codec : RecordCodec ComplexitySummary :=
  Fields.record
    (.and (.optional "average" "average" .double .zero (by simp)) <| .and (.optional "max" "max" .int 0 (by simp)) <|
      .and (.optional "min" "min" .int 0 (by simp)) <|
      .optional "files" "files" (.list FileComplexity.codec.toCodec) [] (by simp))
    (fun (average, max, min, files) => ⟨average, max, min, files⟩)
    (fun c => (c.average, c.max, c.min, c.files))
    (fun _ => True) (by decide) (fun _ => rfl) (by simp)

@[simp] theorem codec_isValid (c : ComplexitySummary) : codec.IsValid c := trivial

@[simp] theorem codec_read : codec.read = ofData? := by
  funext d
  simp [codec, ofData?, ofTable, Option.bind_assoc]

theorem codec_write : codec.write .camelCase = toData := rfl

end ComplexitySummary

namespace Issue

def codec : RecordCodec Issue :=
  Fields.record
    (.and (.required "type" "type" (.word kindWords fun kind => by cases kind <;> rfl)) <|
      .and (.required "severity" "severity" (.word severityWords fun severity => by cases severity <;> rfl)) <|
      .and (.required "message" "message" .text) <| .and (.required "file" "file" .text) <|
      .optional "line" "line" .int 1 (by simp))
    (fun (kind, severity, message, file, line) => ⟨kind, severity, message, file, line⟩)
    (fun i => (i.kind, i.severity, i.message, i.file, i.line))
    (fun _ => True) (by decide) (fun _ => rfl) (by simp)

@[simp] theorem codec_isValid (i : Issue) : codec.IsValid i := trivial

@[simp] theorem codec_read : codec.read = ofData? := by
  funext d
  simp [codec, ofData?, ofTable, Option.bind_assoc]

theorem codec_write : codec.write .camelCase = toData := rfl

end Issue

namespace Directory

def codec : RecordCodec Directory :=
  Fields.record
    (.and (.required "name" "name" .text) <| .and (.required "path" "path" .text) <|
      .and (.required "type" "type" (.word kindWords fun kind => by cases kind <;> rfl)) <|
      .required "purpose" "purpose" .text)
    (fun (name, path, kind, purpose) => ⟨name, path, kind, purpose⟩)
    (fun d => (d.name, d.path, d.kind, d.purpose))
    (fun _ => True) (by decide) (fun _ => rfl) (by simp)

@[simp] theorem codec_isValid (d : Directory) : codec.IsValid d := trivial

@[simp] theorem codec_read : codec.read = ofData? := by
  funext d
  simp [codec, ofData?, ofTable, Option.bind_assoc]

theorem codec_write : codec.write .camelCase = toData := rfl

end Directory

namespace PatternSummary

def codec : RecordCodec PatternSummary :=
  Fields.record
    (.and (.optional "architecture" "architecture" .text "Unknown" (by simp)) <|
      .and (.optional "framework" "framework" (.list .text) [] (by simp)) <|
      .optional "patterns" "patterns" (.list .text) [] (by simp))
    (fun (architecture, frameworks, patterns) => ⟨architecture, frameworks, patterns⟩)
    (fun p => (p.architecture, p.frameworks, p.patterns))
    (fun _ => True) (by decide) (fun _ => rfl) (by simp)

@[simp] theorem codec_isValid (p : PatternSummary) : codec.IsValid p := trivial

@[simp] theorem codec_read : codec.read = ofData? := by
  funext d
  simp [codec, ofData?, ofTable, Option.bind_assoc]

theorem codec_write : codec.write .camelCase = toData := rfl

end PatternSummary

namespace Census

@[mk_iff]
structure IsValid (c : Census) : Prop where
  nodup_languages : (c.languages.map Prod.fst).Nodup
  testCoverage_le : c.testCoverage ≤ 100
  nodup_dependencies : (c.dependencies.map Prod.fst).Nodup
  files : ∀ f ∈ c.files, f.IsValid

def codec : RecordCodec Census :=
  Fields.record
    (.and (.optional "totalFiles" "total_files" .int 0 (by simp)) <|
      .and (.optional "totalLines" "total_lines" .int 0 (by simp)) <|
      .and (.optional "languages" "languages" (.table .int) [] (by simp)) <|
      .and (.optional "complexity" "complexity" ComplexitySummary.codec.toCodec {} (by simp)) <|
      .and (.optional "testCoverage" "test_coverage" .percentage 0 (by simp)) <|
      .and (.optional "issues" "issues" (.list Issue.codec.toCodec) [] (by simp)) <|
      .and (.optional "directories" "directories" (.list Directory.codec.toCodec) [] (by simp)) <|
      .and (.optional "patterns" "patterns" PatternSummary.codec.toCodec {} (by simp)) <|
      .and (.optional "dependencies" "dependencies" (.table (.list .text)) [] (by simp)) <|
      .optional "files" "files" (.list SourceFile.codec.toCodec) [] (by simp))
    (fun (totalFiles, totalLines, languages, complexity, testCoverage, issues, directories, patterns, dependencies,
        files) =>
      ⟨totalFiles, totalLines, languages, complexity, testCoverage, issues, directories, patterns, dependencies,
        files⟩)
    (fun c => (c.totalFiles, c.totalLines, c.languages, c.complexity, c.testCoverage, c.issues, c.directories,
      c.patterns, c.dependencies, c.files))
    IsValid (by decide) (fun _ => rfl) (by simp [isValid_iff])

@[simp] theorem codec_isValid : codec.IsValid = IsValid := rfl

@[simp] theorem codec_read : codec.read = ofData? := by
  funext d
  simp [codec, ofData?, ofTable, Option.bind_assoc]

theorem codec_write : codec.write .camelCase = toData true := by
  funext c
  rw [toData, ← ComplexitySummary.codec_write, ← Issue.codec_write, ← Directory.codec_write,
    ← PatternSummary.codec_write, ← SourceFile.codec_write]
  rfl

end Census

end CodeCensus
