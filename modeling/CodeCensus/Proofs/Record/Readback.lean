import CodeCensus.Proofs.Record.Spellings

/-! Every record of the library survives being written and read again, in either spelling of the names of its
fields, and so does whatever is read in the first place. -/

namespace CodeCensus

open Lax

inductive RecordKind where
  | entry
  | function
  | imported
  | exported
  | manifest
  | sourceFile
  | fileComplexity
  | complexitySummary
  | issue
  | directory
  | patternSummary
  | census
  deriving DecidableEq, Repr

namespace RecordKind

def Record : RecordKind → Type
  | .entry => Entry
  | .function => Function
  | .imported => Import
  | .exported => Export
  | .manifest => Manifest
  | .sourceFile => SourceFile
  | .fileComplexity => FileComplexity
  | .complexitySummary => ComplexitySummary
  | .issue => Issue
  | .directory => Directory
  | .patternSummary => PatternSummary
  | .census => Census

def read : (k : RecordKind) → Reader k.Record
  | .entry => Entry.ofData?
  | .function => Function.ofData?
  | .imported => Import.ofData?
  | .exported => Export.ofData?
  | .manifest => Manifest.ofData?
  | .sourceFile => SourceFile.ofData?
  | .fileComplexity => FileComplexity.ofData?
  | .complexitySummary => ComplexitySummary.ofData?
  | .issue => Issue.ofData?
  | .directory => Directory.ofData?
  | .patternSummary => PatternSummary.ofData?
  | .census => Census.ofData?

def toData : (k : RecordKind) → k.Record → Data
  | .entry => Entry.toData
  | .function => Function.toData
  | .imported => Import.toData
  | .exported => Export.toData
  | .manifest => Manifest.toData
  | .sourceFile => SourceFile.toData true
  | .fileComplexity => FileComplexity.toData
  | .complexitySummary => ComplexitySummary.toData
  | .issue => Issue.toData
  | .directory => Directory.toData
  | .patternSummary => PatternSummary.toData
  | .census => Census.toData true

/-- What a record has to be apart from the types of its fields. -/
def IsValid : (k : RecordKind) → k.Record → Prop
  | .function => Function.IsValid
  | .imported => Import.IsValid
  | .exported => Export.IsValid
  | .sourceFile => SourceFile.IsValid
  | .census => Census.IsValid
  | _ => fun _ => True

def codec : (k : RecordKind) → RecordCodec k.Record
  | .entry => Entry.codec
  | .function => Function.codec
  | .imported => Import.codec
  | .exported => Export.codec
  | .manifest => Manifest.codec
  | .sourceFile => SourceFile.codec
  | .fileComplexity => FileComplexity.codec
  | .complexitySummary => ComplexitySummary.codec
  | .issue => Issue.codec
  | .directory => Directory.codec
  | .patternSummary => PatternSummary.codec
  | .census => Census.codec

theorem codec_read (k : RecordKind) : k.codec.read = k.read := by
  cases k with
  | entry => exact Entry.codec_read
  | function => exact Function.codec_read
  | imported => exact Import.codec_read
  | exported => exact Export.codec_read
  | manifest => exact Manifest.codec_read
  | sourceFile => exact SourceFile.codec_read
  | fileComplexity => exact FileComplexity.codec_read
  | complexitySummary => exact ComplexitySummary.codec_read
  | issue => exact Issue.codec_read
  | directory => exact Directory.codec_read
  | patternSummary => exact PatternSummary.codec_read
  | census => exact Census.codec_read

theorem codec_write (k : RecordKind) : k.codec.write .camelCase = k.toData := by
  cases k with
  | entry => exact Entry.codec_write
  | function => exact Function.codec_write
  | imported => exact Import.codec_write
  | exported => exact Export.codec_write
  | manifest => exact Manifest.codec_write
  | sourceFile => exact SourceFile.codec_write
  | fileComplexity => exact FileComplexity.codec_write
  | complexitySummary => exact ComplexitySummary.codec_write
  | issue => exact Issue.codec_write
  | directory => exact Directory.codec_write
  | patternSummary => exact PatternSummary.codec_write
  | census => exact Census.codec_write

theorem codec_isValid (k : RecordKind) : k.codec.IsValid = k.IsValid := by
  cases k <;> rfl

/-- A name of words between underscores, with capitals in their place. -/
def camelCased : List Char → List Char
  | [] => []
  | '_' :: c :: rest => c.toUpper :: camelCased rest
  | c :: rest => c :: camelCased rest

theorem camelCase_eq_camelCased (k : RecordKind) :
    ∀ n ∈ k.codec.names, n.camelCase.toList = camelCased n.underscored.toList := by
  cases k <;> decide

/-- Records are written as tables with a key for each field, which under camel case is the name of the field with
capitals for its underscores. A valid record is read back from its data in either spelling, and all that is read is
valid, so that it is read back as well. Data that are alike are read alike, down to the records within records: it
makes no difference to put a value under an unknown key, nor under the underscored name of a field beside the entry
under the other one. -/
theorem reads_back (k : RecordKind) :
    (∀ r, k.codec.write .camelCase r = k.toData r) ∧
    (∀ s r, ∃ fields, k.codec.write s r = .record fields ∧
      fields.map Prod.fst = k.codec.names.map (·.spelled s)) ∧
    (∀ n ∈ k.codec.names, n.camelCase.toList = camelCased n.underscored.toList) ∧
    (∀ s r, k.IsValid r → k.read (k.codec.write s r) = some r) ∧
    (∀ d r, k.read d = some r → k.IsValid r ∧ ∀ s, k.read (k.codec.write s r) = some r) ∧
    (∀ d e, k.codec.Alike d e → k.read d = k.read e) ∧
    (∀ key value entries, (∀ n ∈ k.codec.names, ∀ s, key ≠ .text (n.spelled s)) →
      k.codec.Alike (.table (Data.put key value entries)) (.table entries)) ∧
    ∀ n ∈ k.codec.names, n.camelCase ≠ n.underscored → ∀ entries first value,
      (Data.table entries).get? n.camelCase = some first →
        k.codec.Alike (.table (Data.put (.text n.underscored) value entries)) (.table entries) := by
  have hvalid (s : Spelling) (r : k.Record) (h : k.IsValid r) : k.read (k.codec.write s r) = some r := by
    rw [← codec_isValid] at h
    rw [← codec_read, k.codec.read_write s h]
  refine ⟨fun r => congrFun k.codec_write r, k.codec.write_eq_record, k.camelCase_eq_camelCased, hvalid,
    fun d r h => ?_, fun d e h => ?_, fun key value entries h => k.codec.alike_put_of_unknown h,
    fun n hn hne entries first value h => k.codec.alike_put_underscored hn hne h⟩
  · have hr : k.IsValid r := by
      rw [← codec_read] at h
      rw [← codec_isValid]
      exact k.codec.isValid_of_read h
    exact ⟨hr, fun s => hvalid s r hr⟩
  · rw [← codec_read, k.codec.read_congr h]

theorem reads_back_bothSpellings :
    let f : Function := ⟨"main", 3, 2, ["items"], some "int"⟩
    let entries : List (Data × Data) :=
      [(.text "name", .text "main"), (.text "line", .text "3"), (.text "complexity", .float (.ofInt 2)),
        (.text "parameters", .set [.text "items"]), (.text "returnType", .bytes [105, 110, 116])]
    Function.ofData? (Function.codec.write .underscored f) = some f ∧
      Function.ofData? (.table (Data.put (.text "return_type") (.int 5) entries)) = some f ∧
      Function.ofData? (.table (Data.put (.int 0) .null entries)) = some f := by
  intro f entries
  obtain ⟨-, -, -, hvalid, -, halike, hunknown, hboth⟩ := reads_back .function
  have hread : Function.ofData? (.table entries) = some f := by decide
  have hname : (⟨"returnType", "return_type"⟩ : Naming) ∈ RecordKind.function.codec.names := by decide
  have hpassed := hboth ⟨"returnType", "return_type"⟩ hname (by decide) entries (.bytes [105, 110, 116]) (.int 5) rfl
  exact ⟨hvalid .underscored f ⟨by decide, by decide⟩, (halike _ _ hpassed).trans hread,
    (halike _ _ (hunknown (.int 0) .null entries fun _ _ _ => nofun)).trans hread⟩

end RecordKind

end CodeCensus
