import CodeCensus.Declaration.Exports
import CodeCensus.Declaration.Functions
import CodeCensus.Proofs.Declaration.Lines
import CodeCensus.Proofs.Pattern.Captures
import CodeCensus.Proofs.Record.Spellings
import CodeCensus.Proofs.SourceFile.Scoring

/-! What the extractors of the library make of any text. They never fail, what they hand over is valid
and lies on the lines of the text, and so only some manifests can make the analysis of a file fail. -/
namespace CodeCensus

open Text Pattern

/-! ## Groups that are looked at

A group that is not there reads as the empty text; none of those that are looked at is ever missing. -/

/-- The patterns of declarations with the groups that are taken from each of their matches; of several
groups in one list, one is taken. -/
def takenGroups : List (Pattern × List (List Nat)) := [
  (Functions.scriptFunction, [[1]]), (Functions.scriptArrow, [[1]]), (Functions.scriptMethod, [[1]]),
  (Functions.pythonHead, [[1], [2]]), (Functions.javaMethod, [[1], [2]]),
  (Functions.csharpMethod, [[1], [2]]), (Functions.goHead, [[1]]), (Functions.rustHead, [[1]]),
  (Functions.phpHead, [[1]]), (Functions.rubyHead, [[1]]),
  (Imports.moduleImport, [[1], [2]]), (Imports.effectImport, [[1]]),
  (Imports.requireBinding, [[1, 2], [3]]), (Imports.bracedNames, [[1]]),
  (Imports.namespaceName, [[1]]), (Imports.pythonImport, [[2]]), (Imports.javaImport, [[1]]),
  (Imports.usingDirective, [[2]]), (Imports.goImport, [[2, 3]]), (Imports.goSpec, [[2]]),
  (Imports.useDeclaration, [[1]]), (Exports.namedExport, [[1, 2]])]

theorem binds_of_mem_takenGroups :
    ∀ taken ∈ takenGroups, ∀ ns ∈ taken.2, taken.1.binds ns = true := by decide

/-- Of all matches and of the first one alone, every match has what is taken from it. -/
theorem exists_taken {taken : Pattern × List (List Nat)} (h : taken ∈ takenGroups)
    {text : List Char} {m : Match} (hm : m ∈ taken.1.all text ∨ taken.1.find? text = some m)
    {ns : List Nat} (hns : ns ∈ taken.2) : ∃ n ∈ ns, (m.text? n).isSome := by
  have hfinds : ∃ i j, taken.1.Finds text m i j := by
    rcases hm with hm | hm
    · exact (taken.1.all_scan text).finds m hm
    · exact exists_finds_of_find? hm
  obtain ⟨i, j, hfinds⟩ := hfinds
  obtain ⟨n, hn, hsome⟩ := hfinds.exists_group? (binds_of_mem_takenGroups taken h ns hns)
  exact ⟨n, hn, by rwa [Match.text?, Option.isSome_map]⟩

variable {text : List Char}

/-! ## The extractors by name -/

namespace Registry

/-- All functions but those of script languages, which are found by three patterns, come in order. -/
theorem inLines_of_mem_functionExtractors {named : String × (Scorer → List Char → List Function)}
    (h : named ∈ functionExtractors) :
    named = ("javascript", Functions.script) ∨
      ∀ score text, InLines text ((named.2 score text).map Function.line) := by
  simp only [functionExtractors, List.mem_cons, List.not_mem_nil, or_false] at h
  rcases h with rfl | rfl | rfl | rfl | rfl | rfl | rfl | rfl
  · exact .inl rfl
  · exact .inr Functions.inLines_python
  · exact .inr (Functions.inLines_typed (by decide) (by decide))
  · exact .inr (Functions.inLines_typed (by decide) (by decide))
  · exact .inr fun score text => Functions.inLines_ofHead (by decide) score text _
  · exact .inr fun score text => Functions.inLines_ofHead (by decide) score text _
  · exact .inr Functions.inLines_php
  · exact .inr Functions.inLines_ruby

theorem bounds_of_mem_functionExtractors {named : String × (Scorer → List Char → List Function)}
    (h : named ∈ functionExtractors) {score : Scorer} {f : Function} (hf : f ∈ named.2 score text) :
    1 ≤ f.line ∧ f.line ≤ lineCount text := by
  rcases inLines_of_mem_functionExtractors h with rfl | hlines
  · exact Functions.bounds_script hf
  · exact (hlines score text).bounds f.line (List.mem_map_of_mem hf)

theorem inLines_of_mem_importExtractors {named : String × (List Char → List Import)}
    (h : named ∈ importExtractors) (text : List Char) :
    InLines text ((named.2 text).map Import.line) := by
  simp only [importExtractors, List.mem_cons, List.not_mem_nil, or_false] at h
  rcases h with rfl | rfl | rfl | rfl | rfl | rfl
  · exact Imports.inLines_script text
  · exact Imports.inLines_python text
  · exact Imports.inLines_java text
  · exact Imports.inLines_csharp text
  · exact Imports.inLines_go text
  · exact Imports.inLines_rust text

theorem inLines_of_mem_exportExtractors {named : String × (List Char → List Export)}
    (h : named ∈ exportExtractors) (text : List Char) :
    InLines text ((named.2 text).map Export.line) := by
  obtain rfl := List.mem_singleton.mp h
  exact Exports.inLines_script text

end Registry

/-! ## The extractors of a language -/

def Language.scriptFamily : List String := ["javascript", "typescript", "vue", "svelte"]

/-- A language reads declarations by extractors of the library, those for scripts in script languages
only. -/
structure Support.IsBuiltIn (language : String) (s : Support) : Prop where
  functions : ∀ extract, s.functions = some extract → ∃ named ∈ Registry.functionExtractors,
    (named.1 = "javascript" → language ∈ Language.scriptFamily) ∧
      extract = fun score text => Registry.madeAll (named.2 score text)
  imports : ∀ extract, s.imports = some extract → ∃ named ∈ Registry.importExtractors,
    extract = fun text => Registry.madeAll (named.2 text)
  exports : ∀ extract, s.exports = some extract → ∃ named ∈ Registry.exportExtractors,
    extract = fun text => Registry.madeAll (named.2 text)

namespace Support.IsBuiltIn

theorem of_branches (language : String) (branches : Option BranchSet) :
    ({ branches } : Support).IsBuiltIn language where
  functions _ h := by cases h
  imports _ h := by cases h
  exports _ h := by cases h

theorem supportNamed {language extractors : String}
    (h : extractors = "javascript" → language ∈ Language.scriptFamily) (branches : BranchSet) :
    (Registry.supportNamed branches extractors).IsBuiltIn language where
  functions extract hextract := by
    obtain ⟨f, hf, rfl⟩ := Option.map_eq_some_iff.mp hextract
    exact ⟨(extractors, f), mem_of_lookup_eq_some hf, h, rfl⟩
  imports extract hextract := by
    obtain ⟨f, hf, rfl⟩ := Option.map_eq_some_iff.mp hextract
    exact ⟨(extractors, f), mem_of_lookup_eq_some hf, rfl⟩
  exports extract hextract := by
    obtain ⟨f, hf, rfl⟩ := Option.map_eq_some_iff.mp hextract
    exact ⟨(extractors, f), mem_of_lookup_eq_some hf, rfl⟩

variable {language : String} {s : Support}

theorem functions_eq (h : s.IsBuiltIn language) {out : Except Fault (List (Found Function))}
    (hout : (s.functions.map fun extract => extract s.score text) = some out) :
    ∃ named ∈ Registry.functionExtractors,
      (named.1 = "javascript" → language ∈ Language.scriptFamily) ∧
        out = Registry.madeAll (named.2 s.score text) := by
  obtain ⟨extract, hextract, rfl⟩ := Option.map_eq_some_iff.mp hout
  obtain ⟨named, hnamed, hscript, rfl⟩ := h.functions extract hextract
  exact ⟨named, hnamed, hscript, rfl⟩

theorem imports_eq (h : s.IsBuiltIn language) {out : Except Fault (List (Found Import))}
    (hout : (s.imports.map fun extract => extract text) = some out) :
    ∃ named ∈ Registry.importExtractors, out = Registry.madeAll (named.2 text) := by
  obtain ⟨extract, hextract, rfl⟩ := Option.map_eq_some_iff.mp hout
  obtain ⟨named, hnamed, rfl⟩ := h.imports extract hextract
  exact ⟨named, hnamed, rfl⟩

theorem exports_eq (h : s.IsBuiltIn language) {out : Except Fault (List (Found Export))}
    (hout : (s.exports.map fun extract => extract text) = some out) :
    ∃ named ∈ Registry.exportExtractors, out = Registry.madeAll (named.2 text) := by
  obtain ⟨extract, hextract, rfl⟩ := Option.map_eq_some_iff.mp hout
  obtain ⟨named, hnamed, rfl⟩ := h.exports extract hextract
  exact ⟨named, hnamed, rfl⟩

end Support.IsBuiltIn

namespace Registry

theorem isBuiltIn_of_mem_standard :
    ∀ entry ∈ standard.entries, entry.2.IsBuiltIn entry.1 := by
  simp only [standard, List.forall_mem_cons]
  exact ⟨.supportNamed (by decide) _, .supportNamed (by decide) _, .supportNamed (by decide) _,
    .supportNamed (by decide) _, .supportNamed (by decide) _, .supportNamed (by decide) _,
    .supportNamed (by decide) _, .supportNamed (by decide) _, .supportNamed (by decide) _,
    .supportNamed (by decide) _, .supportNamed (by decide) _, .of_branches _ _, .of_branches _ _,
    .of_branches _ _, .of_branches _ _, .of_branches _ _, .of_branches _ _, by simp⟩

theorem isBuiltIn_supportFor (language : String) :
    (standard.supportFor language).IsBuiltIn (Language.base language) := by
  rw [supportFor]
  cases hlookup : standard.entries.lookup (Language.base language) with
  | none => exact .of_branches _ none
  | some s => exact isBuiltIn_of_mem_standard (Language.base language, s) (mem_of_lookup_eq_some hlookup)

end Registry

/-! ## Manifests -/

namespace Manifest

variable {path : String} {e : Fault}

/-- The formats whose readers can refuse a text. A list of requirements is read whatever it holds. -/
theorem read_eq_error_cases (h : Manifest.read path text = .error e) :
    (Path.lowerName path = "package.json" ∧ ofDocument (Json.read text) ofPackageJson = .error e) ∨
      (Path.lowerName path = "package-lock.json" ∧ ofDocument (Json.read text) ofPackageLock = .error e) ∨
      Path.lowerName path = "pyproject.toml" ∧
        ofDocument (Toml.read text) (fun document => .ok (ofPyproject document)) = .error e := by
  rw [Manifest.read] at h
  cases hformat : formatOf? path with
  | none =>
    rw [hformat] at h
    cases h
  | some format =>
    rw [hformat] at h
    have hmem : (Path.lowerName path, format) ∈ formats := mem_of_lookup_eq_some hformat
    simp only [formats, List.mem_cons, Prod.mk.injEq, List.not_mem_nil, or_false] at hmem
    rcases hmem with ⟨hname, rfl⟩ | ⟨hname, rfl⟩ | ⟨-, rfl⟩ | ⟨hname, rfl⟩
    · exact .inl ⟨hname, h⟩
    · exact .inr (.inl ⟨hname, h⟩)
    · cases h
    · exact .inr (.inr ⟨hname, h⟩)

theorem lowerName_mem_of_read_eq_error (h : Manifest.read path text = .error e) :
    Path.lowerName path ∈ ["package.json", "package-lock.json", "pyproject.toml"] := by
  rcases read_eq_error_cases h with ⟨hname, -⟩ | ⟨hname, -⟩ | ⟨hname, -⟩ <;> simp [hname]

end Manifest

/-! ## The analysis of a file -/

namespace SourceFile

variable {path content : String} {maxChars : Int}

/-- Everything that a file declares lies on its lines, in order but for the functions of scripts. -/
structure IsPlaced (file : SourceFile) (text : List Char) : Prop where
  functions : ∀ f ∈ file.functions, 1 ≤ f.line ∧ f.line ≤ lineCount text
  functions_sorted : Language.base file.language ∉ Language.scriptFamily →
    (file.functions.map Function.line).Pairwise (· ≤ ·)
  imports : InLines text (file.imports.map Import.line)
  exports : InLines text (file.exports.map Export.line)

theorem inLines_nil (text : List Char) : InLines text [] :=
  ⟨fun _ h => absurd h List.not_mem_nil, .nil⟩

theorem isPlaced_of_nil {file : SourceFile} (hfunctions : file.functions = [])
    (himports : file.imports = []) (hexports : file.exports = []) (text : List Char) :
    file.IsPlaced text := by
  refine ⟨?_, fun _ => ?_, ?_, ?_⟩
  · rw [hfunctions]
    exact fun f hf => absurd hf List.not_mem_nil
  · rw [hfunctions]
    exact .nil
  · rw [himports]
    exact inLines_nil text
  · rw [hexports]
    exact inLines_nil text

section made

variable {α : Type} {read : Lax.Reader α} {field : String}
  {extract : Option (Except Fault (List (Found α)))}

/-- A file has the records that an extractor made, and none without an extractor. -/
theorem records_of_extracted {found : List (Found α)} {records : List α}
    (hfound : extracted extract = .ok found)
    (hrecords : Found.records read field found = .ok records) :
    records = [] ∨
      ∃ out, extract = some out ∧ ∀ made, out = Registry.madeAll made → records = made := by
  cases extract with
  | none =>
    obtain rfl : [] = found := Except.ok.inj hfound
    exact .inl (Except.ok.inj hrecords).symm
  | some out =>
    refine .inr ⟨out, rfl, ?_⟩
    rintro made rfl
    obtain rfl : made.map Found.made = found := Except.ok.inj hfound
    rw [Found.records_map_made] at hrecords
    exact (Except.ok.inj hrecords).symm

theorem not_extractionFails (hmade : ∀ out, extract = some out → ∃ made, out = Registry.madeAll made)
    (e : Fault) : ¬ ExtractionFails read field extract e := by
  intro h
  cases h with
  | raises =>
    obtain ⟨made, hout⟩ := hmade _ rfl
    cases hout
  | @invalid found item hmem hunreadable =>
    obtain ⟨made, hout⟩ := hmade _ rfl
    obtain rfl : found = made.map .made := Except.ok.inj hout
    obtain ⟨record, -, rfl⟩ := List.mem_map.mp hmem
    cases hunreadable

end made

theorem isPlaced_of_analyse {file : SourceFile} (h : analyse .standard path content = .ok file) :
    file.IsPlaced content.toList := by
  obtain ⟨⟨functions, hfunctions, hfunctions'⟩, ⟨imports, himports, himports'⟩,
    ⟨exports, hexports, hexports'⟩, -, -, hlanguage, -⟩ := analyse_eq_ok h
  have hbuiltIn := Registry.isBuiltIn_supportFor (Language.ofPath path)
  have hfound : file.functions = [] ∨ ∃ named ∈ Registry.functionExtractors,
      (named.1 = "javascript" → Language.base file.language ∈ Language.scriptFamily) ∧
        ∃ score, file.functions = named.2 score content.toList := by
    refine (records_of_extracted hfunctions hfunctions').imp_right ?_
    rintro ⟨out, hout, hmade⟩
    obtain ⟨named, hnamed, hscript, hmadeAll⟩ := hbuiltIn.functions_eq hout
    rw [hlanguage]
    exact ⟨named, hnamed, hscript, _, hmade _ hmadeAll⟩
  refine ⟨?_, ?_, ?_, ?_⟩
  · intro f hf
    rcases hfound with hnil | ⟨named, hnamed, -, score, hfound⟩
    · exact absurd (hnil ▸ hf) List.not_mem_nil
    · exact Registry.bounds_of_mem_functionExtractors hnamed (hfound ▸ hf)
  · intro hfamily
    rcases hfound with hnil | ⟨named, hnamed, hscript, score, hfound⟩
    · rw [hnil]
      exact .nil
    · rcases Registry.inLines_of_mem_functionExtractors hnamed with rfl | hlines
      · exact absurd (hscript rfl) hfamily
      · rw [hfound]
        exact (hlines score content.toList).sorted
  · rcases records_of_extracted himports himports' with hnil | ⟨out, hout, hmade⟩
    · rw [hnil]
      exact inLines_nil _
    · obtain ⟨named, hnamed, hmadeAll⟩ := hbuiltIn.imports_eq hout
      rw [hmade _ hmadeAll]
      exact Registry.inLines_of_mem_importExtractors hnamed _
  · rcases records_of_extracted hexports hexports' with hnil | ⟨out, hout, hmade⟩
    · rw [hnil]
      exact inLines_nil _
    · obtain ⟨named, hnamed, hmadeAll⟩ := hbuiltIn.exports_eq hout
      rw [hmade _ hmadeAll]
      exact Registry.inLines_of_mem_exportExtractors hnamed _

theorem isPlaced_parse (maxChars : Int) (path content : String) :
    (parse .standard maxChars path content).1.IsPlaced content.toList := by
  by_cases hskip : IsSkipped maxChars path content
  · rw [parse_of_isSkipped hskip]
    exact isPlaced_of_nil rfl rfl rfl _
  · rw [parse_of_not_isSkipped hskip]
    cases hanalyse : analyse .standard path content with
    | error e => exact isPlaced_of_nil rfl rfl rfl _
    | ok file => exact isPlaced_of_analyse hanalyse

/-- Only a manifest makes an analysis fail that uses the extractors of the library alone. -/
theorem read_eq_error_of_analyse_eq_error {fault : Fault}
    (h : analyse .standard path content = .error fault) :
    Manifest.read path content.toList = .error fault := by
  have hbuiltIn := Registry.isBuiltIn_supportFor (Language.ofPath path)
  cases analysisFails_of_analyse_eq_error h with
  | functions hfails =>
    refine absurd hfails (not_extractionFails (fun out hout => ?_) fault)
    obtain ⟨named, -, -, hmadeAll⟩ := hbuiltIn.functions_eq hout
    exact ⟨_, hmadeAll⟩
  | imports hfails =>
    refine absurd hfails (not_extractionFails (fun out hout => ?_) fault)
    obtain ⟨named, -, hmadeAll⟩ := hbuiltIn.imports_eq hout
    exact ⟨_, hmadeAll⟩
  | exports hfails =>
    refine absurd hfails (not_extractionFails (fun out hout => ?_) fault)
    obtain ⟨named, -, hmadeAll⟩ := hbuiltIn.exports_eq hout
    exact ⟨_, hmadeAll⟩
  | manifest hfails => exact hfails

theorem lowerName_mem_of_parse_eq_some {fault : Fault}
    (h : (parse .standard maxChars path content).2 = some fault) :
    Path.lowerName path ∈ ["package.json", "package-lock.json", "pyproject.toml"] := by
  by_cases hskip : IsSkipped maxChars path content
  · rw [parse_of_isSkipped hskip] at h
    cases h
  rw [parse_of_not_isSkipped hskip] at h
  cases hanalyse : analyse .standard path content with
  | ok file =>
    rw [hanalyse] at h
    cases h
  | error e => exact Manifest.lowerName_mem_of_read_eq_error (read_eq_error_of_analyse_eq_error hanalyse)

/-- The extractors of the library answer with valid records whatever text they are given, and find in
each match what they take from it. So a file whose analysis fails is a manifest, and all that is said
of a file lies on its lines, imports and exports in order, and functions as well but in script
languages. -/
theorem extraction_total (maxChars : Int) (path content : String) :
    (∀ named ∈ Registry.functionExtractors, ∀ score : Scorer, (∀ body, 1 ≤ score body) →
      ∀ f ∈ named.2 score content.toList, Function.ofData? f.toData = some f) ∧
    (∀ named ∈ Registry.importExtractors, ∀ i ∈ named.2 content.toList,
      Import.ofData? i.toData = some i) ∧
    (∀ named ∈ Registry.exportExtractors, ∀ e ∈ named.2 content.toList,
      Export.ofData? e.toData = some e) ∧
    (∀ taken ∈ takenGroups, ∀ (text : List Char) (m : Match),
      m ∈ taken.1.all text ∨ taken.1.find? text = some m →
        ∀ ns ∈ taken.2, ∃ n ∈ ns, (m.text? n).isSome) ∧
    (∀ language, (Registry.standard.supportFor language).IsBuiltIn (Language.base language)) ∧
    (∀ fault, (parse .standard maxChars path content).2 = some fault →
      Path.lowerName path ∈ ["package.json", "package-lock.json", "pyproject.toml"]) ∧
    (parse .standard maxChars path content).1.IsPlaced content.toList := by
  refine ⟨?_, ?_, ?_, ?_, Registry.isBuiltIn_supportFor,
    fun fault h => lowerName_mem_of_parse_eq_some h, isPlaced_parse maxChars path content⟩
  · intro named hnamed score hscore f hf
    obtain ⟨body, -, hcomplexity⟩ := Functions.scoredIn_of_mem hnamed hf
    have hline := (Registry.bounds_of_mem_functionExtractors hnamed hf).1
    exact Function.ofData?_toData hline (hcomplexity ▸ hscore body)
  · intro named hnamed i hi
    have hlines := Registry.inLines_of_mem_importExtractors hnamed content.toList
    exact Import.ofData?_toData (hlines.bounds i.line (List.mem_map_of_mem hi)).1
  · intro named hnamed e he
    have hlines := Registry.inLines_of_mem_exportExtractors hnamed content.toList
    exact Export.ofData?_toData (hlines.bounds e.line (List.mem_map_of_mem he)).1
  · intro taken htaken text m hm ns hns
    exact exists_taken htaken hm hns

/-- A source file with a block of imports, and a manifest with half of a surrogate pair for a name. -/
theorem extraction_total_goAndManifest :
    (parse .standard 100 "a.go" "import (\n\"fmt\"\n)\nfunc f() \x7b\x7d\n").1.imports.map
      Import.line = [2] ∧
    (parse .standard 100 "a.go" "import (\n\"fmt\"\n)\nfunc f() \x7b\x7d\n").1.IsPlaced
      "import (\n\"fmt\"\n)\nfunc f() \x7b\x7d\n".toList ∧
    (∀ f ∈ Functions.go (branchScore BranchSet.go.patterns)
        "import (\n\"fmt\"\n)\nfunc f() \x7b\x7d\n".toList,
      Function.ofData? f.toData = some f) ∧
    (parse .standard 100 "Package.JSON" "\x7b\"name\": \"\\ud800\"\x7d").2 =
      some (.invalidRecord "ManifestInfo" "name") ∧
    Path.lowerName "Package.JSON" ∈ ["package.json", "package-lock.json", "pyproject.toml"] := by
  obtain ⟨hfunctions, -, -, -, -, -, hplaced⟩ :=
    extraction_total 100 "a.go" "import (\n\"fmt\"\n)\nfunc f() \x7b\x7d\n"
  obtain ⟨-, -, -, -, -, hfault, -⟩ :=
    extraction_total 100 "Package.JSON" "\x7b\"name\": \"\\ud800\"\x7d"
  have hgo : ("go", Functions.go) ∈ Registry.functionExtractors := by simp [Registry.functionExtractors]
  have hfails : (parse .standard 100 "Package.JSON" "\x7b\"name\": \"\\ud800\"\x7d").2 =
      some (.invalidRecord "ManifestInfo" "name") := by decide +kernel
  refine ⟨by decide +kernel, hplaced, ?_, hfails, hfault _ hfails⟩
  exact hfunctions _ hgo _ fun body => one_le_branchScore _ body

end SourceFile

end CodeCensus
