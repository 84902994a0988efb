import CodeCensus.Proofs.Except
import CodeCensus.Proofs.Language.Branching
import CodeCensus.SourceFile
import CodeCensus.Survey.Event
import Mathlib.Logic.Basic

/-! What comes of a file: it is skipped, its analysis fails, or it is analysed. Which of the three
it is does not depend on how the stages of the analysis follow one another, and only an analysed
file has a complexity. -/

namespace CodeCensus

namespace Found

variable {α : Type} {read : Lax.Reader α} {field : String}

theorem mapM_record?_eq_none {found : List (Found α)} :
    found.mapM (record? read) = none ↔ ∃ item ∈ found, record? read item = none := by
  induction found with
  | nil => simp
  | cons item found ih =>
    rw [List.mapM_cons]
    cases hitem : record? read item with
    | none => simp [hitem]
    | some record =>
      cases hfound : found.mapM (record? read) with
      | none => simpa [hitem, hfound] using ih
      | some records => simpa [hitem, hfound] using ih

theorem records_eq_error {found : List (Found α)} {e : Fault} :
    records read field found = .error e ↔
      e = .invalidRecord "ParsedFile" field ∧ ∃ item ∈ found, record? read item = none := by
  rw [← mapM_record?_eq_none, records]
  cases found.mapM (record? read) with
  | none => simp [eq_comm]
  | some records => simp

theorem records_map_made (made : List α) : records read field (made.map .made) = .ok made := by
  have h : (made.map .made).mapM (record? read) = some made := by
    induction made with
    | nil => rfl
    | cons record made ih => simp [List.mapM_cons, ih, record?]
  rw [records, h]

end Found

namespace SourceFile

variable {α : Type} {r : Registry} {maxChars : Int} {path content : String}

/-- A file is skipped if its path tells that it is binary, or if it has too many characters. -/
def IsSkipped (maxChars : Int) (path content : String) : Prop :=
  Language.isBinary path = true ∨ maxChars < content.length

inductive ExtractionFails (read : Lax.Reader α) (field : String) :
    Option (Except Fault (List (Found α))) → Fault → Prop
  | raises (e : Fault) : ExtractionFails read field (some (.error e)) e
  | invalid {found : List (Found α)} {item : Found α} (mem : item ∈ found)
    (unreadable : item.record? read = none) :
    ExtractionFails read field (some (.ok found)) (.invalidRecord "ParsedFile" field)

/-- What can go wrong in the analysis of a file, at whichever stage. -/
inductive AnalysisFails (r : Registry) (path content : String) : Fault → Prop
  | functions {e : Fault} (h : ExtractionFails Function.ofData? "functions"
      ((r.supportFor (Language.ofPath path)).functions.map fun f =>
        f (r.supportFor (Language.ofPath path)).score content.toList) e) :
    AnalysisFails r path content e
  | imports {e : Fault} (h : ExtractionFails Import.ofData? "imports"
      ((r.supportFor (Language.ofPath path)).imports.map fun f => f content.toList) e) :
    AnalysisFails r path content e
  | exports {e : Fault} (h : ExtractionFails Export.ofData? "exports"
      ((r.supportFor (Language.ofPath path)).exports.map fun f => f content.toList) e) :
    AnalysisFails r path content e
  | manifest {e : Fault} (h : Manifest.read path content.toList = .error e) :
    AnalysisFails r path content e

section extraction

variable {read : Lax.Reader α} {field : String} {out : Option (Except Fault (List (Found α)))}
  {e : Fault}

/-- An extraction fails when the stage that runs it or the stage that reads its records does. -/
theorem extractionFails_iff : ExtractionFails read field out e ↔
    extracted out = .error e ∨
      ∃ found, extracted out = .ok found ∧ Found.records read field found = .error e := by
  constructor
  · rintro (⟨_⟩ | ⟨hmem, hread⟩)
    · exact .inl rfl
    · exact .inr ⟨_, rfl, Found.records_eq_error.mpr ⟨rfl, _, hmem, hread⟩⟩
  · rintro (h | ⟨found, hfound, h⟩)
    · rcases out with _ | (e' | found)
      · exact absurd h (by simp [extracted])
      · obtain rfl : e' = e := by simpa [extracted] using h
        exact .raises e'
      · exact absurd h (by simp [extracted])
    · obtain ⟨rfl, item, hmem, hread⟩ := Found.records_eq_error.mp h
      rcases out with _ | (e' | found')
      · obtain rfl : [] = found := by simpa [extracted] using hfound
        exact absurd hmem List.not_mem_nil
      · exact absurd hfound (by simp [extracted])
      · obtain rfl : found' = found := by simpa [extracted] using hfound
        exact .invalid hmem hread

end extraction

/-- An analysis that succeeds has come through all of its stages. -/
theorem analyse_eq_ok {file : SourceFile} (h : analyse r path content = .ok file) :
    (∃ found, extracted ((r.supportFor (Language.ofPath path)).functions.map fun f =>
        f (r.supportFor (Language.ofPath path)).score content.toList) = .ok found ∧
      Found.records Function.ofData? "functions" found = .ok file.functions) ∧
    (∃ found, extracted ((r.supportFor (Language.ofPath path)).imports.map fun f =>
        f content.toList) = .ok found ∧
      Found.records Import.ofData? "imports" found = .ok file.imports) ∧
    (∃ found, extracted ((r.supportFor (Language.ofPath path)).exports.map fun f =>
        f content.toList) = .ok found ∧
      Found.records Export.ofData? "exports" found = .ok file.exports) ∧
    Manifest.read path content.toList = .ok file.manifest ∧
    file.path = path ∧ file.language = Language.ofPath path ∧ file.content = content ∧
    file.lines = Text.lineCount content.toList ∧ file.size = content.toList.length ∧
    file.complexity = fileComplexity r (Language.ofPath path) content.toList := by
  rw [analyse] at h
  obtain ⟨functions, hfunctions, h⟩ := Except.bind_eq_ok h
  obtain ⟨imports, himports, h⟩ := Except.bind_eq_ok h
  obtain ⟨exports, hexports, h⟩ := Except.bind_eq_ok h
  obtain ⟨manifest, hmanifest, h⟩ := Except.bind_eq_ok h
  obtain ⟨functions', hfunctions', h⟩ := Except.bind_eq_ok h
  obtain ⟨imports', himports', h⟩ := Except.bind_eq_ok h
  obtain ⟨exports', hexports', h⟩ := Except.bind_eq_ok h
  obtain rfl := Except.ok.inj h
  refine ⟨⟨functions, hfunctions, hfunctions'⟩, ⟨imports, himports, himports'⟩,
    ⟨exports, hexports, hexports'⟩, hmanifest, ?_⟩
  dsimp only
  exact ⟨rfl, rfl, rfl, rfl, rfl, rfl⟩

theorem analysisFails_of_analyse_eq_error {e : Fault} (h : analyse r path content = .error e) :
    AnalysisFails r path content e := by
  rw [analyse] at h
  -- the extractors and the manifest first, then the reading of what each of them found
  rcases Except.bind_eq_error h with hf | ⟨functions, hfunctions, h⟩
  · exact .functions (extractionFails_iff.mpr (.inl hf))
  rcases Except.bind_eq_error h with hi | ⟨imports, himports, h⟩
  · exact .imports (extractionFails_iff.mpr (.inl hi))
  rcases Except.bind_eq_error h with he | ⟨exports, hexports, h⟩
  · exact .exports (extractionFails_iff.mpr (.inl he))
  rcases Except.bind_eq_error h with hm | ⟨manifest, -, h⟩
  · exact .manifest hm
  rcases Except.bind_eq_error h with hf | ⟨functions', -, h⟩
  · exact .functions (extractionFails_iff.mpr (.inr ⟨functions, hfunctions, hf⟩))
  rcases Except.bind_eq_error h with hi | ⟨imports', -, h⟩
  · exact .imports (extractionFails_iff.mpr (.inr ⟨imports, himports, hi⟩))
  rcases Except.bind_eq_error h with he | ⟨exports', -, h⟩
  · exact .exports (extractionFails_iff.mpr (.inr ⟨exports, hexports, he⟩))
  · exact absurd h (by simp [pure, Except.pure])

/-- The analysis fails exactly if something goes wrong at one of its stages. -/
theorem exists_analyse_eq_error :
    (∃ e, analyse r path content = .error e) ↔ ∃ e, AnalysisFails r path content e := by
  constructor
  · rintro ⟨e, h⟩
    exact ⟨e, analysisFails_of_analyse_eq_error h⟩
  · rintro ⟨e, h⟩
    cases hfile : analyse r path content with
    | error e' => exact ⟨e', rfl⟩
    | ok file =>
      obtain ⟨⟨functions, hf, hf'⟩, ⟨imports, hi, hi'⟩, ⟨exports, he, he'⟩, hm, -⟩ :=
        analyse_eq_ok hfile
      cases h with
      | functions h => rcases extractionFails_iff.mp h with h | ⟨found, h, h'⟩ <;> simp_all
      | imports h => rcases extractionFails_iff.mp h with h | ⟨found, h, h'⟩ <;> simp_all
      | exports h => rcases extractionFails_iff.mp h with h | ⟨found, h, h'⟩ <;> simp_all
      | manifest h => simp_all

theorem one_le_fileComplexity (r : Registry) (language : String) (text : List Char) :
    1 ≤ fileComplexity r language text := by
  rw [fileComplexity]
  split
  · exact one_le_branchScore _ text
  · exact one_le_branchScore _ text

theorem parse_of_isSkipped (h : IsSkipped maxChars path content) :
    parse r maxChars path content =
      (⟨path, Language.ofPath path, "", 0, content.length, 0, [], [], [], none⟩, none) := by
  have hskip : (Language.isBinary path || decide (maxChars < content.length)) = true := by
    simpa [IsSkipped] using h
  rw [parse]
  dsimp only
  rw [if_pos hskip, unread]

theorem parse_of_not_isSkipped (h : ¬ IsSkipped maxChars path content) :
    parse r maxChars path content =
      match analyse r path content with
      | .ok file => (file, none)
      | .error e =>
        (⟨path, Language.ofPath path, "", Text.lineCount content.toList, content.length, 0,
          [], [], [], none⟩, some e) := by
  have hskip : ¬ (Language.isBinary path || decide (maxChars < content.length)) = true := by
    simpa [IsSkipped] using h
  rw [parse]
  dsimp only [unread]
  refine (if_neg hskip).trans ?_
  cases analyse r path content <;> rfl

/-- Whatever comes of a file, its record has its path and the language that the path tells. -/
theorem path_parse_and_language_parse (r : Registry) (maxChars : Int) (path content : String) :
    (parse r maxChars path content).1.path = path ∧
      (parse r maxChars path content).1.language = Language.ofPath path := by
  by_cases hskip : IsSkipped maxChars path content
  · rw [parse_of_isSkipped hskip]
    dsimp only
    exact ⟨rfl, rfl⟩
  · rw [parse_of_not_isSkipped hskip]
    cases hanalyse : analyse r path content with
    | error e =>
      dsimp only
      exact ⟨rfl, rfl⟩
    | ok file =>
      obtain ⟨-, -, -, -, hpath, hlanguage, -⟩ := analyse_eq_ok hanalyse
      exact ⟨hpath, hlanguage⟩

theorem path_parse (r : Registry) (maxChars : Int) (path content : String) :
    (parse r maxChars path content).1.path = path :=
  (path_parse_and_language_parse r maxChars path content).1

theorem language_parse (r : Registry) (maxChars : Int) (path content : String) :
    (parse r maxChars path content).1.language = Language.ofPath path :=
  (path_parse_and_language_parse r maxChars path content).2

/-- A file is skipped, whatever is registered, and then only its size is kept; or its analysis
fails, which is reported once, and then its lines are counted as well; or it is analysed and kept
whole. Its complexity is zero in the first two cases and in these alone. -/
theorem parse_outcome (r : Registry) (maxChars : Int) (path content : String) :
    ((IsSkipped maxChars path content ∧ ∀ r' : Registry,
        (parse r' maxChars path content).1 =
          ⟨path, Language.ofPath path, "", 0, content.length, 0, [], [], [], none⟩ ∧
        Event.ofParse path (parse r' maxChars path content).2 = []) ∨
      (¬ IsSkipped maxChars path content ∧ ∃ e, AnalysisFails r path content e ∧
        (parse r maxChars path content).1 =
          ⟨path, Language.ofPath path, "", Text.lineCount content.toList, content.length, 0,
            [], [], [], none⟩ ∧
        Event.ofParse path (parse r maxChars path content).2 = [.parseDegraded path e]) ∨
      (¬ IsSkipped maxChars path content ∧ (∀ e, ¬ AnalysisFails r path content e) ∧
        (parse r maxChars path content).1.path = path ∧
        (parse r maxChars path content).1.language = Language.ofPath path ∧
        (parse r maxChars path content).1.content = content ∧
        (parse r maxChars path content).1.lines = Text.lineCount content.toList ∧
        (parse r maxChars path content).1.size = content.length ∧
        1 ≤ (parse r maxChars path content).1.complexity ∧
        Event.ofParse path (parse r maxChars path content).2 = [])) ∧
    ((parse r maxChars path content).1.complexity = 0 ↔
      IsSkipped maxChars path content ∨ ∃ e, AnalysisFails r path content e) := by
  by_cases hskip : IsSkipped maxChars path content
  · refine ⟨.inl ⟨hskip, fun r' => ?_⟩, ?_⟩
    · rw [parse_of_isSkipped hskip]
      dsimp only
      exact ⟨rfl, rfl⟩
    · rw [parse_of_isSkipped hskip]
      exact iff_of_true rfl (.inl hskip)
  · rw [parse_of_not_isSkipped hskip]
    cases hanalyse : analyse r path content with
    | error e =>
      have hfails := analysisFails_of_analyse_eq_error hanalyse
      dsimp only
      exact ⟨.inr (.inl ⟨hskip, e, hfails, rfl, rfl⟩), iff_of_true rfl (.inr ⟨e, hfails⟩)⟩
    | ok file =>
      have hfine : ∀ e, ¬ AnalysisFails r path content e := by
        intro e he
        obtain ⟨e', he'⟩ := exists_analyse_eq_error.mpr ⟨e, he⟩
        exact absurd (hanalyse.symm.trans he') (by simp)
      obtain ⟨-, -, -, -, hpath, hlanguage, hcontent, hlines, hsize, hcomplexity⟩ :=
        analyse_eq_ok hanalyse
      have hpos : 1 ≤ file.complexity := hcomplexity ▸ one_le_fileComplexity r _ _
      refine ⟨.inr (.inr ⟨hskip, hfine, hpath, hlanguage, hcontent, hlines, ?_, hpos, rfl⟩), ?_⟩
      · rw [hsize, String.length_toList]
      · refine iff_of_false (Nat.ne_of_gt hpos) ?_
        rintro (h | ⟨e, he⟩)
        · exact hskip h
        · exact hfine e he

end SourceFile

end CodeCensus
