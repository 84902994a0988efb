import CodeCensus.Proofs.Document.Json
import CodeCensus.Proofs.Document.Toml
import CodeCensus.Proofs.SourceFile.Extraction

/-! When the manifest of a file is read, and when it makes the analysis of the file fail. Bad syntax and
values of the wrong type never do; what is left is a number with too many digits, values that nest too
deep, and half of a surrogate pair in a name. -/

namespace CodeCensus

open Text

namespace Manifest

variable {path : String} {text : List Char} {fault : Fault}

/-- There is no manifest in a file: its name is none of a manifest, or its text is no document, or the
document is no table. -/
def IsVoid (path : String) (text : List Char) : Prop :=
  match formatOf? path with
  | none => True
  | some .requirements => False
  | some .pyproject => Toml.read text = .error .malformed
  | some _ => Json.read text = .error .malformed ∨ ∃ d, Json.read text = .ok d ∧ d.table? = none

/-- What keeps a manifest from being read other than its syntax. -/
inductive Hinders (path : String) (text : List Char) : Fault → Prop
  | decoding {fault : Fault}
    (name : Path.lowerName path ∈ ["package.json", "package-lock.json", "pyproject.toml"])
    (reason : fault.LiesIn Fault.maxNesting text) : Hinders path text fault
  | half {field : String} (name : Path.lowerName path ∈ ["package.json", "package-lock.json"])
    (mem : field ∈ ["name", "version", "dependencies", "devDependencies"]) (reason : Json.HasHalf text) :
    Hinders path text (.invalidRecord "ManifestInfo" field)

/-! ## Declarations of a document -/

/-- A record refuses a document for one of its fields, and only if a text in the document is broken. -/
def Refuses (document : Data) (fault : Fault) : Prop :=
  ¬ document.IsWhole ∧ ∃ field ∈ ["name", "version", "dependencies", "devDependencies"],
    fault = .invalidRecord "ManifestInfo" field

section

variable {document : Data} {value : Option Data} {field : String}

theorem textOf_eq_error (h : textOf field value = .error fault) :
    fault = .invalidRecord "ManifestInfo" field ∧ ∃ d ∈ value, ¬ d.IsWhole := by
  unfold textOf at h
  split at h
  · cases h
  · rename_i codes
    refine ⟨(Except.error.inj h).symm, .broken codes, rfl, fun hwhole => ?_⟩
    exact hwhole.ne_broken codes rfl
  · cases h

theorem names_eq_error {keys : List Data} (h : names field keys = .error fault) :
    fault = .invalidRecord "ManifestInfo" field ∧ ∃ key ∈ keys, ∀ s, key ≠ .text s := by
  induction keys with
  | nil => cases h
  | cons key rest ih =>
    rw [names, List.mapM_cons] at h
    rcases Except.bind_eq_error h with hkey | ⟨s, -, h⟩
    · unfold wholeText at hkey
      split at hkey
      · cases hkey
      · rename_i hno
        exact ⟨(Except.error.inj hkey).symm, key, List.mem_cons_self, hno⟩
    · rcases Except.bind_eq_error h with hrest | ⟨found, -, h⟩
      · obtain ⟨hfault, key', hkey', hno⟩ := ih hrest
        exact ⟨hfault, key', List.mem_cons_of_mem key hkey', hno⟩
      · cases h

theorem exists_text_of_mem_keysOf (h : ∀ d ∈ value, d.IsWhole) :
    ∀ key ∈ keysOf value, ∃ s, key = .text s := by
  intro key hkey
  unfold keysOf at hkey
  split at hkey
  · obtain ⟨entry, hentry, rfl⟩ := List.mem_map.mp hkey
    cases h _ rfl with
    | table keys values => exact keys entry hentry
  · cases hkey

theorem exists_text_of_mem_lockedKeys (h : document.IsWhole) :
    (∀ key ∈ (lockedKeys document).1, ∃ s, key = .text s) ∧
      ∀ key ∈ (lockedKeys document).2, ∃ s, key = .text s := by
  unfold lockedKeys
  split
  · rename_i root hroot
    obtain ⟨packages, hpackages, hroot⟩ := Option.bind_eq_some_iff.mp hroot
    have hwhole : (Data.table root).IsWhole := (h.get? hpackages).get? hroot
    exact ⟨exists_text_of_mem_keysOf fun d hd => hwhole.get? hd,
      exists_text_of_mem_keysOf fun d hd => hwhole.get? hd⟩
  · split
    · rename_i entries hentries
      cases h.get? hentries with
      | table keys values =>
        refine ⟨fun key hkey => ?_, fun key hkey => ?_⟩
        all_goals obtain ⟨entry, hentry, rfl⟩ := List.mem_map.mp hkey
        all_goals exact keys entry (List.mem_filter.mp hentry).1
    · exact ⟨by simp, by simp⟩

/-- The four fields of a record are read one after another. -/
theorem refuses_of_fields {name version : Option Data} {keys devKeys : List Data} {kind : String}
    (hvalues : document.IsWhole → ∀ d, d ∈ name ∨ d ∈ version → d.IsWhole)
    (hkeys : document.IsWhole → ∀ key, key ∈ keys ∨ key ∈ devKeys → ∃ s, key = .text s)
    (h : (do
      let name ← textOf "name" name
      let version ← textOf "version" version
      let dependencies ← names "dependencies" keys
      let devDependencies ← names "devDependencies" devKeys
      return (⟨kind, name, version, dependencies, devDependencies⟩ : Manifest)) = .error fault) :
    Refuses document fault := by
  rcases Except.bind_eq_error h with hname | ⟨_, -, h⟩
  · obtain ⟨hfault, d, hd, hbroken⟩ := textOf_eq_error hname
    exact ⟨fun hwhole => hbroken (hvalues hwhole d (.inl hd)), "name", by decide, hfault⟩
  rcases Except.bind_eq_error h with hversion | ⟨_, -, h⟩
  · obtain ⟨hfault, d, hd, hbroken⟩ := textOf_eq_error hversion
    exact ⟨fun hwhole => hbroken (hvalues hwhole d (.inr hd)), "version", by decide, hfault⟩
  rcases Except.bind_eq_error h with hdependencies | ⟨_, -, h⟩
  · obtain ⟨hfault, key, hkey, hno⟩ := names_eq_error hdependencies
    refine ⟨fun hwhole => ?_, "dependencies", by decide, hfault⟩
    obtain ⟨s, hs⟩ := hkeys hwhole key (.inl hkey)
    exact hno s hs
  rcases Except.bind_eq_error h with hdependencies | ⟨_, -, h⟩
  · obtain ⟨hfault, key, hkey, hno⟩ := names_eq_error hdependencies
    refine ⟨fun hwhole => ?_, "devDependencies", by decide, hfault⟩
    obtain ⟨s, hs⟩ := hkeys hwhole key (.inr hkey)
    exact hno s hs
  · cases h

theorem refuses_of_ofPackageJson (h : ofPackageJson document = .error fault) : Refuses document fault := by
  refine refuses_of_fields (fun hwhole d hd => ?_) (fun hwhole key hkey => ?_) h
  · rcases hd with hd | hd
    · exact hwhole.get? hd
    · exact hwhole.get? hd
  · rcases hkey with hkey | hkey
    · exact exists_text_of_mem_keysOf (fun d hd => hwhole.get? hd) key hkey
    · exact exists_text_of_mem_keysOf (fun d hd => hwhole.get? hd) key hkey

theorem refuses_of_ofPackageLock (h : ofPackageLock document = .error fault) : Refuses document fault := by
  refine refuses_of_fields (fun hwhole d hd => ?_) (fun hwhole key hkey => ?_) h
  · rcases hd with hd | hd
    · exact hwhole.get? hd
    · exact hwhole.get? hd
  · obtain ⟨hkeys, hdevKeys⟩ := exists_text_of_mem_lockedKeys hwhole
    rcases hkey with hkey | hkey
    · exact hkeys key hkey
    · exact hdevKeys key hkey

end

/-! ## Reading a manifest -/

section

variable {read : Except Refusal Data} {declared : Data → Except Fault Manifest}

theorem ofDocument_eq_error (h : ofDocument read declared = .error fault) :
    read = .error (.fault fault) ∨ ∃ d, read = .ok d ∧ declared d = .error fault := by
  unfold ofDocument at h
  split at h
  · cases h
  · rename_i f
    exact .inl (by rw [Except.error.inj h])
  · rename_i entries
    refine .inr ⟨_, rfl, ?_⟩
    cases hdeclared : declared (.table entries) with
    | ok m =>
      rw [hdeclared] at h
      cases h
    | error e =>
      rw [hdeclared] at h
      exact congrArg _ (Except.error.inj h)
  · cases h

theorem ofDocument_eq_none : ofDocument read declared = .ok none ↔
    read = .error .malformed ∨ ∃ d, read = .ok d ∧ d.table? = none := by
  cases read with
  | error e => cases e <;> simp [ofDocument]
  | ok d =>
    cases d with
    | table entries =>
      cases hdeclared : declared (.table entries) <;>
        simp [ofDocument, hdeclared, Except.map, Data.table?]
    | _ => simp [ofDocument, Data.table?]

end

theorem hinders_of_json (name : Path.lowerName path ∈ ["package.json", "package-lock.json"])
    {declared : Data → Except Fault Manifest}
    (hdeclared : ∀ d f, declared d = .error f → Refuses d f)
    (h : ofDocument (Json.read text) declared = .error fault) : Hinders path text fault := by
  have hmeets := Json.read_meets text
  rcases ofDocument_eq_error h with hread | ⟨d, hread, hfault⟩
  · refine .decoding ?_ (hmeets.isDue hread)
    simp only [List.mem_cons, List.not_mem_nil, or_false] at name ⊢
    exact name.imp_right .inl
  · obtain ⟨hbroken, field, hfield, rfl⟩ := hdeclared d fault hfault
    have hhalf : Json.HasHalf text := by
      by_contra hno
      exact hbroken (hmeets.of_eq_ok hread hno)
    exact .half name hfield hhalf

theorem hinders_of_read_eq_error (h : Manifest.read path text = .error fault) : Hinders path text fault := by
  rcases read_eq_error_cases h with ⟨hname, h⟩ | ⟨hname, h⟩ | ⟨hname, h⟩
  · exact hinders_of_json (by simp [hname]) (fun _ _ => refuses_of_ofPackageJson) h
  · exact hinders_of_json (by simp [hname]) (fun _ _ => refuses_of_ofPackageLock) h
  · rcases ofDocument_eq_error h with hread | ⟨d, -, hfault⟩
    · exact .decoding (by simp [hname]) ((Toml.read_meets text).isDue hread)
    · cases hfault

theorem read_eq_none_iff : Manifest.read path text = .ok none ↔ IsVoid path text := by
  have htable : ∀ d, Toml.read text = .ok d → d.table? ≠ none := by
    intro d hd
    cases hroot : Toml.statements ((Toml.unifyLineEnds text).length + 1) .empty (Toml.unifyLineEnds text) with
    | error e =>
      rw [Toml.read, hroot] at hd
      cases hd
    | ok document =>
      rw [Toml.read, hroot] at hd
      obtain rfl := Except.ok.inj hd
      exact Option.some_ne_none document.root
  rw [Manifest.read, IsVoid]
  cases formatOf? path with
  | none => simp
  | some format =>
    cases format with
    | packageJson => exact ofDocument_eq_none
    | packageLock => exact ofDocument_eq_none
    | requirements => simp [readAs]
    | pyproject =>
      have hvoid : ofDocument (Toml.read text) (fun d => .ok (ofPyproject d)) = .ok none ↔
          Toml.read text = .error .malformed ∨ ∃ d, Toml.read text = .ok d ∧ d.table? = none :=
        ofDocument_eq_none
      refine hvoid.trans (or_iff_left ?_)
      rintro ⟨d, hd, hnone⟩
      exact htable d hd hnone

/-- A manifest that is nothing but a long number is no table, and yet it is not read. -/
theorem read_packageJson_of_long {c : Char} {rest : List Char} (hdigits : ∀ d ∈ c :: rest, d.isDigit = true)
    (hzero : c ≠ '0') (hlong : Fault.maxDigits < (c :: rest).length) :
    Manifest.read "package.json" (c :: rest) = .error (.longNumber (c :: rest).length) := by
  have hformat : formatOf? "package.json" = some .packageJson := by decide +kernel
  rw [Manifest.read, hformat]
  dsimp only
  rw [readAs, Json.read_of_long hdigits hzero hlong]
  rfl

end Manifest

/-! ## The analysis of a manifest -/

namespace SourceFile

variable {path content : String} {maxChars : Int} {fault : Fault}

theorem parse_of_read_eq_ok {manifest : Option Manifest} (hskip : ¬ IsSkipped maxChars path content)
    (h : Manifest.read path content.toList = .ok manifest) :
    (parse .standard maxChars path content).2 = none ∧
      (parse .standard maxChars path content).1.manifest = manifest := by
  rw [parse_of_not_isSkipped hskip]
  cases hanalyse : analyse .standard path content with
  | ok file =>
    have hfile : Manifest.read path content.toList = .ok file.manifest := (analyse_eq_ok hanalyse).2.2.2.1
    exact ⟨rfl, Except.ok.inj (hfile.symm.trans h)⟩
  | error fault =>
    have hread := read_eq_error_of_analyse_eq_error hanalyse
    cases h.symm.trans hread

theorem parse_of_read_eq_error (hskip : ¬ IsSkipped maxChars path content)
    (h : Manifest.read path content.toList = .error fault) :
    (parse .standard maxChars path content).2 = some fault := by
  obtain ⟨fault', hanalyse⟩ := exists_analyse_eq_error.mpr ⟨fault, .manifest (r := .standard) h⟩
  have hread := read_eq_error_of_analyse_eq_error hanalyse
  rw [parse_of_not_isSkipped hskip, hanalyse]
  exact congrArg some (Except.error.inj (hread.symm.trans h))

end SourceFile

end CodeCensus
