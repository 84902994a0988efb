import CodeCensus.Census.Selection
import CodeCensus.Proofs.Lookup
import CodeCensus.Proofs.Text.LetterCase
import CodeCensus.Settings

/-! Which entries are read. An entry is kept if it is a file outside the excluded directories, bears no extension of
files that are no text, and has an extension, a name or a place that is known. The case of letters makes no
difference to that, and with more excluded names fewer entries are kept. -/

namespace CodeCensus

open Text

/-! ## What is kept -/

namespace Path

/-- The directories on a path: what stands before its separators, slashes or backslashes. -/
def directories (path : String) : List (List Char) := (fields '/' (unify path).toList).dropLast

/-- One of the directories on a path bears one of the names, letter case aside. -/
def LiesWithin (names : List String) (path : String) : Prop :=
  ∃ directory ∈ directories path, ∃ name ∈ names, lower directory = lower name.toList

instance (names : List String) (path : String) : Decidable (LiesWithin names path) :=
  inferInstanceAs (Decidable (∃ directory ∈ directories path, ∃ name ∈ names, lower directory = lower name.toList))

/-- Texts that differ in the case of ASCII letters at most. -/
def SameLetters (path other : String) : Prop := path.toList.map Char.toLower = other.toList.map Char.toLower

end Path

/-- What tells a file apart whose text is read, with certain names for excluded directories. -/
structure Entry.IsKept (names : List String) (e : Entry) : Prop where
  isFile : e.kind = .file
  isOutside : ¬ Path.LiesWithin names e.path
  isText : Path.extension e.path ∉ Language.binaryExtensions
  isKnown : Path.extension e.path ∈ Language.sourceExtensions ∨
    Path.lowerName e.path ∈ Language.nameTags.map Prod.fst ∨
    ∃ mark ∈ Language.backendMarks, mark.toList <:+: lower (Path.unify e.path).toList

theorem Entry.isKept_iff {names : List String} {e : Entry} : e.IsKept names ↔ e.kind = .file ∧
    ¬ Path.LiesWithin names e.path ∧ Path.extension e.path ∉ Language.binaryExtensions ∧
    (Path.extension e.path ∈ Language.sourceExtensions ∨
      Path.lowerName e.path ∈ Language.nameTags.map Prod.fst ∨
      ∃ mark ∈ Language.backendMarks, mark.toList <:+: lower (Path.unify e.path).toList) :=
  ⟨fun ⟨h, h', h'', h'''⟩ => ⟨h, h', h'', h'''⟩, fun ⟨h, h', h'', h'''⟩ => ⟨h, h', h'', h'''⟩⟩

instance (names : List String) (e : Entry) : Decidable (e.IsKept names) := decidable_of_iff' _ Entry.isKept_iff

/-! ## Each test of a selection -/

variable {names more : List String} {path other : String}

theorem directorySegments_eq (path : String) : directorySegments path = (Path.directories path).map lower := by
  rw [directorySegments, fields_lower, Path.directories, List.map_dropLast]

theorem liesWithin_iff : liesWithin (names.map lowercase) path = true ↔ Path.LiesWithin names path := by
  have hname (segment : List Char) : (names.map lowercase).any (fun name => name.toList == segment) = true ↔
      ∃ name ∈ names, segment = lower name.toList := by
    rw [List.any_map, List.any_eq_true]
    refine exists_congr fun name => and_congr_right fun _ => ?_
    rw [Function.comp_apply, beq_iff_eq, lowercase, String.toList_ofList]
    exact eq_comm
  rw [liesWithin, directorySegments_eq, List.any_map, List.any_eq_true]
  exact exists_congr fun directory => and_congr_right fun _ => hname (lower directory)

theorem hasKnownName_iff : Language.hasKnownName path = true ↔ Path.lowerName path ∈ Language.nameTags.map Prod.fst := by
  rw [Language.hasKnownName, List.lookup_isSome_iff, List.mem_map]
  exact exists_congr fun entry => and_congr_right fun _ => beq_iff_eq.trans eq_comm

theorem isServerSide_iff : Language.isServerSide path = true ↔
    ∃ mark ∈ Language.backendMarks, mark.toList <:+: lower (Path.unify path).toList := by
  rw [Language.isServerSide, List.any_eq_true]
  refine exists_congr fun mark => and_congr_right fun _ => ?_
  rw [Path.mentions, occurs_iff_infix, lowercase, String.toList_ofList]

theorem Entry.isSelected_iff {e : Entry} : e.isSelected (names.map lowercase) = true ↔ e.IsKept names := by
  rw [isSelected, isWorthReading, Entry.isKept_iff, Bool.and_eq_true, Bool.and_eq_true, Bool.and_eq_true, beq_iff_eq,
    Bool.not_eq_true', Bool.not_eq_true', Bool.or_eq_true, Bool.or_eq_true, hasKnownName_iff, isServerSide_iff,
    ← Bool.not_eq_true, ← Bool.not_eq_true, liesWithin_iff, Language.isBinary, List.contains_iff_mem,
    List.contains_iff_mem, and_assoc, and_assoc, or_assoc]

/-! ## More excluded names -/

theorem Path.LiesWithin.mono (h : names ⊆ more) (hpath : LiesWithin names path) : LiesWithin more path := by
  obtain ⟨directory, hdirectory, name, hname, heq⟩ := hpath
  exact ⟨directory, hdirectory, name, h hname, heq⟩

theorem Entry.IsKept.anti {e : Entry} (h : names ⊆ more) (he : e.IsKept more) : e.IsKept names where
  isFile := he.isFile
  isOutside hpath := he.isOutside (hpath.mono h)
  isText := he.isText
  isKnown := he.isKnown

theorem selectEntries_eq_filter (names : List String) (entries : List Entry) :
    selectEntries (names.map lowercase) entries = entries.filter fun e => e.IsKept names := by
  refine List.filter_congr fun e _ => ?_
  rw [Bool.eq_iff_iff, Entry.isSelected_iff, decide_eq_true_iff]

theorem selectEntries_sublist_of_subset (h : names ⊆ more) (entries : List Entry) :
    (selectEntries (more.map lowercase) entries).Sublist (selectEntries (names.map lowercase) entries) := by
  rw [selectEntries_eq_filter, selectEntries_eq_filter]
  refine List.monotone_filter_right entries fun e he => ?_
  rw [decide_eq_true_iff] at he ⊢
  exact he.anti h

/-! ## Letter case -/

namespace Path

theorem toList_unify (path : String) : (unify path).toList = path.toList.map fun c => if c == '\\' then '/' else c := by
  rw [unify, String.toList_map]

theorem SameLetters.unify (h : SameLetters path other) : SameLetters (Path.unify path) (Path.unify other) := by
  have hunify (text : List Char) : (text.map fun c => if c == '\\' then '/' else c).map Char.toLower =
      (text.map Char.toLower).map fun c => if c == '\\' then '/' else c := by
    rw [List.map_map, List.map_map]
    refine List.map_congr_left fun c _ => ?_
    have hback := toLower_eq_iff (show '\\'.isAlpha = false by decide) c
    simp only [Function.comp_apply, beq_iff_eq, hback]
    split <;> rfl
  rw [SameLetters, toList_unify, toList_unify, hunify, hunify]
  exact congrArg _ h

theorem SameLetters.fields (h : SameLetters path other) :
    (fields '/' path.toList).map (List.map Char.toLower) = (fields '/' other.toList).map (List.map Char.toLower) := by
  have hslash := toLower_eq_iff (show '/'.isAlpha = false by decide)
  rw [← fields_map hslash, ← fields_map hslash, h]

theorem SameLetters.components (h : SameLetters path other) :
    (components path).map (List.map Char.toLower) = (components other).map (List.map Char.toLower) := by
  have hcounts (part : List Char) : (part != [] && part != ['.']) =
      (part.map Char.toLower != [] && part.map Char.toLower != ['.']) := by
    have hdot := toLower_eq_iff (show '.'.isAlpha = false by decide)
    cases part with
    | nil => rfl
    | cons c rest =>
      cases rest with
      | nil => simp [bne, hdot]
      | cons d rest => simp [bne]
  have hfilter (parts : List (List Char)) : (parts.filter fun part => part != [] && part != ['.']).map (List.map Char.toLower) =
      (parts.map (List.map Char.toLower)).filter fun part => part != [] && part != ['.'] := by
    rw [List.filter_map]
    exact congrArg _ (List.filter_congr fun part _ => hcounts part)
  rw [Path.components, Path.components, hfilter, hfilter, h.fields]

theorem SameLetters.name (h : SameLetters path other) : SameLetters (name path) (name other) := by
  have hlast (parts : List (List Char)) : (parts.getLast?.getD []).map Char.toLower =
      ((parts.map (List.map Char.toLower)).getLast?).getD [] := by
    rw [List.getLast?_map]
    cases parts.getLast? <;> rfl
  rw [SameLetters, Path.name, Path.name, String.toList_ofList, String.toList_ofList, hlast, hlast, h.components]

theorem extensionOfName_map_toLower (name : List Char) :
    extensionOfName (name.map Char.toLower) = (extensionOfName name).map Char.toLower := by
  have hdot : ∀ mark ∈ ['.'], ∀ c : Char, c.toLower = mark ↔ c = mark :=
    List.forall_mem_singleton.mpr (toLower_eq_iff (by decide))
  rw [extensionOfName, extensionOfName, cutLast_map hdot]
  cases cutLast ['.'] name with
  | none => rfl
  | some cut =>
    obtain ⟨stem, ext⟩ := cut
    dsimp only [Option.map_some]
    rw [List.isEmpty_map, List.isEmpty_map]
    split <;> rfl

theorem SameLetters.extension_eq (h : SameLetters path other) : extension path = extension other := by
  have hname : SameLetters (Path.name (Path.unify path)) (Path.name (Path.unify other)) := h.unify.name
  rw [extension, extension]
  refine congrArg String.ofList (lower_congr ?_)
  rw [← extensionOfName_map_toLower, ← extensionOfName_map_toLower, hname]

theorem SameLetters.lowerName_eq (h : SameLetters path other) : lowerName path = lowerName other :=
  congrArg String.ofList (lower_congr h.unify.name)

theorem SameLetters.liesWithin_iff (h : SameLetters path other) (hnames : List.Forall₂ SameLetters names more) :
    LiesWithin names path ↔ LiesWithin more other := by
  have hdirectories : (directories path).map lower = (directories other).map lower := by
    have hparts (parts : List (List Char)) : parts.dropLast.map lower =
        ((parts.map (List.map Char.toLower)).dropLast).map lower := by
      rw [← List.map_dropLast, List.map_map]
      exact List.map_congr_left fun part _ => (lower_map_toLower part).symm
    have hfields := h.unify.fields
    rw [directories, directories, hparts, hfields, ← hparts]
  have hmap : names.map lowercase = more.map lowercase := by
    induction hnames with
    | nil => rfl
    | cons hname _ ih =>
      rw [List.map_cons, List.map_cons, ih]
      exact congrArg (· :: _) (congrArg String.ofList (lower_congr hname))
  have hsegments : directorySegments path = directorySegments other := by
    rw [directorySegments_eq, hdirectories, ← directorySegments_eq]
  rw [← CodeCensus.liesWithin_iff, ← CodeCensus.liesWithin_iff, hmap, liesWithin, liesWithin, hsegments]

end Path

theorem Entry.isKept_iff_of_sameLetters {e : Entry} (h : Path.SameLetters e.path path)
    (hnames : List.Forall₂ Path.SameLetters names more) : e.IsKept names ↔ { e with path := path }.IsKept more := by
  rw [Entry.isKept_iff, Entry.isKept_iff, h.liesWithin_iff hnames, h.extension_eq, h.lowerName_eq,
    lower_congr h.unify]

/-! ## Selections -/

/-- Of a listing those entries are kept, in order, that settings keep. With more excluded names no other entry is
kept, and neither the case of the letters in a path nor that in an excluded name makes a difference. -/
theorem selectEntries_exact (s : Settings) (entries : List Entry) :
    (selectEntries s.excludedNames entries).Sublist entries ∧
    (selectEntries s.excludedNames entries =
      entries.filter fun e => e.IsKept (s.excludeDirs ++ s.extraExcludeDirs)) ∧
    (∀ s' : Settings, s.excludeDirs ++ s.extraExcludeDirs ⊆ s'.excludeDirs ++ s'.extraExcludeDirs →
      (selectEntries s'.excludedNames entries).Sublist (selectEntries s.excludedNames entries)) ∧
    ∀ s' : Settings,
      List.Forall₂ Path.SameLetters (s.excludeDirs ++ s.extraExcludeDirs) (s'.excludeDirs ++ s'.extraExcludeDirs) →
      ∀ (e : Entry) (path : String), Path.SameLetters e.path path →
        { e with path := path }.isSelected s'.excludedNames = e.isSelected s.excludedNames := by
  refine ⟨List.filter_sublist, selectEntries_eq_filter _ entries, fun s' hnames => ?_, fun s' hnames e path hpath => ?_⟩
  · exact selectEntries_sublist_of_subset hnames entries
  · rw [Settings.excludedNames, Settings.excludedNames, Bool.eq_iff_iff, Entry.isSelected_iff, Entry.isSelected_iff]
    exact (Entry.isKept_iff_of_sameLetters hpath hnames).symm

def mixedListing : List Entry :=
  [.file "Web\\Node_Modules\\a.js", .file "dist", .file "src/Main.PY", .dir "src/lib.py", .file "logo.PNG",
    .file "Vendor/dist.tar.js", .file "bin/Server/run", .file "notes"]

def withoutModules : Settings := { batchSize_pos := Nat.le_add_left 1 4, excludeDirs := ["node_modules"] }

def withoutVendor : Settings :=
  { withoutModules with excludeDirs := ["node_modules", "dist"], extraExcludeDirs := ["VENDOR"] }

def withoutModulesCapital : Settings :=
  { withoutModules with excludeDirs := [], extraExcludeDirs := ["Node_MODULES"] }

theorem selectEntries_exact_mixedCase :
    (selectEntries withoutModules.excludedNames mixedListing).map Entry.path =
      ["src/Main.PY", "Vendor/dist.tar.js", "bin/Server/run"] ∧
    (selectEntries withoutVendor.excludedNames mixedListing).map Entry.path = ["src/Main.PY", "bin/Server/run"] ∧
    (withoutModules.excludeDirs ++ withoutModules.extraExcludeDirs ⊆
      withoutVendor.excludeDirs ++ withoutVendor.extraExcludeDirs) ∧
    (selectEntries withoutVendor.excludedNames mixedListing).Sublist
      (selectEntries withoutModules.excludedNames mixedListing) ∧
    List.Forall₂ Path.SameLetters (withoutModules.excludeDirs ++ withoutModules.extraExcludeDirs)
      (withoutModulesCapital.excludeDirs ++ withoutModulesCapital.extraExcludeDirs) ∧
    Path.SameLetters "src/Main.PY" "SRC/main.py" ∧
    (Entry.mk "SRC/main.py" "Main.PY" .file 0 none).isSelected withoutModulesCapital.excludedNames =
      (Entry.file "src/Main.PY").isSelected withoutModules.excludedNames := by
  have hnames : withoutModules.excludeDirs ++ withoutModules.extraExcludeDirs ⊆
      withoutVendor.excludeDirs ++ withoutVendor.extraExcludeDirs := by decide
  have hsame : List.Forall₂ Path.SameLetters (withoutModules.excludeDirs ++ withoutModules.extraExcludeDirs)
      (withoutModulesCapital.excludeDirs ++ withoutModulesCapital.extraExcludeDirs) :=
    .cons (by unfold Path.SameLetters; decide) .nil
  have hpath : Path.SameLetters "src/Main.PY" "SRC/main.py" := by unfold Path.SameLetters; decide
  obtain ⟨-, -, hfewer, hcase⟩ := selectEntries_exact withoutModules mixedListing
  exact ⟨by decide +kernel, by decide +kernel, hnames, hfewer withoutVendor hnames, hsame, hpath,
    hcase withoutModulesCapital hsame (.file "src/Main.PY") "SRC/main.py" hpath⟩

end CodeCensus
