import CodeCensus.Census.Selection
import CodeCensus.Proofs.Census.Balance
import CodeCensus.Proofs.SourceFile.Location
import CodeCensus.Proofs.Text.Separators

/-! What a census tells of paths with backslashes in place of their slashes. All that is told of a file or a
directory stays the same, except for the frameworks that are told by the names of files: a name is what follows
the last slash, and so it is the whole path once there is none. -/

namespace CodeCensus

/-! ## Paths -/

namespace Path

variable {path needle : String}

def backslashed (path : String) : String := String.ofList (Text.backslashed path.toList)

theorem toList_backslashed (path : String) : (backslashed path).toList = Text.backslashed path.toList :=
  String.toList_ofList

theorem unify_backslashed (path : String) : unify (backslashed path) = unify path := by
  have hunify (c : Char) : (if Text.backslash c == '\\' then '/' else Text.backslash c) =
      if c == '\\' then '/' else c := by
    by_cases hc : c = '/'
    · rw [hc]
      rfl
    · rw [Text.backslash, if_neg hc]
  rw [unify, unify, ← String.toList_inj, String.toList_map, String.toList_map, toList_backslashed,
    Text.backslashed, List.map_map]
  exact List.map_congr_left fun c _ => hunify c

theorem lowercase_backslashed (path : String) :
    Text.lowercase (backslashed path) = backslashed (Text.lowercase path) := by
  rw [Text.lowercase, toList_backslashed, Text.lower_backslashed, backslashed, Text.lowercase, String.toList_ofList]

/-- A word that holds no separator. -/
def IsSolid (needle : String) : Prop := '/' ∉ needle.toList ∧ '\\' ∉ needle.toList

instance (needle : String) : Decidable (IsSolid needle) := inferInstanceAs (Decidable (_ ∧ _))

theorem mentions_backslashed (h : IsSolid needle) : mentions (backslashed path) needle = mentions path needle := by
  rw [mentions, mentions, toList_backslashed, Text.occurs_backslashed h.1 h.2]

theorem any_mentions_backslashed {needles : List String} (h : ∀ needle ∈ needles, IsSolid needle) :
    needles.any (mentions (backslashed path)) = needles.any (mentions path) := by
  rw [Bool.eq_iff_iff, List.any_eq_true, List.any_eq_true]
  exact exists_congr fun needle => and_congr_right fun hneedle => by rw [mentions_backslashed (h needle hneedle)]

theorem backslashed_eq_iff (h : IsSolid needle) : backslashed path = needle ↔ path = needle := by
  rw [← String.toList_inj, ← String.toList_inj, toList_backslashed]
  exact ⟨Text.eq_of_backslashed_eq h.2, fun heq => by rw [heq, Text.backslashed_of_not_mem h.1]⟩

theorem backslashed_append (first second : String) :
    backslashed (first ++ second) = backslashed first ++ backslashed second := by
  rw [← String.toList_inj, String.toList_append, toList_backslashed, toList_backslashed, toList_backslashed,
    String.toList_append, Text.backslashed, List.map_append]
  rfl

theorem backslashed_of_isSolid (h : IsSolid needle) : backslashed needle = needle :=
  (backslashed_eq_iff h).mpr rfl

/-- A path without slashes is its own name, unless nothing of it counts. -/
theorem name_backslashed (path : String) :
    name (backslashed path) = if path = "" ∨ path = "." then "" else backslashed path := by
  have hfields : Text.fields '/' (backslashed path).toList = [(backslashed path).toList] := by
    rw [toList_backslashed]
    exact Text.fields_of_not_mem (Text.slash_not_mem_backslashed path.toList)
  have hempty : backslashed path = "" ↔ path = "" := backslashed_eq_iff (by decide)
  have hdot : backslashed path = "." ↔ path = "." := backslashed_eq_iff (by decide)
  rw [← String.toList_inj] at hempty hdot
  rw [name, components, hfields, List.filter_singleton]
  by_cases h : path = "" ∨ path = "."
  · have hdropped : ((backslashed path).toList != [] && (backslashed path).toList != ['.']) = false := by
      rw [Bool.and_eq_false_iff, bne_eq_false_iff_eq, bne_eq_false_iff_eq]
      exact h.imp hempty.mpr hdot.mpr
    rw [hdropped, if_pos h]
    rfl
  · have hkept : ((backslashed path).toList != [] && (backslashed path).toList != ['.']) = true := by
      rw [Bool.and_eq_true, bne_iff_ne, bne_iff_ne]
      exact ⟨fun heq => h (.inl (hempty.mp heq)), fun heq => h (.inr (hdot.mp heq))⟩
    rw [hkept, if_neg h]
    exact String.ofList_toList

theorem extension_backslashed (path : String) : extension (backslashed path) = extension path := by
  rw [extension, unify_backslashed, ← extension]

theorem lowerName_backslashed (path : String) : lowerName (backslashed path) = lowerName path := by
  rw [lowerName, unify_backslashed, ← lowerName]

/-- No two of some paths become one. -/
def StayApart (paths : List String) : Prop :=
  ∀ path ∈ paths, ∀ other ∈ paths, backslashed path = backslashed other → path = other

theorem StayApart.of_subset {paths others : List String} (h : StayApart paths) (hsubset : others ⊆ paths) :
    StayApart others :=
  fun path hpath other hother => h path (hsubset hpath) other (hsubset hother)

theorem StayApart.mem_map_iff {paths others : List String} (h : StayApart paths) (hothers : others ⊆ paths)
    (hpath : path ∈ paths) : backslashed path ∈ others.map backslashed ↔ path ∈ others := by
  constructor
  · intro hmem
    obtain ⟨other, hother, heq⟩ := List.mem_map.mp hmem
    rwa [← h other (hothers hother) path hpath heq]
  · exact List.mem_map_of_mem

end Path

/-! ## Languages and selection -/

namespace Language

variable (path : String)

theorem isBinary_backslashed : isBinary (Path.backslashed path) = isBinary path := by
  rw [isBinary, Path.extension_backslashed, ← isBinary]

theorem hasKnownName_backslashed : hasKnownName (Path.backslashed path) = hasKnownName path := by
  rw [hasKnownName, Path.lowerName_backslashed, ← hasKnownName]

theorem isServerSide_backslashed : isServerSide (Path.backslashed path) = isServerSide path := by
  rw [isServerSide, Path.unify_backslashed, ← isServerSide]

theorem displayName?_backslashed : displayName? (Path.backslashed path) = displayName? path := by
  rw [displayName?, Path.extension_backslashed, ← displayName?]

theorem ofPath_backslashed : ofPath (Path.backslashed path) = ofPath path := by
  have hname : Path.name (Path.unify (Path.backslashed path)) = Path.name (Path.unify path) := by
    rw [Path.unify_backslashed]
  rw [ofPath, ofPath, plainTag_congr hname, isServerSide_backslashed]

end Language

namespace Entry

def backslashed (e : Entry) : Entry := { e with path := Path.backslashed e.path }

theorem isSelected_backslashed (excluded : List String) (e : Entry) :
    e.backslashed.isSelected excluded = e.isSelected excluded := by
  rw [isSelected, isSelected, liesWithin, liesWithin, directorySegments, directorySegments, isWorthReading,
    isWorthReading, backslashed]
  dsimp only
  rw [Path.unify_backslashed, Path.extension_backslashed, Language.isBinary_backslashed,
    Language.hasKnownName_backslashed, Language.isServerSide_backslashed]

end Entry

/-! ## Files -/

namespace SourceFile

def backslashed (file : SourceFile) : SourceFile := { file with path := Path.backslashed file.path }

theorem parse_backslashed (r : Registry) (maxChars : Int) (path content : String) :
    parse r maxChars (Path.backslashed path) content =
      ((parse r maxChars path content).1.backslashed, (parse r maxChars path content).2) := by
  have hname : Path.name (Path.unify (Path.backslashed path)) = Path.name (Path.unify path) := by
    rw [Path.unify_backslashed]
  rw [parse_congr maxChars (r.supportFor_congr hname) (fun _ => rfl)
    (Manifest.read_congr content.toList hname) (Language.isBinary_congr hname)]
  rw [movedTo, backslashed, Language.ofPath_backslashed, path_parse, ← language_parse r maxChars path content]

end SourceFile

namespace Issue

def backslashed (issue : Issue) : Issue :=
  { issue with message := Path.backslashed issue.message, file := Path.backslashed issue.file }

theorem isSolid_toString (n : Nat) : Path.IsSolid (toString n) := by
  have hdigits (c : Char) (hc : c ∈ (toString n).toList) : c.isDigit = true := by
    rw [Nat.toString_eq_repr, Nat.toList_repr] at hc
    exact Nat.isDigit_of_mem_toDigits (by decide) (by decide) hc
  exact ⟨fun hslash => absurd (hdigits _ hslash) (by decide), fun hback => absurd (hdigits _ hback) (by decide)⟩

theorem map_raisedIf (condition : Bool) (issue : Issue) :
    (raisedIf condition issue).map backslashed = raisedIf condition issue.backslashed := by
  cases condition with
  | true => rfl
  | false => rfl

/-- An issue names its file at the end of what it says, after words and a figure. -/
theorem backslashed_message {before after : String} (hbefore : Path.IsSolid before) (hafter : Path.IsSolid after)
    (n : Nat) (path : String) :
    Path.backslashed (before ++ toString n ++ after ++ path) =
      before ++ toString n ++ after ++ Path.backslashed path := by
  rw [Path.backslashed_append, Path.backslashed_append, Path.backslashed_append,
    Path.backslashed_of_isSolid hbefore, Path.backslashed_of_isSolid hafter,
    Path.backslashed_of_isSolid (isSolid_toString n)]

theorem ofFile_backslashed (file : SourceFile) : ofFile file.backslashed = (ofFile file).map backslashed := by
  have hcomplexity : Path.IsSolid "High complexity (" ∧ Path.IsSolid ") in " := by decide
  have hlines : Path.IsSolid "Large file (" ∧ Path.IsSolid " lines): " := by decide
  have hfunctions : Path.IsSolid "Many functions (" ∧ Path.IsSolid ") in " := by decide
  rw [ofFile, ofFile, List.map_append, List.map_append, map_raisedIf, map_raisedIf, map_raisedIf, backslashed,
    backslashed, backslashed]
  dsimp only
  rw [backslashed_message hcomplexity.1 hcomplexity.2, backslashed_message hlines.1 hlines.2,
    backslashed_message hfunctions.1 hfunctions.2]
  rfl

theorem ofFiles_backslashed (files : List SourceFile) :
    ofFiles (files.map SourceFile.backslashed) = (ofFiles files).map backslashed := by
  rw [ofFiles, ofFiles, List.flatMap_map, List.map_flatMap]
  exact List.flatMap_congr fun file _ => ofFile_backslashed file

end Issue

namespace Tally

theorem languagesOf_backslashed (files : List SourceFile) :
    languagesOf (files.map SourceFile.backslashed) = languagesOf files := by
  rw [languagesOf, languagesOf, List.foldl_map]
  have hstep (h : Histogram) (file : SourceFile) :
      h.addTo (Language.displayName? file.backslashed.path) file.backslashed.lines =
        h.addTo (Language.displayName? file.path) file.lines := by
    rw [SourceFile.backslashed]
    dsimp only
    rw [Language.displayName?_backslashed]
  simp only [hstep]

end Tally

theorem isTestPath_backslashed (path : String) : isTestPath (Path.backslashed path) = isTestPath path := by
  have hsolid : ∀ word ∈ testMarks, Path.IsSolid word := by decide +kernel
  rw [isTestPath, isTestPath, Path.any_mentions_backslashed hsolid]

/-! ## Directories -/

namespace Directory

def backslashed (d : Directory) : Directory := { d with path := Path.backslashed d.path }

theorem firstMarked?_backslashed {α : Type} {marks : List (α × List String)} (path : String)
    (h : ∀ entry ∈ marks, ∀ needle ∈ entry.2, Path.IsSolid needle) :
    firstMarked? marks (Path.backslashed path) = firstMarked? marks path := by
  induction marks with
  | nil => rw [firstMarked?, firstMarked?, List.find?_nil, List.find?_nil]
  | cons entry marks ih =>
    obtain ⟨label, needles⟩ := entry
    have hhead : needles.any (Path.mentions (Path.backslashed path)) = needles.any (Path.mentions path) :=
      Path.any_mentions_backslashed (h _ List.mem_cons_self)
    have hrest := ih fun other hother => h other (List.mem_cons_of_mem _ hother)
    rw [firstMarked?, firstMarked?] at hrest ⊢
    rw [List.find?_cons, List.find?_cons]
    dsimp only
    rw [hhead]
    split
    · rfl
    · exact hrest

theorem kindOf_backslashed (path : String) : kindOf (Path.backslashed path) = kindOf path := by
  have hsolid : ∀ entry ∈ kindMarks, ∀ needle ∈ entry.2, Path.IsSolid needle := by decide +kernel
  rw [kindOf, kindOf, Path.lowercase_backslashed, firstMarked?_backslashed _ hsolid]

theorem purposeOf_backslashed (path : String) : purposeOf (Path.backslashed path) = purposeOf path := by
  have hsolid : ∀ entry ∈ purposeMarks, ∀ needle ∈ entry.2, Path.IsSolid needle := by decide +kernel
  rw [purposeOf, purposeOf, Path.lowercase_backslashed, firstMarked?_backslashed _ hsolid]

theorem ofEntry_backslashed (e : Entry) : ofEntry e.backslashed = (ofEntry e).backslashed := by
  rw [ofEntry, ofEntry, backslashed, Entry.backslashed]
  dsimp only
  rw [kindOf_backslashed, purposeOf_backslashed]

theorem ofEntries_backslashed {entries : List Entry} (h : Path.StayApart (entries.map Entry.path)) :
    ofEntries (entries.map Entry.backslashed) = (ofEntries entries).map backslashed := by
  induction entries using List.reverseRecOn with
  | nil => rfl
  | append_singleton entries e ih =>
    have hfront : entries.map Entry.path ⊆ (entries ++ [e]).map Entry.path := by
      rw [List.map_append]
      exact List.subset_append_left ..
    have hlast : e.path ∈ (entries ++ [e]).map Entry.path :=
      List.mem_map_of_mem (List.mem_append_right _ List.mem_cons_self)
    have hseen : (ofEntries entries).map Directory.path ⊆ (entries ++ [e]).map Entry.path := by
      rw [map_path_ofEntries]
      intro path hpath
      obtain ⟨other, hother, rfl⟩ := List.mem_map.mp (List.mem_eraseDups.mp hpath)
      exact hfront (List.mem_map_of_mem (List.mem_filter.mp hother).1)
    have hpaths : ((ofEntries entries).map backslashed).map Directory.path =
        ((ofEntries entries).map Directory.path).map Path.backslashed := by
      rw [List.map_map, List.map_map]
      rfl
    have hcondition : (e.backslashed.kind ≠ .dir ∨
          e.backslashed.path ∈ ((ofEntries entries).map backslashed).map Directory.path) ↔
        e.kind ≠ .dir ∨ e.path ∈ (ofEntries entries).map Directory.path := by
      rw [hpaths]
      exact or_congr_right (h.mem_map_iff hseen hlast)
    rw [List.map_append, List.map_singleton, ofEntries_concat, ofEntries_concat, ih (h.of_subset hfront),
      ofEntry_backslashed]
    simp only [hcondition]
    split
    · rfl
    · rw [List.map_append, List.map_singleton]

end Directory

/-! ## Architecture -/

namespace Architecture

def Rule.words : Rule → List String
  | .all words => words
  | .any words => words
  | .moreThan _ word => [word]

theorem mentioned_backslashed {paths : List String} {word : String} (h : Path.IsSolid word) :
    mentioned (paths.map Path.backslashed) word = mentioned paths word := by
  simp only [mentioned, List.any_map, Function.comp_def, Path.mentions_backslashed h]

theorem Rule.holds_backslashed {rule : Rule} (paths : List String) (h : ∀ word ∈ rule.words, Path.IsSolid word) :
    rule.holds (paths.map Path.backslashed) = rule.holds paths := by
  cases rule with
  | all words =>
    rw [Bool.eq_iff_iff, holds, holds, List.all_eq_true, List.all_eq_true]
    exact forall₂_congr fun word hword => by rw [mentioned_backslashed (h word hword)]
  | any words =>
    rw [Bool.eq_iff_iff, holds, holds, List.any_eq_true, List.any_eq_true]
    exact exists_congr fun word => and_congr_right fun hword => by rw [mentioned_backslashed (h word hword)]
  | moreThan count word =>
    have hword : Path.IsSolid word := h word (List.mem_singleton_self word)
    simp only [holds, List.filter_map, List.length_map, Function.comp_def, Path.mentions_backslashed hword]

theorem detect_backslashed (paths : List String) : detect (paths.map Path.backslashed) = detect paths := by
  have hsolid : ∀ entry ∈ rules, ∀ word ∈ entry.1.words, Path.IsSolid word := by decide +kernel
  have hlowered : (paths.map Path.backslashed).map Text.lowercase =
      (paths.map Text.lowercase).map Path.backslashed := by
    rw [List.map_map, List.map_map]
    exact List.map_congr_left fun path _ => Path.lowercase_backslashed path
  have hmet : (rules.filter fun entry => entry.1.holds ((paths.map Path.backslashed).map Text.lowercase)) =
      rules.filter fun entry => entry.1.holds (paths.map Text.lowercase) := by
    refine List.filter_congr fun entry hentry => ?_
    rw [hlowered]
    exact Rule.holds_backslashed _ (hsolid entry hentry)
  rw [detect, detect, hmet]

end Architecture

/-! ## Dependencies and complexity -/

namespace Census

theorem setDependencies_backslashed {path : String} {found : List (String × List String)} {paths : List String}
    (h : Path.StayApart paths) (hpath : path ∈ paths) (hfound : found.map Prod.fst ⊆ paths)
    (names : List String) :
    setDependencies (Path.backslashed path) names (found.map (Prod.map Path.backslashed id)) =
      (setDependencies path names found).map (Prod.map Path.backslashed id) := by
  induction found with
  | nil => rfl
  | cons entry found ih =>
    obtain ⟨other, old⟩ := entry
    have hother : other ∈ paths := hfound List.mem_cons_self
    have hsame : Path.backslashed other = Path.backslashed path ↔ other = path :=
      ⟨h other hother path hpath, congrArg Path.backslashed⟩
    rw [List.map_cons, Prod.map_apply, setDependencies, setDependencies]
    simp only [hsame]
    split
    · rfl
    · rw [List.map_cons, ih fun key hkey => hfound (List.mem_cons_of_mem other hkey)]
      rfl

theorem dependenciesOf_backslashed {files : List SourceFile} (h : Path.StayApart (files.map SourceFile.path)) :
    dependenciesOf (files.map SourceFile.backslashed) =
      (dependenciesOf files).map (Prod.map Path.backslashed id) := by
  induction files using List.reverseRecOn with
  | nil => rfl
  | append_singleton files file ih =>
    have hfront : files.map SourceFile.path ⊆ (files ++ [file]).map SourceFile.path := by
      rw [List.map_append]
      exact List.subset_append_left ..
    have hlast : file.path ∈ (files ++ [file]).map SourceFile.path :=
      List.mem_map_of_mem (List.mem_append_right _ List.mem_cons_self)
    have hkeys : (dependenciesOf files).map Prod.fst ⊆ (files ++ [file]).map SourceFile.path := by
      rw [keys_dependenciesOf]
      intro path hpath
      obtain ⟨other, hother, rfl⟩ := List.mem_map.mp (List.mem_eraseDups.mp hpath)
      exact hfront (List.mem_map_of_mem (List.mem_filter.mp hother).1)
    rw [List.map_append, List.map_singleton, dependenciesOf_concat, dependenciesOf_concat,
      ih (h.of_subset hfront), SourceFile.backslashed]
    cases file.manifest with
    | none => rfl
    | some m => exact setDependencies_backslashed h hlast hkeys _

end Census

def ComplexitySummary.backslashed (summary : ComplexitySummary) : ComplexitySummary :=
  { summary with files := summary.files.map fun file => { file with path := Path.backslashed file.path } }

theorem Census.complexityOf_backslashed (files : List SourceFile) :
    complexityOf (files.map SourceFile.backslashed) = (complexityOf files).backslashed := by
  have hscores : scores (files.map SourceFile.backslashed) = scores files := by
    rw [scores, scores, List.map_map]
    rfl
  rw [complexityOf, complexityOf, hscores, ComplexitySummary.backslashed, List.map_map, List.map_map]
  rfl

/-! ## Frameworks -/

namespace Framework

/-- A file name tells a framework. -/
def Tells (name framework : String) : Prop :=
  ∃ mark, (mark, framework) ∈ nameMarks ∧ mark.fits (Text.lowercase name) = true

theorem mem_inNames {entries : List Entry} {framework : String} :
    framework ∈ inNames entries ↔ ∃ e ∈ entries, e.kind = .file ∧ Tells (Path.name e.path) framework := by
  simp only [inNames, Tells, List.mem_map, List.mem_filter, List.any_map, List.any_filter, List.any_eq_true,
    Bool.and_eq_true, beq_iff_eq, Function.comp_apply, Prod.exists, exists_eq_right]
  constructor
  · rintro ⟨mark, hmark, e, he, hkind, hfits⟩
    exact ⟨e, he, hkind, mark, hmark, hfits⟩
  · rintro ⟨e, he, hkind, mark, hmark, hfits⟩
    exact ⟨mark, hmark, e, he, hkind, hfits⟩

def NameMark.word : NameMark → String
  | .exactly name => name
  | .beginning start => start

theorem NameMark.fits_backslashed {mark : NameMark} (h : Path.IsSolid mark.word) (name : String) :
    mark.fits (Path.backslashed name) = mark.fits name := by
  cases mark with
  | exactly other =>
    rw [Bool.eq_iff_iff, fits, fits, beq_iff_eq, beq_iff_eq]
    exact Path.backslashed_eq_iff h
  | beginning start =>
    rw [fits, fits, Path.toList_backslashed]
    exact Text.isPrefixOf_backslashed h.1 h.2 name.toList

/-- Where backslashes stand for the slashes, it is the whole path that has to tell. -/
theorem tells_name_backslashed (path framework : String) :
    Tells (Path.name (Path.backslashed path)) framework ↔ Tells path framework := by
  have hsolid : ∀ entry ∈ nameMarks, Path.IsSolid entry.1.word := by decide +kernel
  have hnothing : ∀ entry ∈ nameMarks, entry.1.fits (Text.lowercase "") = entry.1.fits (Text.lowercase ".") := by
    decide +kernel
  refine exists_congr fun mark => and_congr_right fun hmark => ?_
  rw [Path.name_backslashed]
  by_cases h : path = "" ∨ path = "."
  · rw [if_pos h]
    rcases h with rfl | rfl
    · rfl
    · rw [hnothing _ hmark]
  · rw [if_neg h, Path.lowercase_backslashed, NameMark.fits_backslashed (hsolid _ hmark)]

theorem mem_inNames_backslashed {entries : List Entry} {framework : String} :
    framework ∈ inNames (entries.map Entry.backslashed) ↔
      ∃ e ∈ entries, e.kind = .file ∧ Tells e.path framework := by
  rw [mem_inNames]
  constructor
  · rintro ⟨_, hmem, hkind, htells⟩
    obtain ⟨e, he, rfl⟩ := List.mem_map.mp hmem
    exact ⟨e, he, hkind, (tells_name_backslashed e.path framework).mp htells⟩
  · rintro ⟨e, he, hkind, htells⟩
    exact ⟨e.backslashed, List.mem_map_of_mem he, hkind, (tells_name_backslashed e.path framework).mpr htells⟩

/-- Where a framework stands among those that names tell. -/
def rank (framework : String) : Nat := (nameMarks.map Prod.snd).idxOf framework

theorem inNames_sublist (entries : List Entry) : (inNames entries).Sublist (nameMarks.map Prod.snd) :=
  List.filter_sublist.map Prod.snd

/-- Names tell frameworks in one order, so that only which ones they tell counts. -/
theorem eraseDups_inNames_eq_iff {told : List String} {entries entries' : List Entry} :
    (told ++ inNames entries').eraseDups = (told ++ inNames entries).eraseDups ↔
      ∀ framework ∉ told, framework ∈ inNames entries' ↔ framework ∈ inNames entries := by
  have hmem (entries : List Entry) (framework : String) :
      framework ∈ ((inNames entries).removeAll told).eraseDups ↔ framework ∈ inNames entries ∧ framework ∉ told := by
    rw [List.mem_eraseDups, List.removeAll, List.mem_filter]
    simp
  have hordered (entries : List Entry) :
      ((inNames entries).removeAll told).eraseDups.Pairwise fun a b => rank a < rank b := by
    have hsublist : ((inNames entries).removeAll told).eraseDups.Sublist (nameMarks.map Prod.snd) :=
      (eraseDups_sublist _).trans (List.filter_sublist.trans (inNames_sublist entries))
    have htable : (nameMarks.map Prod.snd).Pairwise fun a b => rank a < rank b ∨ a = b := by decide +kernel
    exact ((htable.sublist hsublist).and (nodup_eraseDups _)).imp fun h => h.1.resolve_right h.2
  rw [List.eraseDups_append, List.eraseDups_append, List.append_cancel_left_eq]
  constructor
  · intro heq framework hnot
    have hleft := hmem entries' framework
    rw [heq, hmem entries framework] at hleft
    exact ⟨fun h => (hleft.mpr ⟨h, hnot⟩).1, fun h => (hleft.mp ⟨h, hnot⟩).1⟩
  · intro hsame
    refine List.Perm.eq_of_pairwise (fun a b _ _ hab hba => absurd hab hba.asymm) (hordered entries')
      (hordered entries) ((List.perm_ext_iff_of_nodup (nodup_eraseDups _) (nodup_eraseDups _)).mpr ?_)
    intro framework
    rw [hmem, hmem]
    exact and_congr_left (hsame framework)

/-- Only file names tell frameworks otherwise than before: each of those that nothing else tells has to be told
by a whole path exactly if it was told by a name. -/
theorem detect_backslashed_eq_iff (files : List SourceFile) (entries : List Entry) :
    detect (files.map SourceFile.backslashed) (entries.map Entry.backslashed) = detect files entries ↔
      ∀ framework ∉ inContents (files.map fun f => f.content.toList) ++ inDependencies files,
        (∃ e ∈ entries, e.kind = .file ∧ Tells e.path framework) ↔
          ∃ e ∈ entries, e.kind = .file ∧ Tells (Path.name e.path) framework := by
  have hcontents : (files.map SourceFile.backslashed).map (fun f => f.content.toList) =
      files.map fun f => f.content.toList := by
    rw [List.map_map]
    rfl
  have hdependencies : inDependencies (files.map SourceFile.backslashed) = inDependencies files := by
    rw [inDependencies, inDependencies, List.filterMap_map]
    rfl
  rw [detect, detect, hcontents, hdependencies, eraseDups_inNames_eq_iff]
  exact forall₂_congr fun framework _ => by rw [mem_inNames_backslashed, mem_inNames]

end Framework

end CodeCensus
