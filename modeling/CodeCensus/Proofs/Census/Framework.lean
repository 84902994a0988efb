import CodeCensus.Census.Framework
import CodeCensus.Proofs.Census.Balance
import CodeCensus.Proofs.Pattern.Search
import CodeCensus.Proofs.Text.LetterCase

/-! Which frameworks a repository uses, told by contents, dependencies and file names. Each of the three tables adds, in
its own order, what those before it have not listed. What it adds depends on which files and entries there are, not on
their order or number, and more of them take no framework away. -/

namespace CodeCensus.Framework

open Text Pattern

variable {files files' : List SourceFile} {entries entries' : List Entry}

/-! ## What tells a framework -/

/-- A signature covers a part of the content of a file. -/
def IsShown (files : List SourceFile) (signature : Pattern) : Prop :=
  ∃ file ∈ files, ∃ i j, signature.Spans file.content.toList i j

/-- A manifest names a dependency, of one kind or the other, letter case aside. -/
def IsDeclared (files : List SourceFile) (dependency : String) : Prop :=
  ∃ file ∈ files, ∃ m, file.manifest = some m ∧
    ∃ name ∈ m.dependencies ++ m.devDependencies, lower name.toList = lower dependency.toList

/-- A file bears a name of the kind that a mark tells, letter case aside. -/
def IsTold (entries : List Entry) (mark : NameMark) : Prop :=
  ∃ e ∈ entries, e.kind = .file ∧ mark.fits (lowercase (Path.name e.path)) = true

theorem IsShown.mono {signature : Pattern} (h : IsShown files signature) (hfiles : files ⊆ files') : IsShown files' signature := by
  obtain ⟨file, hfile, hspans⟩ := h
  exact ⟨file, hfiles hfile, hspans⟩

theorem IsDeclared.mono {dependency : String} (h : IsDeclared files dependency) (hfiles : files ⊆ files') :
    IsDeclared files' dependency := by
  obtain ⟨file, hfile, hnamed⟩ := h
  exact ⟨file, hfiles hfile, hnamed⟩

theorem IsTold.mono {mark : NameMark} (h : IsTold entries mark) (hentries : entries ⊆ entries') : IsTold entries' mark := by
  obtain ⟨e, he, hfits⟩ := h
  exact ⟨e, hentries he, hfits⟩

/-! ## Frameworks of a table -/

/-- The frameworks of a table, in its order, that one of its marks tells and that are not listed yet. -/
structure ListsFrom {α : Type} (table : List (α × String)) (tells : α → Prop) (listed names : List String) : Prop where
  inOrder : names.Sublist (table.map Prod.snd)
  mem_iff : ∀ name, name ∈ names ↔ name ∉ listed ∧ ∃ mark, (mark, name) ∈ table ∧ tells mark

section

variable {α : Type} {table : List (α × String)} {tells tells' : α → Prop} {test test' : α → Bool}

def told (table : List (α × String)) (test : α → Bool) : List String :=
  (table.filter fun entry => test entry.1).map Prod.snd

theorem mem_told_iff (htest : ∀ entry ∈ table, test entry.1 = true ↔ tells entry.1) {name : String} :
    name ∈ told table test ↔ ∃ mark, (mark, name) ∈ table ∧ tells mark := by
  rw [told, List.mem_map]
  constructor
  · rintro ⟨⟨mark, name⟩, hentry, rfl⟩
    obtain ⟨hmem, hmark⟩ := List.mem_filter.mp hentry
    exact ⟨mark, hmem, (htest _ hmem).mp hmark⟩
  · rintro ⟨mark, hmem, hmark⟩
    exact ⟨(mark, name), List.mem_filter.mpr ⟨hmem, (htest _ hmem).mpr hmark⟩, rfl⟩

theorem told_subset (htest : ∀ entry ∈ table, test entry.1 = true ↔ tells entry.1)
    (htest' : ∀ entry ∈ table, test' entry.1 = true ↔ tells' entry.1) (h : ∀ mark, tells mark → tells' mark) :
    told table test ⊆ told table test' := by
  intro name hname
  obtain ⟨mark, hmem, hmark⟩ := (mem_told_iff htest).mp hname
  exact (mem_told_iff htest').mpr ⟨mark, hmem, h mark hmark⟩

theorem told_congr (htest : ∀ entry ∈ table, test entry.1 = true ↔ tells entry.1)
    (htest' : ∀ entry ∈ table, test' entry.1 = true ↔ tells' entry.1) (h : ∀ mark, tells' mark ↔ tells mark) :
    told table test' = told table test := by
  refine congrArg (List.map Prod.snd) (List.filter_congr fun entry hentry => ?_)
  rw [Bool.eq_iff_iff, htest entry hentry, htest' entry hentry, h]

/-- What a table adds to a list of frameworks, where each is listed once. -/
theorem listsFrom (htest : ∀ entry ∈ table, test entry.1 = true ↔ tells entry.1) {listed before : List String}
    (hbefore : ∀ name, name ∈ before ↔ name ∈ listed) :
    ListsFrom table tells listed ((told table test).removeAll before).eraseDups where
  inOrder := (eraseDups_sublist _).trans (List.filter_sublist.trans (List.filter_sublist.map Prod.snd))
  mem_iff name := by
    rw [List.mem_eraseDups, List.removeAll, List.mem_filter, mem_told_iff htest, and_comm]
    refine and_congr_left fun _ => ?_
    rw [Bool.not_eq_true', List.elem_eq_contains, ← Bool.not_eq_true, List.contains_iff_mem, hbefore]

end

/-! ## All frameworks -/

/-- The signatures as marks of their frameworks. -/
def contentMarks : List (Pattern × String) := signatures.map Prod.swap

def showsIn (files : List SourceFile) (signature : Pattern) : Bool :=
  (files.map fun f => f.content.toList).any signature.foundIn

def declaresIn (files : List SourceFile) (dependency : String) : Bool :=
  ((files.filterMap SourceFile.manifest).flatMap declared).contains dependency

def tellsIn (entries : List Entry) (mark : NameMark) : Bool :=
  ((entries.filter fun e => e.kind == .file).map fun e => lowercase (Path.name e.path)).any mark.fits

theorem detect_eq (files : List SourceFile) (entries : List Entry) :
    detect files entries = (told contentMarks (showsIn files) ++ told dependencyMarks (declaresIn files) ++
      told nameMarks (tellsIn entries)).eraseDups := by
  have hcontents : inContents (files.map fun f => f.content.toList) = told contentMarks (showsIn files) := by
    rw [told, contentMarks, List.filter_map, List.map_map]
    rfl
  rw [detect, hcontents]
  rfl

theorem showsIn_iff : ∀ entry ∈ contentMarks, showsIn files entry.1 = true ↔ IsShown files entry.1 := by
  have hempty : ∀ entry ∈ contentMarks, entry.1.opening.mayBeEmpty = false := by decide
  intro entry hentry
  rw [showsIn, List.any_map, List.any_eq_true]
  exact exists_congr fun file => and_congr_right fun _ => foundIn_iff (hempty entry hentry)

theorem declaresIn_iff : ∀ entry ∈ dependencyMarks, declaresIn files entry.1 = true ↔ IsDeclared files entry.1 := by
  have hsmall : ∀ entry ∈ dependencyMarks, lower entry.1.toList = entry.1.toList := by decide +kernel
  intro entry hentry
  have hname (name : String) : lowercase name = entry.1 ↔ lower name.toList = lower entry.1.toList := by
    rw [hsmall entry hentry, ← String.toList_inj, lowercase, String.toList_ofList]
  simp only [declaresIn, List.contains_iff_mem, List.mem_flatMap, List.mem_filterMap, declared, List.mem_map, hname,
    IsDeclared]
  constructor
  · rintro ⟨m, ⟨file, hfile, hm⟩, hnamed⟩
    exact ⟨file, hfile, m, hm, hnamed⟩
  · rintro ⟨file, hfile, m, hm, hnamed⟩
    exact ⟨m, ⟨file, hfile, hm⟩, hnamed⟩

theorem tellsIn_iff : ∀ entry ∈ nameMarks, tellsIn entries entry.1 = true ↔ IsTold entries entry.1 := by
  intro entry _
  rw [tellsIn, List.any_map, List.any_filter, List.any_eq_true]
  exact exists_congr fun e => and_congr_right fun _ => by rw [Bool.and_eq_true, beq_iff_eq, Function.comp_apply]

theorem detect_congr (hfiles : ∀ file, file ∈ files' ↔ file ∈ files) (hentries : ∀ e, e ∈ entries' ↔ e ∈ entries) :
    detect files' entries' = detect files entries := by
  have hsub : files ⊆ files' := fun file => (hfiles file).mpr
  have hsup : files' ⊆ files := fun file => (hfiles file).mp
  rw [detect_eq, detect_eq,
    told_congr showsIn_iff showsIn_iff fun _ => ⟨fun h => h.mono hsup, fun h => h.mono hsub⟩,
    told_congr declaresIn_iff declaresIn_iff fun _ => ⟨fun h => h.mono hsup, fun h => h.mono hsub⟩,
    told_congr tellsIn_iff tellsIn_iff fun _ =>
      ⟨fun h => h.mono fun e => (hentries e).mp, fun h => h.mono fun e => (hentries e).mpr⟩]

theorem detect_subset (hfiles : files ⊆ files') (hentries : entries ⊆ entries') :
    detect files entries ⊆ detect files' entries' := by
  have hcontents : told contentMarks (showsIn files) ⊆ told contentMarks (showsIn files') :=
    told_subset showsIn_iff showsIn_iff fun _ h => h.mono hfiles
  have hdependencies : told dependencyMarks (declaresIn files) ⊆ told dependencyMarks (declaresIn files') :=
    told_subset declaresIn_iff declaresIn_iff fun _ h => h.mono hfiles
  have hnames : told nameMarks (tellsIn entries) ⊆ told nameMarks (tellsIn entries') :=
    told_subset tellsIn_iff tellsIn_iff fun _ h => h.mono hentries
  intro name hname
  rw [detect_eq, List.mem_eraseDups, List.mem_append, List.mem_append] at hname ⊢
  exact hname.imp (Or.imp (fun h => hcontents h) fun h => hdependencies h) fun h => hnames h

/-- Each framework is listed once: first those that contents show, then those that only a manifest or the name of a file
tells, each in the order of its table. The order of the files and entries and how often they come make no difference,
and with more of them no framework is lost. -/
theorem detect_lists (files : List SourceFile) (entries : List Entry) :
    (detect files entries).Nodup ∧
    (∃ shown declared told, detect files entries = shown ++ declared ++ told ∧
      ListsFrom (signatures.map Prod.swap) (IsShown files) [] shown ∧
      ListsFrom dependencyMarks (IsDeclared files) shown declared ∧
      ListsFrom nameMarks (IsTold entries) (shown ++ declared) told) ∧
    (∀ files' entries', (∀ file, file ∈ files' ↔ file ∈ files) → (∀ e, e ∈ entries' ↔ e ∈ entries) →
      detect files' entries' = detect files entries) ∧
    ∀ files' entries', files ⊆ files' → entries ⊆ entries' → detect files entries ⊆ detect files' entries' := by
  refine ⟨nodup_eraseDups _, ?_, fun _ _ => detect_congr, fun _ _ => detect_subset⟩
  let shown := told contentMarks (showsIn files)
  let declared := told dependencyMarks (declaresIn files)
  have hshown (name : String) : name ∈ shown ↔ name ∈ shown.eraseDups := List.mem_eraseDups.symm
  have hboth (name : String) : name ∈ shown ++ declared ↔ name ∈ shown.eraseDups ++ (declared.removeAll shown).eraseDups := by
    rw [← List.eraseDups_append]
    exact List.mem_eraseDups.symm
  refine ⟨shown.eraseDups, (declared.removeAll shown).eraseDups,
    ((told nameMarks (tellsIn entries)).removeAll (shown ++ declared)).eraseDups, ?_, ?_, ?_, ?_⟩
  · rw [detect_eq, List.eraseDups_append, List.eraseDups_append]
  · have hlists : ListsFrom contentMarks (IsShown files) [] (shown.removeAll []).eraseDups :=
      listsFrom showsIn_iff fun _ => Iff.rfl
    rwa [List.removeAll_nil] at hlists
  · exact listsFrom declaresIn_iff hshown
  · exact listsFrom tellsIn_iff hboth

def flaskFile : SourceFile := { SourceFile.unread "app.py" "python" 0 with content := "from  flask import Flask" }

def webManifest : SourceFile :=
  { SourceFile.unread "web/package.json" "json" 0 with
    manifest := some ⟨"package-json", none, none, ["React"], ["flask", "Vite"]⟩ }

def webEntries : List Entry := [.file "web/vite.config.ts", .file "Manage.PY", .dir "go.mod"]

theorem detect_lists_web :
    detect [flaskFile, webManifest] webEntries = ["Flask", "React", "Vite", "Django"] ∧
    (∀ file, file ∈ [webManifest, flaskFile, webManifest] ↔ file ∈ [flaskFile, webManifest]) ∧
    (∀ e, e ∈ webEntries.reverse ↔ e ∈ webEntries) ∧
    detect [webManifest, flaskFile, webManifest] webEntries.reverse = detect [flaskFile, webManifest] webEntries ∧
    [webManifest] ⊆ [flaskFile, webManifest] ∧ [] ⊆ webEntries ∧
    detect [webManifest] [] = ["React", "Vite", "Flask"] ∧
    detect [webManifest] [] ⊆ detect [flaskFile, webManifest] webEntries := by
  have hfiles (file : SourceFile) : file ∈ [webManifest, flaskFile, webManifest] ↔ file ∈ [flaskFile, webManifest] := by
    simp only [List.mem_cons, List.not_mem_nil, or_false]
    tauto
  have hentries (e : Entry) : e ∈ webEntries.reverse ↔ e ∈ webEntries := List.mem_reverse
  have hmore : [webManifest] ⊆ [flaskFile, webManifest] := List.subset_cons_self ..
  obtain ⟨-, -, hsame, -⟩ := detect_lists [flaskFile, webManifest] webEntries
  obtain ⟨-, -, -, hsubset⟩ := detect_lists [webManifest] []
  exact ⟨by decide +kernel, hfiles, hentries, hsame _ _ hfiles hentries, hmore, List.nil_subset _, by decide +kernel,
    hsubset _ _ hmore (List.nil_subset _)⟩

end CodeCensus.Framework
