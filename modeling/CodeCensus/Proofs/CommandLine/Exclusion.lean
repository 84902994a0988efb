import CodeCensus.Proofs.CommandLine.Local
import CodeCensus.Proofs.Files.Exclusion

/-! What a configuration makes of the listing of a directory. Whatever stands for the globs of files to leave out is
taken as it is: a list of texts leaves out what it should, but a text leaves out what one of its characters fits, and
most other values make the listing fail. -/

namespace CodeCensus.CommandLine

open Files

variable {w : Workplace} {a : Analysis} {t : Trace} {config value : Data} {listed : List Entry}
  {out : Except Failure (List Entry)} {tries : String → Prop}

/-- A directory as it is read where no configuration bears on it. -/
def plainCheckout (top : Node) (w : Workplace) (a : Analysis) : Checkout :=
  ⟨top, [], ((top.resolve w.place a.directory).getD w.place).text, { includeHidden := a.switches.includeHidden }⟩

theorem list_plainCheckout (top : Node) (w : Workplace) (a : Analysis) :
    (plainCheckout top w a).list = listingBy (ignoreRules top) top [] (plainCheckout top w a).path
      (plainCheckout top w a).options := by
  simp only [Checkout.list, listing, plainCheckout]

/-- What is configured to be left out. -/
def configuredExclusion (config : Data) : Data :=
  ((configuredOptions config "analyze").get? "exclude_patterns").getD .null

theorem list_directorySubject (top : Node) (w : Workplace) (a : Analysis) (config : Data) :
    (directorySubject top w a config).source.list =
      (listingBy (ignoreRules top) top [] (plainCheckout top w a).path
        { (plainCheckout top w a).options with excludedNames := configuredExclusion config }).mapError
          fun fault => .other fault.message := by
  rw [configuredExclusion, ← Analysis.get?_localOptions_of_ne (by decide) (by decide) config a]
  simp only [directorySubject, Checkout.source, Checkout.list, listing, plainCheckout]

/-- What comes of a listing with a value that leaves out files, where `listed` would be listed without it, and where
it is tried on some names. -/
structure ListsSparing (value : Data) (tries : String → Prop) (listed : List Entry)
    (out : Except Failure (List Entry)) : Prop where
  tried : ∀ e ∈ listed, e.kind = .file → tries e.name
  spared : ∀ entries, out = .ok entries → entries = listed.filter (Lister.Spares value)
  succeeds : (∃ entries, out = .ok entries) ↔ ∀ name, tries name → ∃ isExcluded, excludes value name = .ok isExcluded
  fails : ∀ failure, out = .error failure →
    ∃ name fault, tries name ∧ excludes value name = .error fault ∧ failure = .other fault.message

namespace ListsSparing

variable (h : ListsSparing value tries listed out)

include h

theorem eq_ok_of_excludes {isExcluded : String → Bool} (hexcludes : ∀ name, excludes value name = .ok (isExcluded name)) :
    out = .ok (listed.filter fun e => e.kind = .dir || !isExcluded e.name) := by
  obtain ⟨entries, hentries⟩ := h.succeeds.mpr fun name _ => ⟨_, hexcludes name⟩
  rw [hentries, h.spared entries hentries]
  refine congrArg Except.ok (List.filter_congr fun e _ => ?_)
  rw [Bool.eq_iff_iff, decide_eq_true_iff, Lister.Spares, hexcludes]
  simp

/-- A value that is missing or empty leaves out nothing. -/
theorem eq_ok_of_not_truthy (hvalue : value.isTruthy = false) : out = .ok listed := by
  have hexcludes : ∀ name, excludes value name = .ok ((fun _ => false) name) := excludes_of_not_truthy hvalue
  rw [h.eq_ok_of_excludes hexcludes]
  simp

/-- A list of texts leaves out the files that one of them fits. -/
theorem eq_ok_of_texts {globs : List String} (hvalue : value = .texts globs) :
    out = .ok (listed.filter fun e => e.kind = .dir || !globs.any fun glob => Glob.fits glob.toList e.name.toList) := by
  rw [hvalue] at h
  exact h.eq_ok_of_excludes fun name => excludes_texts globs name

/-- A text leaves out the files that one of its characters fits. -/
theorem eq_ok_of_text {s : String} (hvalue : value = .text s) :
    out = .ok (listed.filter fun e => e.kind = .dir || !s.toList.any fun c => Glob.fits [c] e.name.toList) := by
  rw [hvalue] at h
  exact h.eq_ok_of_excludes fun name => excludes_text s name

/-- What a list leaves out is what one of its texts fits. -/
theorem exists_of_list {items : List Data} (hvalue : value = .list items) {entries : List Entry}
    (hentries : out = .ok entries) {e : Entry} (he : e ∈ listed) (hmissing : e ∉ entries) :
    e.kind = .file ∧ ∃ glob ∈ items, fitsValue e.name glob = .ok true := by
  rw [h.spared entries hentries, List.mem_filter, decide_eq_true_iff, Lister.Spares] at hmissing
  push Not at hmissing
  obtain ⟨hkind, hexcludes⟩ := hmissing he
  have hfile : e.kind = .file := by
    cases hkind' : e.kind with
    | file => rfl
    | dir => exact absurd hkind' hkind
  obtain ⟨isExcluded, hexcluded⟩ := h.succeeds.mp ⟨entries, hentries⟩ e.name (h.tried e he hfile)
  rw [hvalue] at hexcludes hexcluded
  cases isExcluded with
  | true => exact ⟨hfile, exists_of_excludes_list hexcluded⟩
  | false => exact absurd hexcluded hexcludes

end ListsSparing

theorem listsSparing_directorySubject (hproper : t.top.IsProper) (hlisted : (plainCheckout t.top w a).list = .ok listed)
    (config : Data) :
    ListsSparing (configuredExclusion config)
      (TriesOn (ignoreRules t.top) t.top [] (plainCheckout t.top w a).path (plainCheckout t.top w a).options) listed
      (directorySubject t.top w a config).source.list := by
  have hnone : (plainCheckout t.top w a).options.excludedNames = .null := rfl
  rw [list_plainCheckout] at hlisted
  rw [list_directorySubject]
  generalize (plainCheckout t.top w a).path = path at *
  generalize (plainCheckout t.top w a).options = options at *
  have htried := fun e he hfile => triesOn_of_mem hproper hlisted (e := e) he hfile
  obtain ⟨hspared, hfails⟩ := listingBy_excluding hproper hnone hlisted (configuredExclusion config)
  cases hout : listingBy (ignoreRules t.top) t.top [] path
      { options with excludedNames := configuredExclusion config } with
  | ok spared =>
    obtain ⟨heq, hdecided⟩ := hspared spared hout
    constructor
    case tried => exact htried
    case spared =>
      rintro entries ⟨⟩
      exact heq
    case succeeds => exact iff_of_true ⟨spared, rfl⟩ hdecided
    case fails => rintro failure ⟨⟩
  | error fault =>
    obtain ⟨name, htries, hfault⟩ := hfails fault hout
    constructor
    case tried => exact htried
    case spared => rintro entries ⟨⟩
    case succeeds =>
      refine iff_of_false ?_ fun hall => ?_
      · rintro ⟨entries, ⟨⟩⟩
      · obtain ⟨isExcluded, hexcluded⟩ := hall name htries
        cases hfault.symm.trans hexcluded
    case fails =>
      rintro failure ⟨⟩
      exact ⟨name, fault, htries, hfault, rfl⟩

/-- Whatever a configuration holds in the place of globs, the listing of a directory that can be listed without it is
what that value spares, or it fails as the value does on a name that it is tried on. A value that is missing or empty
changes nothing, and a list of texts leaves out what one of them fits; but a text is taken for its characters. -/
theorem localSubject_listsSparing (w : Workplace) (a : Analysis) (t : Trace) (hproper : t.top.IsProper)
    (hdir : t.top.isDirAt w.place a.directory = true)
    (hload : Configuration.load t.top w.place a.directory = .ok config)
    (hlisted : (plainCheckout t.top w a).list = .ok listed) :
    ∃ subject, (localSubject w a).run.run t = (.ok subject, t) ∧
      ListsSparing (configuredExclusion config)
        (TriesOn (ignoreRules t.top) t.top [] (plainCheckout t.top w a).path (plainCheckout t.top w a).options)
        listed subject.source.list ∧
      ((configuredExclusion config).isTruthy = false → subject.source.list = .ok listed) ∧
      (∀ globs, configuredExclusion config = .texts globs → subject.source.list = .ok (listed.filter fun e =>
        e.kind = .dir || !globs.any fun glob => Glob.fits glob.toList e.name.toList)) ∧
      (∀ items, configuredExclusion config = .list items → ∀ entries, subject.source.list = .ok entries →
        ∀ e ∈ listed, e ∉ entries → e.kind = .file ∧ ∃ glob ∈ items, fitsValue e.name glob = .ok true) ∧
      ∀ s, configuredExclusion config = .text s → subject.source.list = .ok (listed.filter fun e =>
        e.kind = .dir || !s.toList.any fun c => Glob.fits [c] e.name.toList) := by
  have hlists := listsSparing_directorySubject hproper hlisted config
  refine ⟨_, run_localSubject_of_load hdir hload, hlists, hlists.eq_ok_of_not_truthy, ?_, ?_, ?_⟩
  · intro globs hglobs
    exact hlists.eq_ok_of_texts hglobs
  · intro items hitems entries hentries e he hmissing
    exact hlists.exists_of_list hitems hentries he hmissing
  · intro s hs
    exact hlists.eq_ok_of_text hs

/-- A directory with two files, and a configuration that holds a value in the place of globs. -/
def excluding (value : String) : Workplace where
  top := .dir [
    (Configuration.fileName, .file (Text.Utf8.encode ("analyze:\n  exclude_patterns: " ++ value ++ "\n").toList)),
    ("a.py", .file [0x78]), ("doc", .dir [("b.md", .file [])])]
  place := []
  ask := fun _ _ => .unreachable "no network"

theorem isProper_excluding (value : String) : (excluding value).top.IsProper := by
  have hnames : ∀ name ∈ [Configuration.fileName, "a.py", "doc"], IsFileName name := by decide +kernel
  have hdistinct : [Configuration.fileName, "a.py", "doc"].Nodup := by decide +kernel
  have hdoc : (Node.dir [("b.md", .file [])]).IsProper :=
    .dir (by decide +kernel) (by decide +kernel) (by simp [Node.IsProper.file])
  exact .dir (fun entry hentry => hnames entry.1 (List.mem_map_of_mem hentry)) hdistinct
    (by simp [Node.IsProper.file, hdoc])

/-- The glob of a list that holds one and nothing else. -/
def onlyGlob? : Data → Option String
  | .list [.text glob] => some glob
  | _ => none

theorem eq_texts_of_onlyGlob? {value : Data} {glob : String} (h : onlyGlob? value = some glob) :
    value = .texts [glob] := by
  unfold onlyGlob? at h
  split at h
  · rw [Option.some.inj h]
    rfl
  · cases h

theorem localSubject_listsSparing_oneGlob :
    ∃ subject, (localSubject (excluding "['*.md']") plainAnalysis).run.run { top := (excluding "['*.md']").top } =
        (.ok subject, { top := (excluding "['*.md']").top }) ∧
      subject.source.list = .ok [⟨"doc", "doc", .dir, 0, none⟩, ⟨"a.py", "a.py", .file, 1, none⟩] := by
  have hdir : (excluding "['*.md']").top.isDirAt (excluding "['*.md']").place plainAnalysis.directory = true := by
    decide +kernel
  have hread : (Configuration.load (excluding "['*.md']").top (excluding "['*.md']").place
      plainAnalysis.directory).map (fun config => onlyGlob? (configuredExclusion config)) = .ok (some "*.md") := by
    decide +kernel
  have hlisted : (plainCheckout (excluding "['*.md']").top (excluding "['*.md']") plainAnalysis).list =
      .ok [⟨"doc", "doc", .dir, 0, none⟩, ⟨"a.py", "a.py", .file, 1, none⟩,
        ⟨"doc/b.md", "b.md", .file, 0, none⟩] := by
    decide +kernel
  obtain ⟨config, hload, hconfig⟩ := Except.map_eq_ok hread
  have hglobs : configuredExclusion config = .texts ["*.md"] := eq_texts_of_onlyGlob? hconfig
  obtain ⟨subject, hrun, -, -, htexts, -⟩ := localSubject_listsSparing (excluding "['*.md']") plainAnalysis
    { top := (excluding "['*.md']").top } (isProper_excluding _) hdir hload hlisted
  refine ⟨subject, hrun, (htexts _ hglobs).trans ?_⟩
  decide +kernel

theorem run_excluding {α : Type} {value : String} {f : Subject → α} {found : α}
    (h : (Configuration.load (excluding value).top (excluding value).place plainAnalysis.directory).map (fun config =>
      f (directorySubject (excluding value).top (excluding value) plainAnalysis config)) = .ok found) :
    ∃ subject, (localSubject (excluding value) plainAnalysis).run.run { top := (excluding value).top } =
      (.ok subject, { top := (excluding value).top }) ∧ f subject = found := by
  obtain ⟨config, hload, hconfig⟩ := Except.map_eq_ok h
  exact ⟨_, run_localSubject_of_load rfl hload, hconfig⟩

/-- A text is taken for its characters, of which the star fits everything, and a number for nothing that could be
tried. -/
theorem listing_excludes_text_and_number :
    Glob.fits "*.md".toList "a.py".toList = false ∧
    (∃ subject, (localSubject (excluding "'*.md'") plainAnalysis).run.run { top := (excluding "'*.md'").top } =
        (.ok subject, { top := (excluding "'*.md'").top }) ∧
      subject.source.list = .ok [⟨"doc", "doc", .dir, 0, none⟩]) ∧
    ∃ subject, (localSubject (excluding "5") plainAnalysis).run.run { top := (excluding "5").top } =
        (.ok subject, { top := (excluding "5").top }) ∧
      subject.source.list = .error (.other "'int' object is not iterable") := by
  refine ⟨by decide +kernel, run_excluding ?_, run_excluding ?_⟩
  · decide +kernel
  · decide +kernel

end CodeCensus.CommandLine
