import CodeCensus.Proofs.Census.Separators
import CodeCensus.Proofs.Survey.Outcome

/-! Surveys of one repository whose paths are written with slashes and with backslashes. They come to the same
census but for the paths in it, as long as the frameworks told by file names are told by whole paths as well. -/

namespace CodeCensus.Survey

open CodeCensus.Path (StayApart)

variable {r : Registry} {s : Settings} {jobs : List Job}

def Job.backslashed (job : Job) : Job := { job with entry := job.entry.backslashed }

theorem entries_backslashed (jobs : List Job) :
    (jobs.map Job.backslashed).map Job.entry = (jobs.map Job.entry).map Entry.backslashed := by
  rw [List.map_map, List.map_map]
  rfl

theorem selectJobs_backslashed (s : Settings) (jobs : List Job) :
    selectJobs s (jobs.map Job.backslashed) = (selectJobs s jobs).map Job.backslashed := by
  rw [selectJobs, selectJobs, List.filter_map]
  refine congrArg (List.map Job.backslashed) (List.filter_congr fun job _ => ?_)
  exact Entry.isSelected_backslashed s.excludedNames job.entry

theorem parsedFiles_backslashed (r : Registry) (s : Settings) (jobs : List Job) :
    parsedFiles r s (jobs.map Job.backslashed) = (parsedFiles r s jobs).map SourceFile.backslashed := by
  rw [parsedFiles, parsedFiles, selectJobs_backslashed, List.filterMap_map, List.map_filterMap]
  refine List.filterMap_congr fun job _ => ?_
  obtain ⟨entry, answer⟩ := job
  cases answer with
  | error failure => rfl
  | ok content =>
    change (if content.isEmpty then none
        else some (SourceFile.parse r s.maxContentChars (Path.backslashed entry.path) content).1) =
      Option.map SourceFile.backslashed
        (if content.isEmpty then none else some (SourceFile.parse r s.maxContentChars entry.path content).1)
    rw [SourceFile.parse_backslashed]
    split
    · rfl
    · rfl

/-- Every file comes from an entry of the listing. -/
theorem paths_parsedFiles_subset (r : Registry) (s : Settings) (jobs : List Job) :
    (parsedFiles r s jobs).map SourceFile.path ⊆ (jobs.map Job.entry).map Entry.path := by
  intro path hpath
  obtain ⟨file, hfile, rfl⟩ := List.mem_map.mp hpath
  obtain ⟨job, hjob, hkept⟩ := List.mem_filterMap.mp hfile
  have hlisted : job.entry.path ∈ (jobs.map Job.entry).map Entry.path :=
    List.mem_map_of_mem (List.mem_map_of_mem (List.mem_filter.mp hjob).1)
  obtain ⟨entry, answer⟩ := job
  cases answer with
  | error failure => cases hkept
  | ok content =>
    dsimp only at hkept
    split at hkept
    · cases hkept
    · rw [← Option.some.inj hkept, SourceFile.path_parse]
      exact hlisted

/-- What two censuses of one repository have in common, of which the second one sees backslashes where the first
one sees slashes. -/
structure AgreesBackslashed (entries : List Entry) (c c' : Census) : Prop where
  files : c'.files = c.files.map SourceFile.backslashed
  totals : c'.totalFiles = c.totalFiles ∧ c'.totalLines = c.totalLines
  languages : c'.languages = c.languages
  complexity : c'.complexity = c.complexity.backslashed
  testCoverage : c'.testCoverage = c.testCoverage
  issues : c'.issues = c.issues.map Issue.backslashed
  directories : StayApart (entries.map Entry.path) → c'.directories = c.directories.map Directory.backslashed
  dependencies : StayApart (entries.map Entry.path) →
    c'.dependencies = c.dependencies.map (Prod.map Path.backslashed id)
  architecture : c'.patterns.architecture = c.patterns.architecture
  patterns : c'.patterns.patterns = c.patterns.patterns
  frameworks : c'.patterns.frameworks = c.patterns.frameworks ↔
    ∀ framework ∉
        Framework.inContents (c.files.map fun f => f.content.toList) ++ Framework.inDependencies c.files,
      (∃ e ∈ entries, e.kind = .file ∧ Framework.Tells e.path framework) ↔
        ∃ e ∈ entries, e.kind = .file ∧ Framework.Tells (Path.name e.path) framework

theorem ofTally_agreesBackslashed {files : List SourceFile} {entries : List Entry}
    (hfiles : files.map SourceFile.path ⊆ entries.map Entry.path) :
    AgreesBackslashed entries (.ofTally (.ofFiles files) entries)
      (.ofTally (.ofFiles (files.map SourceFile.backslashed)) (entries.map Entry.backslashed)) := by
  have hpaths : (entries.map Entry.backslashed).map Entry.path = (entries.map Entry.path).map Path.backslashed := by
    rw [List.map_map, List.map_map]
    rfl
  have harchitecture : Architecture.detect ((entries.map Entry.backslashed).map Entry.path) =
      Architecture.detect (entries.map Entry.path) := by
    rw [hpaths, Architecture.detect_backslashed]
  have hlines : (files.map SourceFile.backslashed).map SourceFile.lines = files.map SourceFile.lines := by
    rw [List.map_map]
    rfl
  have htests : ((files.map SourceFile.backslashed).filter fun f => isTestPath f.path).length =
      (files.filter fun f => isTestPath f.path).length := by
    rw [List.filter_map, List.length_map]
    refine congrArg List.length (List.filter_congr fun f _ => ?_)
    rw [Function.comp_apply, SourceFile.backslashed]
    exact isTestPath_backslashed f.path
  constructor
  case files => rfl
  case totals =>
    simp only [Census.ofTally, Tally.ofFiles, List.length_map, hlines, and_self]
  case languages => simp only [Census.ofTally, Tally.ofFiles, Tally.languagesOf_backslashed]
  case complexity => exact Census.complexityOf_backslashed files
  case testCoverage => simp only [Census.ofTally, Tally.ofFiles, List.length_map, htests]
  case issues => exact Issue.ofFiles_backslashed files
  case directories => exact Directory.ofEntries_backslashed
  case dependencies =>
    intro hapart
    exact Census.dependenciesOf_backslashed (hapart.of_subset hfiles)
  case architecture => exact congrArg (fun found => found.1.label) harchitecture
  case patterns => exact congrArg Prod.snd harchitecture
  case frameworks => exact Framework.detect_backslashed_eq_iff files entries

theorem EndsWith.agreesBackslashed {census census' : Census} (h : EndsWith r s jobs census)
    (h' : EndsWith r s (jobs.map Job.backslashed) census') :
    AgreesBackslashed (jobs.map Job.entry) census census' := by
  rw [h.eq, h'.eq, censusAtOnce, censusAtOnce, parsedFiles_backslashed, entries_backslashed]
  exact ofTally_agreesBackslashed (paths_parsedFiles_subset r s jobs)

theorem jobsOf_backslashed {source source' : Source} {entries : List Entry}
    (hfetch : ∀ e ∈ entries, source'.fetch (Path.backslashed e.path) = source.fetch e.path) :
    jobsOf source' (entries.map Entry.backslashed) = (jobsOf source entries).map Job.backslashed := by
  rw [jobsOf, jobsOf, List.map_map, List.map_map]
  refine List.map_congr_left fun e he => ?_
  exact congrArg (Job.mk e.backslashed) (hfetch e he)

/-- Whether paths are written with slashes or with backslashes makes no difference to a survey, in whatever order
its files are fetched, but for paths that become one and for frameworks that are told by the name of a file: such a
name is what follows the last slash. -/
theorem endsWith_backslashed (r : Registry) (s : Settings) (jobs : List Job) :
    (∃ census, EndsWith r s jobs census) ∧
    (∃ census', EndsWith r s (jobs.map Job.backslashed) census') ∧
    (∀ census census', EndsWith r s jobs census → EndsWith r s (jobs.map Job.backslashed) census' →
      AgreesBackslashed (jobs.map Job.entry) census census') ∧
    ∀ (repo : String) (source source' : Source) (entries : List Entry), source.list = .ok entries →
      source'.list = .ok (entries.map Entry.backslashed) →
      (∀ e ∈ entries, source'.fetch (Path.backslashed e.path) = source.fetch e.path) →
        ∃ census census', (run r s repo source).outcome = .ok census ∧
          (run r s repo source').outcome = .ok census' ∧ AgreesBackslashed entries census census' := by
  refine ⟨⟨_, endsWith_censusAtOnce r s jobs⟩, ⟨_, endsWith_censusAtOnce r s _⟩,
    fun census census' h h' => h.agreesBackslashed h', ?_⟩
  intro repo source source' entries hlist hlist' hfetch
  obtain ⟨census, houtcome, hends⟩ := endsWith_of_list r s repo hlist
  obtain ⟨census', houtcome', hends'⟩ := endsWith_of_list r s repo hlist'
  rw [jobsOf_backslashed hfetch] at hends'
  have hagrees := hends.agreesBackslashed hends'
  rw [entries_jobsOf] at hagrees
  exact ⟨census, census', houtcome, houtcome', hagrees⟩

/-- A manifest that stands above all directories. -/
def manifestAtTop : List Job := [
  ⟨.dir "src/api", .error (.other "a directory")⟩, ⟨.file "src/api/a.py", .ok "x = 1\n"⟩,
  ⟨.file "package.json", .ok "\x7b\x7d"⟩]

theorem endsWith_backslashed_manifestAtTop :
    ∃ census census', EndsWith .standard {} manifestAtTop census ∧
      EndsWith .standard {} (manifestAtTop.map Job.backslashed) census' ∧
      census'.files.map SourceFile.path = ["src\\api\\a.py", "package.json"] ∧
      census'.directories = census.directories.map Directory.backslashed ∧
      census'.dependencies = [("package.json", [])] ∧ census'.patterns.frameworks = ["Node.js"] := by
  obtain ⟨⟨census, hends⟩, ⟨census', hends'⟩, hagrees, -⟩ := endsWith_backslashed .standard {} manifestAtTop
  have hapart : StayApart ((manifestAtTop.map Job.entry).map Entry.path) := by
    unfold StayApart
    decide +kernel
  have hboth : AgreesBackslashed (manifestAtTop.map Job.entry) census census' := hagrees census census' hends hends'
  have hcensus' : (census'.files.map SourceFile.path, census'.patterns.frameworks, census'.dependencies) =
      (["src\\api\\a.py", "package.json"], ["Node.js"], [("package.json", [])]) := by
    rw [hends'.eq]
    decide +kernel
  obtain ⟨hfiles', hframeworks, hdependencies⟩ := by simpa only [Prod.mk.injEq] using hcensus'
  exact ⟨census, census', hends, hends', hfiles', hboth.directories hapart, hdependencies, hframeworks⟩

def manifestBelow : List Job := [⟨.file "web/package.json", .ok "\x7b\x7d"⟩]

/-- The name of a manifest in a directory is not seen behind a backslash. -/
theorem frameworks_ne_backslashed_manifestBelow :
    (manifestBelow.map Job.backslashed).map (fun job => job.entry.path) = ["web\\package.json"] ∧
    ∃ census census', EndsWith .standard {} manifestBelow census ∧
      EndsWith .standard {} (manifestBelow.map Job.backslashed) census' ∧
      census.patterns.frameworks = ["Node.js"] ∧ census'.patterns.frameworks = [] := by
  refine ⟨by decide +kernel, _, _, endsWith_censusAtOnce _ _ _, endsWith_censusAtOnce _ _ _, ?_, ?_⟩
  · decide +kernel
  · decide +kernel

end CodeCensus.Survey
