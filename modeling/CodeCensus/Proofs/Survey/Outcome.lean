import CodeCensus.Proofs.Census.Balance
import CodeCensus.Proofs.SourceFile.Scoring
import CodeCensus.Proofs.Survey.Trace

/-! How a survey ends. A repository that can be listed has a census, which balances; one that cannot
be listed has none, and nothing else stops a survey. -/

namespace CodeCensus.Survey

variable {r : Registry} {s : Settings} {repo : String} {jobs : List Job} {source : Source}

/-- The entries of a listing with the answers of a source. -/
def jobsOf (source : Source) (entries : List Entry) : List Job :=
  entries.map fun e => ⟨e, source.fetch e.path⟩

theorem entries_jobsOf (source : Source) (entries : List Entry) :
    (jobsOf source entries).map Job.entry = entries := by
  rw [jobsOf, List.map_map]
  exact List.map_id entries

theorem answer_of_mem_jobsOf {entries : List Entry} {job : Job} (h : job ∈ jobsOf source entries) :
    source.fetch job.entry.path = job.answer := by
  obtain ⟨e, -, rfl⟩ := List.mem_map.mp h
  rfl

/-- A survey one fetch after another of a repository that can be listed ends as surveys do. -/
theorem endsWith_of_list (r : Registry) (s : Settings) (repo : String) {entries : List Entry}
    (hlist : source.list = .ok entries) :
    ∃ census, (run r s repo source).outcome = .ok census ∧
      EndsWith r s (jobsOf source entries) census := by
  have hentries : source.list = .ok ((jobsOf source entries).map Job.entry) := by
    rw [entries_jobsOf, hlist]
  exact outcome_run repo source hentries fun job hjob => answer_of_mem_jobsOf hjob

/-! ## What a census comes to -/

theorem EndsWith.balances {census : Census} (h : EndsWith r s jobs census) :
    census.Balances (jobs.map Job.entry) := by
  rw [h.eq]
  exact Census.balances_ofTally _ _

/-- In whatever order fetches start and are answered, a survey ends with a census, and that census
balances; so does that of the survey that fetches one entry after another. -/
theorem census_balances (r : Registry) (s : Settings) (jobs : List Job) :
    (∃ census, EndsWith r s jobs census) ∧
    (∀ census, EndsWith r s jobs census → census.Balances (jobs.map Job.entry)) ∧
    ∀ (repo : String) (source : Source) (census : Census),
      (run r s repo source).outcome = .ok census →
        ∃ entries, source.list = .ok entries ∧ census.Balances entries := by
  refine ⟨⟨_, endsWith_censusAtOnce r s jobs⟩, fun census h => h.balances, ?_⟩
  intro repo source census houtcome
  cases hlist : source.list with
  | error failure =>
    rw [run, hlist] at houtcome
    cases houtcome
  | ok entries =>
    obtain ⟨census', houtcome', hends⟩ := endsWith_of_list r s repo hlist
    obtain rfl : census = census' := Except.ok.inj (houtcome.symm.trans houtcome')
    have hbalances := hends.balances
    rw [entries_jobsOf] at hbalances
    exact ⟨entries, rfl, hbalances⟩

/-- What `fourJobs` are served from. -/
def fourSource : Source := ⟨.ok (fourJobs.map Job.entry), fun path =>
  ((fourJobs.find? fun job => job.entry.path == path).map Job.answer).getD
    (.error (.fetch path "absent"))⟩

theorem census_balances_fourJobs :
    ∃ census, (run .standard {} "repo" fourSource).outcome = .ok census ∧
      census.Balances (fourJobs.map Job.entry) ∧ census.files.map SourceFile.path = ["a.py", "d.py"] := by
  obtain ⟨-, -, hrun⟩ := census_balances .standard {} fourJobs
  have hfetch : ∀ job ∈ fourJobs, fourSource.fetch job.entry.path = job.answer := by
    simp [fourSource, fourJobs, Entry.file]
  obtain ⟨census, houtcome, hends⟩ : ∃ census, (run .standard {} "repo" fourSource).outcome =
      .ok census ∧ EndsWith .standard {} fourJobs census := outcome_run "repo" fourSource rfl hfetch
  obtain ⟨entries, hlist, hbalances⟩ := hrun "repo" fourSource census houtcome
  obtain rfl : fourJobs.map Job.entry = entries := Except.ok.inj hlist
  refine ⟨census, houtcome, hbalances, ?_⟩
  rw [hends.eq]
  decide +kernel

/-! ## What can stop a survey -/

theorem run_of_error {failure : Failure} (h : source.list = .error failure) :
    run r s repo source = ⟨.error (failure.ofListing repo), []⟩ := by
  rw [run, h]

/-- A failure to list that says so already is told as it is, any other one by its text. -/
theorem ofListing_cases (repo : String) (failure : Failure) :
    (∃ repo' reason, failure = .access repo' reason ∧ failure.ofListing repo = failure) ∨
    ((∀ repo' reason, failure ≠ .access repo' reason) ∧
      failure.ofListing repo = .access repo failure.text) := by
  cases failure with
  | access repo' reason => exact .inl ⟨repo', reason, rfl, rfl⟩
  | fetch path reason => exact .inr ⟨by simp, rfl⟩
  | other text => exact .inr ⟨by simp, rfl⟩

/-- No language has more than `n` patterns to score it by, and every text fetched is shorter. -/
structure Within (n : Nat) (r : Registry) (jobs : List Job) : Prop where
  patterns : r.ScoresBy n
  contents : ∀ job ∈ jobs, ∀ content, job.answer = .ok content → content.length < n

theorem complexity_le_of_file? {n : Nat} (h : Within n r jobs) {job : Job} (hjob : job ∈ jobs)
    {file : SourceFile} (hfile : job.file? r s = some file) : file.complexity ≤ 1 + n * n := by
  obtain ⟨entry, answer⟩ := job
  cases answer with
  | error failure => cases hfile
  | ok content =>
    have hlength : content.length < n := h.contents _ hjob content rfl
    simp only [Job.file?, surveyAnswer] at hfile
    split at hfile
    · cases hfile
    · obtain rfl := Option.some.inj hfile
      have hle := SourceFile.complexity_parse_le h.patterns s.maxContentChars entry.path content
      exact hle.trans (Nat.add_le_add_left (Nat.mul_le_mul_left n hlength) 1)

/-- Every figure of the census at the end of a survey has a value. -/
theorem Leads.ofTally?_eq_some (hwithin : Within (2 ^ 63) r jobs) {x : Progress}
    (hx : Leads r s (jobBatches s jobs).length (Progress.start s jobs) x) (hfinal : x.IsFinal)
    (entries : List Entry) :
    Census.ofTally? x.tally entries = some (Census.ofTally x.tally entries) := by
  rw [hx.tally_eq hfinal]
  refine Census.ofTally?_eq_some rfl (List.length_filter_le _ _) ?_ entries
  intro score hscore
  obtain ⟨hmem, -⟩ := List.mem_filter.mp hscore
  obtain ⟨file, hfile, rfl⟩ := List.mem_map.mp hmem
  obtain ⟨job, hjob, hfile⟩ := List.mem_filterMap.mp hfile
  have hle := complexity_le_of_file? hwithin (List.mem_filter.mp hjob).1 hfile
  have hlt : (file.complexity : ℚ) < 2 ^ 127 := by
    have hnat : file.complexity < 2 ^ 127 := hle.trans_lt (by norm_num)
    exact_mod_cast hnat
  have hpow : (2 : ℚ) ^ (75 : ℤ) ≤ 2 ^ Double.maxExponent := zpow_le_zpow_right₀ one_le_two (by decide)
  calc (file.complexity : ℚ) < 2 ^ 127 := hlt
    _ = 2 ^ 52 * 2 ^ (75 : ℤ) := by norm_num
    _ ≤ 2 ^ 52 * 2 ^ Double.maxExponent := mul_le_mul_of_nonneg_left hpow (by positivity)

/-- A survey fails exactly if the repository cannot be listed, and then it has done nothing. Once
there is a listing, it comes to its end whatever the fetches bring, in whatever order they start and
are answered, and at the end every figure of the census has a value: texts and lists that a machine
can address are too short for a score that no double holds. -/
theorem only_listing_fails (r : Registry) (s : Settings) (repo : String) (source : Source) :
    ((∃ census, (run r s repo source).outcome = .ok census) ↔
      ∃ entries, source.list = .ok entries) ∧
    (∀ failure, source.list = .error failure →
      (run r s repo source).steps = [] ∧
      ((∃ repo' reason, failure = .access repo' reason ∧
          (run r s repo source).outcome = .error failure) ∨
        ((∀ repo' reason, failure ≠ .access repo' reason) ∧
          (run r s repo source).outcome = .error (.access repo failure.text)))) ∧
    ∀ jobs : List Job,
      (WellFounded fun y x => Moves r s (jobBatches s jobs).length x y) ∧
      (∀ x, x.IsFinal ∨ ∃ y, Moves r s (jobBatches s jobs).length x y) ∧
      (∀ survey, Completes r s repo jobs survey → ∃ census, survey.outcome = .ok census) ∧
      (Within (2 ^ 63) r jobs → ∀ x,
        Leads r s (jobBatches s jobs).length (Progress.start s jobs) x → x.IsFinal →
          Census.ofTally? x.tally (jobs.map Job.entry) =
            some (Census.ofTally x.tally (jobs.map Job.entry))) := by
  refine ⟨⟨?_, ?_⟩, ?_, ?_⟩
  · rintro ⟨census, houtcome⟩
    cases hlist : source.list with
    | error failure =>
      rw [run_of_error hlist] at houtcome
      cases houtcome
    | ok entries => exact ⟨entries, rfl⟩
  · rintro ⟨entries, hlist⟩
    obtain ⟨census, houtcome, -⟩ := endsWith_of_list r s repo hlist
    exact ⟨census, houtcome⟩
  · intro failure hlist
    rw [run_of_error hlist]
    refine ⟨rfl, ?_⟩
    rcases ofListing_cases repo failure with ⟨repo', reason, hfailure, htold⟩ | ⟨hother, htold⟩
    · exact .inl ⟨repo', reason, hfailure, by rw [htold]⟩
    · exact .inr ⟨hother, by rw [htold]⟩
  · intro jobs
    refine ⟨wellFounded_moves r s _, ?_, ?_, ?_⟩
    · intro x
      exact (em x.IsFinal).imp_right exists_moves
    · rintro survey ⟨x, -, -, houtcome, -⟩
      exact ⟨_, houtcome⟩
    · intro hwithin x hx hfinal
      exact hx.ofTally?_eq_some hwithin hfinal _

theorem only_listing_fails_fourJobs :
    (run .standard {} "repo" ⟨.error (.other "gone"), fourSource.fetch⟩).outcome =
      .error (.access "repo" "gone") ∧
    (∃ census, (run .standard {} "repo" fourSource).outcome = .ok census) ∧
    ∃ x : Progress, x.tally.files.length ≤ 4 ∧
      Census.ofTally? x.tally (fourJobs.map Job.entry) =
        some (Census.ofTally x.tally (fourJobs.map Job.entry)) := by
  obtain ⟨-, hfails, -⟩ :=
    only_listing_fails .standard {} "repo" ⟨.error (.other "gone"), fourSource.fetch⟩
  obtain ⟨hlisted, -, hends⟩ := only_listing_fails .standard {} "repo" fourSource
  have hwithin : Within (2 ^ 63) .standard fourJobs := by
    refine ⟨Registry.scoresBy_standard.mono (by decide), ?_⟩
    intro job hjob content hcontent
    simp only [fourJobs, List.mem_cons, List.not_mem_nil, or_false] at hjob
    rcases hjob with rfl | rfl | rfl | rfl
    · obtain rfl := Except.ok.inj hcontent
      decide
    · cases hcontent
    · obtain rfl := Except.ok.inj hcontent
      decide
    · obtain rfl := Except.ok.inj hcontent
      decide
  obtain ⟨x, hx, hfinal⟩ := exists_leads_isFinal .standard {} (jobBatches {} fourJobs).length
    (Progress.start {} fourJobs)
  refine ⟨?_, hlisted.mpr ⟨_, rfl⟩, x, ?_, (hends fourJobs).2.2.2 hwithin x hx hfinal⟩
  · rcases (hfails _ rfl).2 with ⟨repo', reason, hfailure, -⟩ | ⟨-, houtcome⟩
    · cases hfailure
    · exact houtcome
  · rw [hx.tally_eq hfinal]
    exact (List.length_filterMap_le _ _).trans (List.length_filter_le _ _)

end CodeCensus.Survey
