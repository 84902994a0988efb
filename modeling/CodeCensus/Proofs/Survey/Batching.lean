import CodeCensus.Proofs.Survey.Interleaving

/-! The size of the batches and the pauses between them leave no trace in what a survey comes to. -/

namespace CodeCensus.Survey

section sequential

variable {r : Registry} {s : Settings} {fetch : String → Except Failure String}

theorem surveyBatch_entries {batch : List Job}
    (hfetch : ∀ job ∈ batch, fetch job.entry.path = job.answer) :
    surveyBatch r s fetch (batch.map Job.entry) =
      (batch.filterMap fun job => job.file? r s, jobSteps r s batch) := by
  have hanswer : ∀ job ∈ batch,
      surveyEntry r s fetch job.entry = surveyAnswer r s job.entry.path job.answer := by
    intro job hjob
    rw [surveyEntry, hfetch job hjob]
  rw [surveyBatch, List.map_map]
  refine Prod.ext ?_ ?_
  · change ((batch.map _).filterMap _) = _
    rw [List.filterMap_map]
    refine List.filterMap_congr fun job hjob => ?_
    rw [Job.file?, ← hanswer job hjob]
    rfl
  · change ((batch.map _).flatMap _) = _
    rw [List.flatMap_map, jobSteps]
    refine List.flatMap_congr fun job hjob => ?_
    rw [← hanswer job hjob]
    rfl

/-- The survey that fetches one entry after another is one of the runs. -/
theorem leads_surveyBatches {total : Nat} {later : List (List Job)} (begun : Nat) (tally : Tally)
    (steps : List Step)
    (hfetch : ∀ batch ∈ later, ∀ job ∈ batch, fetch job.entry.path = job.answer) :
    Leads r s total ⟨begun, tally, none, later, steps⟩
      ⟨begun + later.length,
        (surveyBatches r s fetch total (begun + 1) tally (later.map (List.map Job.entry))).1,
        none, [],
        steps ++
          (surveyBatches r s fetch total (begun + 1) tally (later.map (List.map Job.entry))).2⟩ := by
  -- batch by batch, from whatever has been tallied so far
  induction later generalizing begun tally steps with
  | nil =>
    have hsteps : steps ++ [] = steps := List.append_nil steps
    rw [List.map_nil, surveyBatches, hsteps]
    exact .refl
  | cons batch later ih =>
    have hbatch : surveyBatch r s fetch _ = _ :=
      surveyBatch_entries (hfetch batch (List.mem_cons_self ..))
    have hlater := ih (begun + 1)
      (tally.merge (.ofFiles (batch.filterMap fun job => job.file? r s)))
      (steps ++
        (.report (.batchStarted (begun + 1 : Nat) total batch.length) :: jobSteps r s batch) ++
        pauseAfter s (later.map (List.map Job.entry)))
      fun other hother => hfetch other (List.mem_cons_of_mem _ hother)
    rw [List.map_cons, surveyBatches, hbatch]
    refine .trans (leads_batch batch steps) ?_
    change Leads r s total _ _
    simpa [Nat.add_assoc, Nat.add_comm 1] using hlater

theorem batches_entries (s : Settings) (jobs : List Job) :
    batches s.batchSize (selectEntries s.excludedNames (jobs.map Job.entry)) =
      (jobBatches s jobs).map (List.map Job.entry) := by
  rw [selectEntries, List.filter_map]
  exact batches_map s.batchSize_pos Job.entry _

theorem mem_of_mem_jobBatches {jobs batch : List Job} {job : Job}
    (hbatch : batch ∈ jobBatches s jobs) (hjob : job ∈ batch) : job ∈ jobs := by
  have hselected : job ∈ selectJobs s jobs := by
    rw [← flatten_jobBatches]
    exact List.mem_flatten.mpr ⟨batch, hbatch, hjob⟩
  exact (List.mem_filter.mp hselected).1

end sequential

/-! ## What a survey comes to -/

section census

variable {r : Registry} {s s' : Settings} {jobs : List Job}

/-- The files of the jobs that a survey reads and whose fetch brought some text, in their order. -/
def parsedFiles (r : Registry) (s : Settings) (jobs : List Job) : List SourceFile :=
  (selectJobs s jobs).filterMap fun job =>
    match job.answer with
    | .error _ => none
    | .ok content =>
      if content.isEmpty then none
      else some (SourceFile.parse r s.maxContentChars job.entry.path content).1

/-- The census of all files at once. -/
def censusAtOnce (r : Registry) (s : Settings) (jobs : List Job) : Census :=
  Census.ofTally (.ofFiles (parsedFiles r s jobs)) (jobs.map Job.entry)

/-- A survey may end with a census. -/
def EndsWith (r : Registry) (s : Settings) (jobs : List Job) (census : Census) : Prop :=
  ∃ x, Leads r s (jobBatches s jobs).length (Progress.start s jobs) x ∧ x.IsFinal ∧
    Census.ofTally x.tally (jobs.map Job.entry) = census

theorem filterMap_file? (r : Registry) (s : Settings) (jobs : List Job) :
    (selectJobs s jobs).filterMap (fun job => job.file? r s) = parsedFiles r s jobs := by
  refine List.filterMap_congr fun job _ => ?_
  obtain ⟨entry, answer⟩ := job
  cases answer with
  | error failure => rfl
  | ok content =>
    simp only [Job.file?, surveyAnswer]
    split <;> rfl

theorem liesWithin_congr {excluded excluded' : List String}
    (h : ∀ name, name ∈ excluded ↔ name ∈ excluded') (path : String) :
    liesWithin excluded path = liesWithin excluded' path := by
  have hany (segment : List Char) :
      (excluded.any fun name => name.toList == segment) =
        excluded'.any fun name => name.toList == segment := by
    rw [Bool.eq_iff_iff, List.any_eq_true, List.any_eq_true]
    exact exists_congr fun name => and_congr_left fun _ => h name
  simp only [liesWithin, hany]

theorem parsedFiles_congr (hnames : ∀ name, name ∈ s.excludedNames ↔ name ∈ s'.excludedNames)
    (hchars : s.maxContentChars = s'.maxContentChars) :
    parsedFiles r s' jobs = parsedFiles r s jobs := by
  have hselect : selectJobs s' jobs = selectJobs s jobs := by
    refine List.filter_congr fun job _ => ?_
    rw [Entry.isSelected, Entry.isSelected, liesWithin_congr hnames]
  rw [parsedFiles, parsedFiles, hselect, hchars]

theorem EndsWith.eq {census : Census} (h : EndsWith r s jobs census) :
    census = censusAtOnce r s jobs := by
  obtain ⟨x, hx, hfinal, rfl⟩ := h
  rw [hx.tally_eq hfinal, filterMap_file?, censusAtOnce]

theorem endsWith_censusAtOnce (r : Registry) (s : Settings) (jobs : List Job) :
    EndsWith r s jobs (censusAtOnce r s jobs) := by
  obtain ⟨x, hx, hfinal⟩ :=
    exists_leads_isFinal r s (jobBatches s jobs).length (Progress.start s jobs)
  have hends : EndsWith r s jobs (Census.ofTally x.tally (jobs.map Job.entry)) :=
    ⟨x, hx, hfinal, rfl⟩
  rwa [hends.eq] at hends

theorem outcome_run (repo : String) (source : Source)
    (hlist : source.list = .ok (jobs.map Job.entry))
    (hfetch : ∀ job ∈ jobs, source.fetch job.entry.path = job.answer) :
    ∃ census, (run r s repo source).outcome = .ok census ∧ EndsWith r s jobs census := by
  have hbatches : Leads r s (jobBatches s jobs).length (Progress.start s jobs) _ :=
    leads_surveyBatches 0 .empty [] fun batch hbatch job hjob =>
      hfetch job (mem_of_mem_jobBatches hbatch hjob)
  refine ⟨_, ?_, _, hbatches, ⟨rfl, rfl⟩, rfl⟩
  simp only [run, hlist, ofEntries, batches_entries, List.length_map]

/-- Whatever the size of the batches, the pauses between them and the order in which fetches start
and are answered, a survey comes to its end, and there to the census of all files at once. -/
theorem endsWith_iff (r : Registry) (s s' : Settings) (jobs : List Job)
    (hnames : ∀ name, name ∈ s.excludedNames ↔ name ∈ s'.excludedNames)
    (hchars : s.maxContentChars = s'.maxContentChars) :
    (∀ census, EndsWith r s' jobs census ↔ census = censusAtOnce r s jobs) ∧
    (∀ x, ∃ y, Leads r s' (jobBatches s' jobs).length x y ∧ y.IsFinal) ∧
    (WellFounded fun y x => Moves r s' (jobBatches s' jobs).length x y) ∧
    ∀ (repo : String) (source : Source), source.list = .ok (jobs.map Job.entry) →
      (∀ job ∈ jobs, source.fetch job.entry.path = job.answer) →
        (run r s' repo source).outcome = .ok (censusAtOnce r s jobs) := by
  have hcensus : censusAtOnce r s' jobs = censusAtOnce r s jobs := by
    rw [censusAtOnce, censusAtOnce, parsedFiles_congr hnames hchars]
  rw [← hcensus]
  refine ⟨fun census => ⟨EndsWith.eq, ?_⟩,
    exists_leads_isFinal r s' _, wellFounded_moves r s' _, ?_⟩
  · rintro rfl
    exact endsWith_censusAtOnce r s' jobs
  · intro repo source hlist hfetch
    obtain ⟨census, houtcome, hends⟩ := outcome_run repo source hlist hfetch
    rw [houtcome, hends.eq]

def fourJobs : List Job := [
  ⟨.file "a.py", .ok "x = 1\n"⟩, ⟨.file "b.py", .error (.other "gone")⟩, ⟨.file "c.py", .ok ""⟩,
  ⟨.file "d.py", .ok "y = 2\n"⟩]

/-- One file at a time, with no pause and the excluded directories named in another order. -/
def oneByOne : Settings :=
  { batchSize := 1, batchDelay := .ofInt 0, excludeDirs := defaultExcludedDirs.reverse }

theorem endsWith_iff_oneByOne :
    (parsedFiles .standard {} fourJobs).map SourceFile.path = ["a.py", "d.py"] ∧
    jobBatches oneByOne fourJobs ≠ jobBatches {} fourJobs ∧
    (∀ census, EndsWith .standard oneByOne fourJobs census ↔
      census = censusAtOnce .standard {} fourJobs) ∧
    (run .standard oneByOne "repo" ⟨.ok (fourJobs.map Job.entry), fun path =>
      ((fourJobs.find? fun job => job.entry.path == path).map Job.answer).getD
        (.error (.fetch path "absent"))⟩).outcome = .ok (censusAtOnce .standard {} fourJobs) := by
  have hnames : ∀ name, name ∈ ({} : Settings).excludedNames ↔ name ∈ oneByOne.excludedNames := by
    simp [Settings.excludedNames, oneByOne]
  obtain ⟨hends, -, -, hrun⟩ := endsWith_iff .standard {} oneByOne fourJobs hnames rfl
  refine ⟨by decide +kernel, ?_, hends, hrun "repo" _ rfl ?_⟩
  · intro h
    have hlength : (jobBatches oneByOne fourJobs).length = (jobBatches {} fourJobs).length := by
      rw [h]
    exact absurd hlength (by decide +kernel)
  · simp [fourJobs, Entry.file]

end census

end CodeCensus.Survey
