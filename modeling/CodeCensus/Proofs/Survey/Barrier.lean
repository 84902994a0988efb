import CodeCensus.Proofs.Survey.Places
import CodeCensus.Proofs.Survey.Trace

/-! How many fetches a survey has under way at once. In whatever order fetches start and are
answered, those under way are of one batch, no batch is begun before all fetches of the earlier ones
are completed, and nothing is merged while a fetch is under way. -/

namespace CodeCensus.Survey

/-! ## What a log tells of a point -/

/-- The batches that are closed are fetched and completed, and of the open one so much as the phases
of its slots say. -/
structure Tracks (s : Settings) (jobs : List Job) (log : List Action) (x : Progress)
    (closed : List (List Job)) : Prop where
  batches : closed ++ (x.current.map (List.map Slot.job)).toList ++ x.later = jobBatches s jobs
  begun : x.begun = closed.length + x.current.toList.length
  started : (starts log).Perm
    (placesFrom 1 closed ++ slotPlaces Phase.isStarted x.begun x.openSlots)
  completed : (completions log).Perm
    ((placesFrom 1 closed ++ slotPlaces Phase.isDone x.begun x.openSlots).map Prod.fst)
  fetched : x.steps.filterMap Step.path? = (starts log).map fun (_, job) => job.entry.path

section tracks

variable {r : Registry} {s : Settings} {total : Nat} {jobs : List Job} {x y : Progress}
  {log : List Action} {action : Action} {closed : List (List Job)}

theorem starts_concat (log : List Action) (action : Action) :
    starts (log ++ [action]) = starts log ++ action.started?.toList := by
  rw [starts, List.filterMap_append]
  cases action <;> rfl

theorem completions_concat (log : List Action) (action : Action) :
    completions (log ++ [action]) = completions log ++ action.completed?.toList := by
  rw [completions, List.filterMap_append]
  cases action <;> rfl

theorem tracks_start (s : Settings) (jobs : List Job) :
    Tracks s jobs [] (Progress.start s jobs) [] :=
  ⟨rfl, rfl, .nil, .nil, rfl⟩

theorem Acts.exists_tracks (h : Acts r s total x action y) (hx : Tracks s jobs log x closed) :
    ∃ closed', Tracks s jobs (log ++ [action]) y closed' := by
  obtain ⟨hbatches, hbegun, hstarted, hcompleted, hfetched⟩ := hx
  cases h with
  | @begin begun tally batch later steps =>
    refine ⟨closed, by simpa [Function.comp_def] using hbatches, ?_, ?_, ?_, ?_⟩
    · change begun + 1 = closed.length + 1
      exact congrArg (· + 1) hbegun
    · change (starts _).Perm (_ ++ slotPlaces _ (begun + 1) _)
      rw [starts_concat, Progress.openSlots, Option.getD_some, slotPlaces_waiting rfl]
      simpa [slotPlaces, Progress.openSlots, Action.started?] using hstarted
    · change (completions _).Perm ((_ ++ slotPlaces _ (begun + 1) _).map _)
      rw [completions_concat, Progress.openSlots, Option.getD_some, slotPlaces_waiting rfl]
      simpa [slotPlaces, Progress.openSlots, Action.completed?] using hcompleted
    · rw [starts_concat]
      simpa [Action.started?, List.filterMap_cons] using hfetched
  | @start begun tally before after job later steps =>
    refine ⟨closed, by simpa using hbatches, hbegun, ?_, ?_, ?_⟩
    · rw [starts_concat]
      exact perm_concat hstarted (slotPlaces_perm ⟨job, .waiting⟩ _ rfl rfl)
    · rw [completions_concat]
      have hslots : slotPlaces Phase.isDone begun (before ++ ⟨job, .inFlight⟩ :: after) = _ :=
        slotPlaces_congr _ ⟨job, .waiting⟩ rfl rfl
      simpa [Action.completed?, Progress.openSlots, hslots] using hcompleted
    · rw [starts_concat]
      simpa [Action.started?, List.filterMap_cons] using hfetched
  | @answer begun tally before after job later steps =>
    refine ⟨closed, by simpa using hbatches, hbegun, ?_, ?_, ?_⟩
    · rw [starts_concat]
      have hslots : slotPlaces Phase.isStarted begun
          (before ++ ⟨job, .done (job.file? r s)⟩ :: after) = _ :=
        slotPlaces_congr _ ⟨job, .inFlight⟩ rfl rfl
      simpa [Action.started?, Progress.openSlots, hslots] using hstarted
    · rw [completions_concat, List.map_append]
      rw [List.map_append] at hcompleted
      exact perm_concat hcompleted ((slotPlaces_perm ⟨job, .inFlight⟩ _ rfl rfl).map _)
    · rw [starts_concat, List.filterMap_append, filterMap_map_report fun _ => rfl]
      simpa [Action.started?] using hfetched
  | @close begun tally slots files later steps hdone =>
    have hclosed : placesFrom 1 (closed ++ [slots.map Slot.job]) =
        placesFrom 1 closed ++ batchPlaces begun (slots.map Slot.job) := by
      rw [placesFrom_append, show 1 + closed.length = begun by simpa [Nat.add_comm] using hbegun.symm]
      simp [placesFrom]
    refine ⟨closed ++ [slots.map Slot.job], by simpa using hbatches, by simpa using hbegun, ?_, ?_, ?_⟩
    · rw [starts_concat, hclosed, ← slotPlaces_done (p := Phase.isStarted) hdone fun _ => rfl]
      simpa [Action.started?, Progress.openSlots, slotPlaces] using hstarted
    · rw [completions_concat, hclosed, ← slotPlaces_done (p := Phase.isDone) hdone fun _ => rfl]
      simpa [Action.completed?, Progress.openSlots, slotPlaces] using hcompleted
    · have hpause := filterMap_between s later Step.path? fun _ => rfl
      rw [← pauseAfter_eq] at hpause
      rw [starts_concat]
      simpa [Action.started?, hpause] using hfetched

theorem Runs.exists_tracks (h : Runs r s total (Progress.start s jobs) log x) :
    ∃ closed, Tracks s jobs log x closed := by
  induction h with
  | nil => exact ⟨[], tracks_start s jobs⟩
  | snoc _ hact ih =>
    obtain ⟨closed, htracks⟩ := ih
    exact hact.exists_tracks htracks

theorem Tracks.begun_eq (h : Tracks s jobs log x closed) {slots : List Slot}
    (hslots : x.current = some slots) : x.begun = closed.length + 1 := by
  rw [h.begun, hslots]
  rfl

theorem Tracks.placedJobs_eq (h : Tracks s jobs log x closed) : placedJobs s jobs =
    placesFrom 1 closed ++ placesFrom (1 + closed.length)
      ((x.current.map (List.map Slot.job)).toList ++ x.later) := by
  rw [← placesFrom_jobBatches, ← h.batches, List.append_assoc, placesFrom_append]

/-- All fetches of closed batches are completed. -/
theorem Tracks.mem_completions (h : Tracks s jobs log x closed) {place : Place}
    (hplace : place ∈ (placedJobs s jobs).map Prod.fst) (hbatch : place.batch ≤ closed.length) :
    place ∈ completions log := by
  obtain ⟨item, hitem, rfl⟩ := List.mem_map.mp hplace
  rw [h.placedJobs_eq] at hitem
  rcases List.mem_append.mp hitem with hitem | hitem
  · exact h.completed.mem_iff.mpr (List.mem_map_of_mem (List.mem_append_left _ hitem))
  · have := (batch_of_mem_placesFrom hitem).1
    omega

theorem Tracks.not_mem_closed (h : Tracks s jobs log x closed) {slots : List Slot}
    (hslots : x.current = some slots) (index : Nat) :
    ⟨x.begun, index⟩ ∉ (placesFrom 1 closed).map Prod.fst := by
  intro hmem
  obtain ⟨item, hitem, hplace⟩ := List.mem_map.mp hmem
  have hbatch : item.1.batch = x.begun := congrArg Place.batch hplace
  have := (batch_of_mem_placesFrom hitem).2
  have := h.begun_eq hslots
  omega

/-- What is in flight by the log is what is in flight in the open batch. -/
theorem Tracks.inFlight_perm (h : Tracks s jobs log x closed) : (inFlight log).Perm
    ((slotPlaces Phase.isInFlight x.begun x.openSlots).map Prod.fst) := by
  have hperm := (h.started.map Prod.fst).filter fun place => place ∉ completions log
  have hclosed : ((placesFrom 1 closed).map Prod.fst).filter
      (fun place => place ∉ completions log) = [] := by
    refine List.filter_eq_nil_iff.mpr fun place hplace => ?_
    have hmem : place ∈ completions log := by
      rw [h.completed.mem_iff, List.map_append]
      exact List.mem_append_left _ hplace
    simpa using hmem
  rw [List.map_append, List.filter_append, hclosed, List.nil_append] at hperm
  rwa [filter_slotPlaces fun index slot hslot => ?_] at hperm
  have hslots : x.current = some x.openSlots := by
    cases hcurrent : x.current with
    | none => simp [Progress.openSlots, hcurrent] at hslot
    | some slots => simp [Progress.openSlots, hcurrent]
  have hmem : ⟨x.begun, index⟩ ∈ completions log ↔ slot.phase.isDone = true := by
    rw [h.completed.mem_iff, List.map_append, List.mem_append,
      or_iff_right (h.not_mem_closed hslots index), mem_map_slotPlaces hslot]
  simp only [hmem, decide_not, Bool.decide_eq_true]

theorem Tracks.mem_inFlight_iff (h : Tracks s jobs log x closed) {slots : List Slot} {index : Nat}
    {slot : Slot} (hslots : x.current = some slots) (hslot : slots[index]? = some slot) :
    ⟨x.begun, index⟩ ∈ inFlight log ↔ slot.phase.isInFlight = true := by
  rw [h.inFlight_perm.mem_iff, Progress.openSlots, hslots, Option.getD_some,
    mem_map_slotPlaces hslot]

theorem Tracks.batch_of_mem_inFlight (h : Tracks s jobs log x closed) {place : Place}
    (hplace : place ∈ inFlight log) : place.batch = x.begun := by
  obtain ⟨item, hitem, rfl⟩ := List.mem_map.mp (h.inFlight_perm.mem_iff.mp hplace)
  exact (mem_slotPlaces.mp hitem).1

theorem Tracks.length_inFlight_le (h : Tracks s jobs log x closed) :
    (inFlight log).length ≤ s.batchSize := by
  rw [h.inFlight_perm.length_eq, List.length_map]
  refine Nat.le_trans (length_slotPlaces_le _ _ _) ?_
  cases hslots : x.current with
  | none => simp [Progress.openSlots, hslots]
  | some slots =>
    have hbatch : slots.map Slot.job ∈ jobBatches s jobs := by
      rw [← h.batches, hslots]
      simp
    have := (length_of_mem_batches s.batchSize_pos hbatch).2
    simpa [Progress.openSlots, hslots] using this

/-- The entry of a slot of the open batch is the one that has its place. -/
theorem Tracks.mem_placedJobs (h : Tracks s jobs log x closed) {slots : List Slot} {index : Nat}
    {slot : Slot} (hslots : x.current = some slots) (hslot : slots[index]? = some slot) :
    (⟨x.begun, index⟩, slot.job) ∈ placedJobs s jobs := by
  have hopen : (⟨x.begun, index⟩, slot.job) ∈ batchPlaces x.begun (slots.map Slot.job) := by
    rw [← slotPlaces_all (p := fun _ => true) fun _ _ => rfl]
    exact mem_slotPlaces.mpr ⟨rfl, slot, hslot, rfl, rfl⟩
  rw [h.placedJobs_eq, hslots, Nat.add_comm, ← h.begun_eq hslots]
  exact List.mem_append_right _ (List.mem_append_left _ hopen)

theorem Tracks.not_mem_starts (h : Tracks s jobs log x closed) {slots : List Slot} {index : Nat}
    {slot : Slot} (hslots : x.current = some slots) (hslot : slots[index]? = some slot)
    (hwaiting : slot.phase.isStarted = false) :
    ⟨x.begun, index⟩ ∉ (starts log).map Prod.fst := by
  rw [(h.started.map Prod.fst).mem_iff, List.map_append, List.mem_append, Progress.openSlots, hslots,
    Option.getD_some, mem_map_slotPlaces hslot, hwaiting]
  rintro (hmem | hmem)
  · exact h.not_mem_closed hslots index hmem
  · exact absurd hmem (by simp)

theorem Tracks.of_isFinal (h : Tracks s jobs log x closed) (hx : x.IsFinal) :
    (starts log).Perm (placedJobs s jobs) ∧
      (completions log).Perm ((placedJobs s jobs).map Prod.fst) := by
  have hopen : x.openSlots = [] := by simp [Progress.openSlots, hx.1]
  have hall : placedJobs s jobs = placesFrom 1 closed := by
    rw [h.placedJobs_eq, hx.1, hx.2]
    simp [placesFrom]
  have hstarted := h.started
  have hcompleted := h.completed
  rw [hopen, slotPlaces_none (by simp), List.append_nil, ← hall] at hstarted hcompleted
  exact ⟨hstarted, hcompleted⟩

end tracks

/-! ## Every run -/

/-- What a log has to tell so that fetches keep to their batches. -/
structure KeepsToBatches (s : Settings) (jobs : List Job) (log : List Action) : Prop where
  bounded : (inFlight log).length ≤ s.batchSize
  together : ∀ place ∈ inFlight log, ∀ other ∈ inFlight log, place.batch = other.batch
  started : ∀ before place job after, log = before ++ .started place job :: after →
    (place, job) ∈ placedJobs s jobs ∧ place ∉ (starts before).map Prod.fst ∧
      ∀ other ∈ (placedJobs s jobs).map Prod.fst, other.batch < place.batch →
        other ∈ completions before
  completed : ∀ before place after, log = before ++ .completed place :: after →
    place ∈ inFlight before
  merged : ∀ before batch after, log = before ++ .merged batch :: after →
    inFlight before = [] ∧
      ∀ other ∈ (placedJobs s jobs).map Prod.fst, other.batch ≤ batch → other ∈ completions before

/-- A survey that reads the entries of `jobs` comes from its start to a point. -/
def Arrives (r : Registry) (s : Settings) (jobs : List Job) (log : List Action) (x : Progress) :
    Prop :=
  Runs r s (jobBatches s jobs).length (Progress.start s jobs) log x

section whole

variable {r : Registry} {s : Settings} {total : Nat} {jobs : List Job} {x y : Progress}
  {log before after : List Action} {place : Place} {job : Job}

theorem Runs.started_spec
    (h : Runs r s total (Progress.start s jobs) (before ++ .started place job :: after) x) :
    (place, job) ∈ placedJobs s jobs ∧ place ∉ (starts before).map Prod.fst ∧
      ∀ other ∈ (placedJobs s jobs).map Prod.fst, other.batch < place.batch →
        other ∈ completions before := by
  obtain ⟨y, y', hrun, hact⟩ := h.exists_acts
  obtain ⟨closed, htracks⟩ := hrun.exists_tracks
  cases hact with
  | @start begun tally front back job later steps =>
    have hslot : (front ++ ⟨job, .waiting⟩ :: back)[front.length]? = some ⟨job, .waiting⟩ := by simp
    refine ⟨htracks.mem_placedJobs rfl hslot, htracks.not_mem_starts rfl hslot rfl,
      fun other hother hbatch => htracks.mem_completions hother ?_⟩
    have hbegun : begun = closed.length + 1 := htracks.begun_eq rfl
    have hlt : other.batch < begun := hbatch
    omega

theorem Runs.completed_spec
    (h : Runs r s total (Progress.start s jobs) (before ++ .completed place :: after) x) :
    place ∈ inFlight before := by
  obtain ⟨y, y', hrun, hact⟩ := h.exists_acts
  obtain ⟨closed, htracks⟩ := hrun.exists_tracks
  cases hact with
  | @answer begun tally front back job later steps =>
    have hslot : (front ++ ⟨job, .inFlight⟩ :: back)[front.length]? = some ⟨job, .inFlight⟩ := by simp
    exact (htracks.mem_inFlight_iff rfl hslot).mpr rfl

theorem Runs.merged_spec {batch : Nat}
    (h : Runs r s total (Progress.start s jobs) (before ++ .merged batch :: after) x) :
    inFlight before = [] ∧
      ∀ other ∈ (placedJobs s jobs).map Prod.fst, other.batch ≤ batch →
        other ∈ completions before := by
  obtain ⟨y, y', hrun, hact⟩ := h.exists_acts
  -- what is completed is said of the point after the move, at which the batch is closed
  obtain ⟨closed, htracks⟩ := (hrun.snoc hact).exists_tracks
  have hcompletions : completions (before ++ [.merged batch]) = completions before := by
    simp [completions_concat, Action.completed?]
  have hinFlight : inFlight (before ++ [.merged batch]) = inFlight before := by
    simp [inFlight, starts_concat, Action.started?, hcompletions]
  cases hact with
  | @close begun tally slots files later steps hdone =>
    refine ⟨?_, fun other hother hbatch => ?_⟩
    · rw [← hinFlight]
      exact htracks.inFlight_perm.eq_nil
    · rw [← hcompletions]
      have hbegun : batch = closed.length := htracks.begun
      exact htracks.mem_completions hother (hbegun ▸ hbatch)

theorem Runs.keepsToBatches (h : Runs r s total (Progress.start s jobs) log x) :
    KeepsToBatches s jobs log := by
  obtain ⟨closed, htracks⟩ := h.exists_tracks
  refine ⟨htracks.length_inFlight_le, fun place hplace other hother => ?_,
    fun before place job after hlog => ?_, fun before place after hlog => ?_,
    fun before batch after hlog => ?_⟩
  · rw [htracks.batch_of_mem_inFlight hplace, htracks.batch_of_mem_inFlight hother]
  · exact (hlog ▸ h).started_spec
  · exact (hlog ▸ h).completed_spec
  · exact (hlog ▸ h).merged_spec

theorem map_snd_placedJobs (s : Settings) (jobs : List Job) :
    (placedJobs s jobs).map Prod.snd = selectJobs s jobs := by
  rw [placedJobs, List.map_map]
  exact List.zipIdx_map_fst 0 _

theorem nodup_placedJobs (s : Settings) (jobs : List Job) :
    ((placedJobs s jobs).map Prod.fst).Nodup := by
  have hplaces : (placedJobs s jobs).map Prod.fst =
      (List.range' 0 (selectJobs s jobs).length).map fun n =>
        ⟨n / s.batchSize + 1, n % s.batchSize⟩ := by
    rw [← List.zipIdx_map_snd, placedJobs, List.map_map, List.map_map]
    rfl
  rw [hplaces]
  refine List.Nodup.map (fun n m hplace => ?_) (List.nodup_range' ..)
  have hdiv : n / s.batchSize = m / s.batchSize := Nat.succ.inj (congrArg Place.batch hplace)
  have hmod : n % s.batchSize = m % s.batchSize := congrArg Place.index hplace
  rw [← Nat.div_add_mod n s.batchSize, ← Nat.div_add_mod m s.batchSize, hdiv, hmod]

/-- All fetches of a batch may be under way at once. -/
theorem leads_inFlight {begun : Nat} {tally : Tally} {later : List (List Job)} (front : List Slot)
    (jobs : List Job) (steps : List Step) : ∃ steps', Leads r s total
      ⟨begun, tally, some (front ++ jobs.map fun job => ⟨job, .waiting⟩), later, steps⟩
      ⟨begun, tally, some (front ++ jobs.map fun job => ⟨job, .inFlight⟩), later, steps'⟩ := by
  induction jobs generalizing front steps with
  | nil => exact ⟨steps, .refl⟩
  | cons job jobs ih =>
    obtain ⟨steps', hrest⟩ := ih (front ++ [⟨job, .inFlight⟩]) (steps ++ [.fetch job.entry.path])
    refine ⟨steps', .head .start ?_⟩
    change Leads r s total _ _
    simpa using hrest

theorem exists_arrives_full (r : Registry) (s : Settings) (jobs : List Job) :
    ∃ log x, Arrives r s jobs log x ∧
      (inFlight log).length = min s.batchSize (selectJobs s jobs).length := by
  cases hselected : selectJobs s jobs with
  | nil => exact ⟨[], _, .nil, by simp [inFlight, starts]⟩
  | cons job rest =>
    let batch := (job :: rest).take s.batchSize
    let later := stretches s.batchSize rest.length ((job :: rest).drop s.batchSize)
    have hbatches : jobBatches s jobs = batch :: later := by
      rw [jobBatches, hselected]
      rfl
    obtain ⟨steps, hfull⟩ : ∃ steps, Leads r s (jobBatches s jobs).length (Progress.start s jobs)
        ⟨1, .empty, some (batch.map fun job => ⟨job, .inFlight⟩), later, steps⟩ := by
      obtain ⟨steps, hopen⟩ := leads_inFlight [] batch _
      refine ⟨steps, .head ?_ hopen⟩
      rw [Progress.start, hbatches]
      exact .begin
    obtain ⟨log, hlog⟩ := leads_iff_exists_runs.mp hfull
    obtain ⟨closed, htracks⟩ := hlog.exists_tracks
    refine ⟨log, _, hlog, ?_⟩
    rw [htracks.inFlight_perm.length_eq, List.length_map, slotPlaces_all fun slot hslot => ?_]
    · simp [batchPlaces, Progress.openSlots, batch]
    · have hmem : slot ∈ batch.map fun job => (⟨job, .inFlight⟩ : Slot) := hslot
      obtain ⟨_, -, rfl⟩ := List.mem_map.mp hmem
      rfl

/-- However the fetches of a survey interleave, those under way are at most as many as a batch has
entries, and that many may be; they are of one batch, which is not begun before all fetches of the
earlier ones are completed; nothing is merged while one is under way; and at the end each entry that
is read has been fetched once, at its place. -/
theorem runs_keepToBatches (r : Registry) (s : Settings) (jobs : List Job) :
    ((placedJobs s jobs).map Prod.snd = selectJobs s jobs ∧
      ((placedJobs s jobs).map Prod.fst).Nodup) ∧
    (∀ x, Leads r s (jobBatches s jobs).length (Progress.start s jobs) x ↔
      ∃ log, Arrives r s jobs log x) ∧
    (∀ log x, Arrives r s jobs log x →
      KeepsToBatches s jobs log ∧
      (inFlight log).Perm ((slotPlaces Phase.isInFlight x.begun x.openSlots).map Prod.fst) ∧
      x.steps.filterMap Step.path? = (starts log).map (fun item => item.2.entry.path) ∧
      (x.IsFinal → (starts log).Perm (placedJobs s jobs) ∧
        (completions log).Perm ((placedJobs s jobs).map Prod.fst))) ∧
    (∃ log x, Arrives r s jobs log x ∧
      (inFlight log).length = min s.batchSize (selectJobs s jobs).length) ∧
    (∃ log x, Arrives r s jobs log x ∧ x.IsFinal) ∧
    ∀ (repo : String) (source : Source), source.list = .ok (jobs.map Job.entry) →
      (∀ job ∈ jobs, source.fetch job.entry.path = job.answer) →
        ∃ log x, Arrives r s jobs log x ∧ x.IsFinal ∧
          (run r s repo source).outcome = .ok (Census.ofTally x.tally (jobs.map Job.entry)) ∧
          (run r s repo source).fetched = (starts log).map fun item => item.2.entry.path := by
  refine ⟨⟨map_snd_placedJobs s jobs, nodup_placedJobs s jobs⟩, fun x => leads_iff_exists_runs,
    fun log x h => ?_, exists_arrives_full r s jobs, ?_, fun repo source hlist hfetch => ?_⟩
  · obtain ⟨closed, htracks⟩ := h.exists_tracks
    exact ⟨h.keepsToBatches, htracks.inFlight_perm, htracks.fetched, htracks.of_isFinal⟩
  · obtain ⟨x, hx, hfinal⟩ := exists_leads_isFinal r s (jobBatches s jobs).length
      (Progress.start s jobs)
    obtain ⟨log, hlog⟩ := leads_iff_exists_runs.mp hx
    exact ⟨log, x, hlog, hfinal⟩
  · obtain ⟨x, hx, hfinal, houtcome, hsteps⟩ := completes_run (r := r) (s := s) repo source
      hlist hfetch
    obtain ⟨log, hlog⟩ := leads_iff_exists_runs.mp hx
    obtain ⟨closed, htracks⟩ := hlog.exists_tracks
    refine ⟨log, x, hlog, hfinal, houtcome, ?_⟩
    rw [fetched_eq, hsteps]
    simpa [List.filterMap_cons] using htracks.fetched

/-- Of four entries in batches of three, three fetches are under way at most. -/
theorem runs_keepToBatches_byThrees :
    (placedJobs byThrees fourJobs).map Prod.fst = [⟨1, 0⟩, ⟨1, 1⟩, ⟨1, 2⟩, ⟨2, 0⟩] ∧
    (∃ log x, Arrives .standard byThrees fourJobs log x ∧
      KeepsToBatches byThrees fourJobs log ∧ (inFlight log).length = 3) ∧
    ∃ log x, Arrives .standard byThrees fourJobs log x ∧ x.IsFinal ∧
      KeepsToBatches byThrees fourJobs log ∧
      (completions log).Perm [⟨1, 0⟩, ⟨1, 1⟩, ⟨1, 2⟩, ⟨2, 0⟩] := by
  have hplaces : (placedJobs byThrees fourJobs).map Prod.fst =
      [⟨1, 0⟩, ⟨1, 1⟩, ⟨1, 2⟩, ⟨2, 0⟩] := by decide +kernel
  have hselected : (selectJobs byThrees fourJobs).length = 4 := by decide +kernel
  obtain ⟨-, -, hruns, ⟨log, x, hlog, hfull⟩, ⟨log', x', hlog', hfinal⟩, -⟩ :=
    runs_keepToBatches .standard byThrees fourJobs
  obtain ⟨hkeeps', -, -, hend⟩ := hruns log' x' hlog'
  refine ⟨hplaces, ⟨log, x, hlog, (hruns log x hlog).1, ?_⟩, log', x', hlog', hfinal, hkeeps', ?_⟩
  · rw [hfull, hselected]
    rfl
  · rw [← hplaces]
    exact (hend hfinal).2

end whole

end CodeCensus.Survey
