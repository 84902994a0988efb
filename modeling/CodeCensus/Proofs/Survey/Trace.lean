import CodeCensus.Proofs.SourceFile.Outcome
import CodeCensus.Proofs.Survey.Batching

/-! What a survey leaves in its log, in whatever order its fetches start and are answered: the
batches are announced one after another, and between two announcements every entry of a batch is
fetched once and accounted for once. -/

namespace CodeCensus

namespace Step

@[simp] def event? : Step → Option Event
  | .report e => some e
  | _ => none

@[simp] def path? : Step → Option String
  | .fetch path => some path
  | _ => none

@[simp] def pause? : Step → Option Double
  | .pause d => some d
  | _ => none

end Step

def Event.isFileParsed : Event → Bool
  | .fileParsed _ => true
  | _ => false

def Event.isParseDegraded : Event → Bool
  | .parseDegraded _ _ => true
  | _ => false

/-- A file whose analysis failed is reported right after the failure. -/
def Event.DegradedFollowed (events : List Event) : Prop :=
  ∀ before path fault after, events = before ++ .parseDegraded path fault :: after →
    ∃ file rest, after = .fileParsed file :: rest ∧ file.path = path

namespace Survey

theorem events_eq (s : Survey) : s.events = s.steps.filterMap Step.event? := by
  refine List.filterMap_congr fun step _ => ?_
  cases step <;> rfl

theorem fetched_eq (s : Survey) : s.fetched = s.steps.filterMap Step.path? := by
  refine List.filterMap_congr fun step _ => ?_
  cases step <;> rfl

theorem pauses_eq (s : Survey) : s.pauses = s.steps.filterMap Step.pause? := by
  refine List.filterMap_congr fun step _ => ?_
  cases step <;> rfl

/-! ## What one entry reports -/

/-- What is reported of an entry whose fetch is answered: that it failed, that it brought nothing, or
what became of the file. A file whose analysis failed is reported at once after the failure. -/
inductive Job.Reports (r : Registry) (s : Settings) (job : Job) : List Event → Prop
  | failed {failure : Failure} (answer : job.answer = .error failure) :
    job.Reports r s [.fetchFailed job.entry.path failure.text]
  | empty (answer : job.answer = .ok "") : job.Reports r s [.emptyContent job.entry.path]
  | parsed {content : String} {file : SourceFile} (answer : job.answer = .ok content)
    (nonempty : content ≠ "") (path : file.path = job.entry.path)
    (parse : SourceFile.parse r s.maxContentChars job.entry.path content = (file, none)) :
    job.Reports r s [.fileParsed file]
  | degraded {content : String} {file : SourceFile} {fault : Fault}
    (answer : job.answer = .ok content) (nonempty : content ≠ "") (path : file.path = job.entry.path)
    (parse : SourceFile.parse r s.maxContentChars job.entry.path content = (file, some fault)) :
    job.Reports r s [.parseDegraded job.entry.path fault, .fileParsed file]

section reports

variable {r : Registry} {s : Settings} {job : Job}

theorem reports_surveyAnswer (r : Registry) (s : Settings) (job : Job) :
    job.Reports r s (surveyAnswer r s job.entry.path job.answer).2 := by
  obtain ⟨entry, answer⟩ := job
  cases answer with
  | error failure => exact .failed rfl
  | ok content =>
    by_cases hempty : content = ""
    · subst hempty
      exact .empty rfl
    · have hnot : ¬ content.isEmpty = true := by simpa using hempty
      have hpath := SourceFile.path_parse r s.maxContentChars entry.path content
      simp only [surveyAnswer, if_neg hnot]
      generalize hparse : SourceFile.parse r s.maxContentChars entry.path content = parsed at hpath
      obtain ⟨file, fault⟩ := parsed
      cases fault with
      | none => exact .parsed rfl hempty hpath hparse
      | some fault => exact .degraded rfl hempty hpath hparse

/-- An entry reports a file exactly if it has one to be tallied. -/
theorem Job.Reports.countP_isFileParsed {reports : List Event} (h : job.Reports r s reports) :
    reports.countP Event.isFileParsed = (job.file? r s).toList.length := by
  obtain ⟨entry, answer⟩ := job
  cases h with
  | failed hanswer =>
    obtain rfl : answer = _ := hanswer
    rfl
  | empty hanswer =>
    obtain rfl : answer = _ := hanswer
    rfl
  | @parsed content file hanswer hnonempty hpath hparse =>
    obtain rfl : answer = _ := hanswer
    have hnot : ¬ content.isEmpty = true := by simpa using hnonempty
    simp only [Job.file?, surveyAnswer, if_neg hnot]
    rfl
  | @degraded content file fault hanswer hnonempty hpath hparse =>
    obtain rfl : answer = _ := hanswer
    have hnot : ¬ content.isEmpty = true := by simpa using hnonempty
    simp only [Job.file?, surveyAnswer, if_neg hnot]
    rfl

theorem Job.Reports.answer_of_fetchFailed {reports : List Event} {path error : String}
    (h : job.Reports r s reports) (hmem : .fetchFailed path error ∈ reports) :
    ∃ failure, job.answer = .error failure := by
  cases h with
  | failed hanswer => exact ⟨_, hanswer⟩
  | empty hanswer => simp at hmem
  | parsed hanswer nonempty path parse => simp at hmem
  | degraded hanswer nonempty path parse => simp at hmem

theorem degradedFollowed_append {first second : List Event} (hfirst : Event.DegradedFollowed first)
    (hsecond : Event.DegradedFollowed second) : Event.DegradedFollowed (first ++ second) := by
  intro before path fault after hsplit
  rcases List.append_eq_append_iff.mp hsplit with ⟨middle, rfl, hmiddle⟩ | ⟨middle, rfl, hmiddle⟩
  · exact hsecond middle path fault after hmiddle
  · cases middle with
    | nil => exact hsecond [] path fault after hmiddle.symm
    | cons event middle =>
      obtain ⟨rfl, rfl⟩ := List.cons.inj hmiddle
      obtain ⟨file, rest, rfl, hpath⟩ := hfirst before path fault middle rfl
      exact ⟨file, rest ++ second, rfl, hpath⟩

theorem degradedFollowed_singleton {event : Event} (h : event.isParseDegraded = false) :
    Event.DegradedFollowed [event] := by
  intro before path fault after hsplit
  have hmem : Event.parseDegraded path fault ∈ [event] := by
    rw [hsplit]
    exact List.mem_append_right _ (List.mem_cons_self ..)
  rw [← List.mem_singleton.mp hmem] at h
  cases h

theorem Job.Reports.degradedFollowed {reports : List Event} (h : job.Reports r s reports) :
    Event.DegradedFollowed reports := by
  cases h with
  | failed => exact degradedFollowed_singleton rfl
  | empty => exact degradedFollowed_singleton rfl
  | parsed => exact degradedFollowed_singleton rfl
  | @degraded content file fault hanswer hnonempty hpath hparse =>
    have hfile : Event.DegradedFollowed [.fileParsed file] :=
      degradedFollowed_singleton rfl
    intro before path fault after hsplit
    cases before with
    | nil =>
      obtain ⟨hevent, rfl⟩ := List.cons.inj hsplit
      cases hevent
      exact ⟨file, [], rfl, hpath⟩
    | cons event before => exact hfile before path fault after (List.cons.inj hsplit).2

theorem degradedFollowed_flatten {order : List Job} {reports : List (List Event)}
    (h : List.Forall₂ (Job.Reports r s) order reports) :
    Event.DegradedFollowed reports.flatten := by
  induction h with
  | nil => exact fun before path fault after hsplit => absurd hsplit.symm (by simp)
  | cons hfirst hrest ih =>
    rw [List.flatten_cons]
    exact degradedFollowed_append hfirst.degradedFollowed ih

end reports

/-! ## What one batch leaves behind -/

/-- Steps by which some entries are fetched and some are reported, each once, without a pause. -/
structure Serves (r : Registry) (s : Settings) (fetching reporting : List Job) (steps : List Step) :
    Prop where
  fetches : (steps.filterMap Step.path?).Perm (fetching.map fun job => job.entry.path)
  reports : ∃ (order : List Job) (reports : List (List Event)), order.Perm reporting ∧
    List.Forall₂ (Job.Reports r s) order reports ∧ steps.filterMap Step.event? = reports.flatten
  pauses : steps.filterMap Step.pause? = []

/-- What the batches with the numbers from `index` on leave behind: each is announced with its number
and its size, its entries are fetched and reported, and settings that ask for a pause get one before
the next batch. -/
inductive Logged (r : Registry) (s : Settings) (total : Nat) :
    Nat → List (List Job) → List Step → Prop
  | nil (index : Nat) : Logged r s total index [] []
  | cons {index : Nat} {batch : List Job} {later : List (List Job)} {body rest : List Step}
    (serves : Serves r s batch batch body) (logged : Logged r s total (index + 1) later rest) :
    Logged r s total index (batch :: later)
      (.report (.batchStarted index total batch.length) :: body ++
        (if later ≠ [] ∧ s.batchDelay.positive = true then [.pause s.batchDelay] else []) ++ rest)

section serves

variable {r : Registry} {s : Settings} {fetching reporting : List Job} {steps : List Step}

theorem serves_nil (r : Registry) (s : Settings) : Serves r s [] [] [] :=
  ⟨.nil, ⟨[], [], .nil, .nil, rfl⟩, rfl⟩

theorem Serves.perm {fetching' reporting' : List Job} (h : Serves r s fetching reporting steps)
    (hfetching : fetching.Perm fetching') (hreporting : reporting.Perm reporting') :
    Serves r s fetching' reporting' steps := by
  obtain ⟨hfetches, ⟨order, reports, horder, hreports, hevents⟩, hpauses⟩ := h
  exact ⟨hfetches.trans (hfetching.map _), ⟨order, reports, horder.trans hreporting, hreports, hevents⟩,
    hpauses⟩

theorem Serves.fetch (h : Serves r s fetching reporting steps) (job : Job) :
    Serves r s (job :: fetching) reporting (.fetch job.entry.path :: steps) := by
  obtain ⟨hfetches, hreports, hpauses⟩ := h
  exact ⟨hfetches.cons job.entry.path, hreports, hpauses⟩

theorem filterMap_event?_map_report (events : List Event) :
    (events.map Step.report).filterMap Step.event? = events := by
  rw [List.filterMap_map]
  exact List.filterMap_some

theorem filterMap_map_report {α : Type} {f : Step → Option α} (hf : ∀ e, f (.report e) = none)
    (events : List Event) : (events.map Step.report).filterMap f = [] := by
  rw [List.filterMap_map]
  exact List.filterMap_eq_nil_iff.mpr fun e _ => hf e

theorem Serves.report (h : Serves r s fetching reporting steps) (job : Job) :
    Serves r s fetching (job :: reporting)
      ((surveyAnswer r s job.entry.path job.answer).2.map .report ++ steps) := by
  obtain ⟨hfetches, ⟨order, reports, horder, hreports, hevents⟩, hpauses⟩ := h
  refine ⟨?_, ⟨job :: order, _ :: reports, horder.cons job,
    .cons (reports_surveyAnswer r s job) hreports, ?_⟩, ?_⟩
  · rw [List.filterMap_append, filterMap_map_report fun _ => rfl, List.nil_append]
    exact hfetches
  · rw [List.filterMap_append, filterMap_event?_map_report, hevents, List.flatten_cons]
  · rw [List.filterMap_append, filterMap_map_report fun _ => rfl, List.nil_append]
    exact hpauses

theorem countP_isFileParsed_flatten {order : List Job} {reports : List (List Event)}
    (h : List.Forall₂ (Job.Reports r s) order reports) :
    reports.flatten.countP Event.isFileParsed =
      (order.filterMap fun job => job.file? r s).length := by
  induction h with
  | nil => rfl
  | @cons job first order reports hfirst hrest ih =>
    rw [List.flatten_cons, List.countP_append, hfirst.countP_isFileParsed, ih, List.filterMap_cons]
    cases job.file? r s with
    | none => exact Nat.zero_add _
    | some file => exact Nat.add_comm _ _

theorem answer_of_fetchFailed_flatten {order : List Job} {reports : List (List Event)} {path error : String}
    (h : List.Forall₂ (Job.Reports r s) order reports) (hmem : .fetchFailed path error ∈ reports.flatten) :
    ∃ job ∈ order, ∃ failure, job.answer = .error failure := by
  induction h with
  | nil => cases hmem
  | @cons job first order reports hfirst hrest ih =>
    rw [List.flatten_cons] at hmem
    rcases List.mem_append.mp hmem with hhere | hlater
    · exact ⟨job, List.mem_cons_self, hfirst.answer_of_fetchFailed hhere⟩
    · obtain ⟨other, hother, hanswer⟩ := ih hlater
      exact ⟨other, List.mem_cons_of_mem job hother, hanswer⟩

theorem Serves.countP_isFileParsed (h : Serves r s fetching reporting steps) :
    (steps.filterMap Step.event?).countP Event.isFileParsed =
      (reporting.filterMap fun job => job.file? r s).length := by
  obtain ⟨-, ⟨order, reports, horder, hreports, hevents⟩, -⟩ := h
  rw [hevents, countP_isFileParsed_flatten hreports]
  exact (horder.filterMap _).length_eq

end serves

/-! ## What all batches leave behind -/

section logged

variable {r : Registry} {s : Settings} {total index : Nat} {batches : List (List Job)}
  {steps : List Step}

theorem filterMap_between {α : Type} (s : Settings) (later : List (List Job)) (f : Step → Option α)
    (hf : ∀ d, f (.pause d) = none) :
    (if later ≠ [] ∧ s.batchDelay.positive = true then [Step.pause s.batchDelay]
      else []).filterMap f = [] := by
  split
  · rw [List.filterMap_cons_none (hf _), List.filterMap_nil]
  · rfl

theorem Logged.fetches (h : Logged r s total index batches steps) :
    (steps.filterMap Step.path?).Perm (batches.flatten.map fun job => job.entry.path) := by
  induction h with
  | nil => exact .nil
  | @cons index batch later body rest hbody hrest ih =>
    have hpause := filterMap_between s later Step.path? fun _ => rfl
    rw [List.cons_append, List.cons_append, List.filterMap_cons_none rfl, List.filterMap_append,
      List.filterMap_append, hpause, List.append_nil, List.flatten_cons, List.map_append]
    exact hbody.fetches.append ih

theorem Logged.countP_isFileParsed (h : Logged r s total index batches steps) :
    (steps.filterMap Step.event?).countP Event.isFileParsed =
      (batches.flatten.filterMap fun job => job.file? r s).length := by
  induction h with
  | nil => rfl
  | @cons index batch later body rest hbody hrest ih =>
    have hpause := filterMap_between s later Step.event? fun _ => rfl
    have hannounced : Event.isFileParsed (.batchStarted index total batch.length) = false := rfl
    simp [hpause, hannounced, hbody.countP_isFileParsed, ih, -List.append_assoc]

theorem Logged.degradedFollowed (h : Logged r s total index batches steps) :
    Event.DegradedFollowed (steps.filterMap Step.event?) := by
  induction h with
  | nil => exact degradedFollowed_flatten (r := r) (s := s) .nil
  | @cons index batch later body rest hbody hrest ih =>
    have hpause := filterMap_between s later Step.event? fun _ => rfl
    obtain ⟨-, ⟨order, reports, -, hreports, hevents⟩, -⟩ := hbody
    have hbatch : Event.DegradedFollowed [.batchStarted index total batch.length] :=
      degradedFollowed_singleton rfl
    have hserved := degradedFollowed_append hbatch (degradedFollowed_flatten hreports)
    rw [← hevents] at hserved
    simpa [hpause] using degradedFollowed_append hserved ih

/-- A failed fetch is reported only of an entry whose fetch was answered so. -/
theorem Logged.answer_of_fetchFailed {path error : String} (h : Logged r s total index batches steps)
    (hevent : .fetchFailed path error ∈ steps.filterMap Step.event?) :
    ∃ job ∈ batches.flatten, ∃ failure, job.answer = .error failure := by
  induction h with
  | nil => cases hevent
  | @cons index batch later body rest hbody hrest ih =>
    have hpause := filterMap_between s later Step.event? fun _ => rfl
    have hfirst : Step.event? (.report (.batchStarted index total batch.length)) =
        some (.batchStarted index total batch.length) := rfl
    rw [List.cons_append, List.cons_append, List.filterMap_cons_some hfirst, List.filterMap_append,
      List.filterMap_append, hpause, List.append_nil] at hevent
    rw [List.flatten_cons]
    rcases List.mem_cons.mp hevent with hannounced | hevent
    · cases hannounced
    rcases List.mem_append.mp hevent with hserved | hlater
    · obtain ⟨-, ⟨order, reports, horder, hreports, hevents⟩, -⟩ := hbody
      rw [hevents] at hserved
      obtain ⟨job, hjob, hanswer⟩ := answer_of_fetchFailed_flatten hreports hserved
      exact ⟨job, List.mem_append_left _ (horder.mem_iff.mp hjob), hanswer⟩
    · obtain ⟨job, hjob, hanswer⟩ := ih hlater
      exact ⟨job, List.mem_append_right _ hjob, hanswer⟩

theorem Logged.pauses (h : Logged r s total index batches steps) :
    steps.filterMap Step.pause? =
      List.replicate (if s.batchDelay.positive then batches.length - 1 else 0) s.batchDelay := by
  induction h with
  | nil => cases s.batchDelay.positive <;> rfl
  | @cons index batch later body rest hbody hrest ih =>
    rw [List.cons_append, List.cons_append, List.filterMap_cons_none rfl, List.filterMap_append,
      List.filterMap_append, hbody.pauses, List.nil_append, ih]
    cases hpositive : s.batchDelay.positive with
    | false => simp
    | true =>
      cases later with
      | nil => simp
      | cons next later => simp [List.replicate_succ]

end logged

/-! ## From any point to the end -/

section continuation

variable {r : Registry} {s : Settings} {total : Nat} {x y : Progress}

def Slot.waiting? : Slot → Option Job
  | ⟨job, .waiting⟩ => some job
  | _ => none

def Slot.open? : Slot → Option Job
  | ⟨_, .done _⟩ => none
  | ⟨job, _⟩ => some job

/-- What a survey still has to leave behind: the open batch serves the entries that are not fetched
or not answered yet, and the later batches follow. -/
def Progress.Continues (r : Registry) (s : Settings) (total : Nat) (x : Progress)
    (steps : List Step) : Prop :=
  match x.current with
  | none => Logged r s total (x.begun + 1) x.later steps
  | some slots => ∃ body rest,
    steps = body ++
      (if x.later ≠ [] ∧ s.batchDelay.positive = true then [.pause s.batchDelay] else []) ++ rest ∧
    Serves r s (slots.filterMap Slot.waiting?) (slots.filterMap Slot.open?) body ∧
    Logged r s total (x.begun + 1) x.later rest

theorem pauseAfter_eq (s : Settings) (later : List (List Job)) :
    pauseAfter s (later.map (List.map Job.entry)) =
      if later ≠ [] ∧ s.batchDelay.positive = true then [.pause s.batchDelay] else [] := by
  rw [pauseAfter]
  cases later with
  | nil => rfl
  | cons batch later => cases hpositive : s.batchDelay.positive <;> simp

theorem filterMap_slots {f : Slot → Option Job} {before after : List Slot} {slot : Slot} :
    (before ++ slot :: after).filterMap f =
      before.filterMap f ++ ((f slot).toList ++ after.filterMap f) := by
  rw [List.filterMap_append, List.filterMap_cons]
  cases f slot <;> rfl

theorem waiting_batch (batch : List Job) :
    ((batch.map fun job => (⟨job, .waiting⟩ : Slot)).filterMap Slot.waiting?) = batch ∧
      ((batch.map fun job => (⟨job, .waiting⟩ : Slot)).filterMap Slot.open?) = batch := by
  rw [List.filterMap_map, List.filterMap_map]
  exact ⟨List.filterMap_some, List.filterMap_some⟩

theorem filterMap_done {slots : List Slot} {files : List (Option SourceFile)}
    (h : slots.map Slot.phase = files.map .done) :
    slots.filterMap Slot.waiting? = [] ∧ slots.filterMap Slot.open? = [] := by
  have hdone : ∀ slot ∈ slots, ∃ file, slot.phase = .done file := by
    intro slot hslot
    have hphase : slot.phase ∈ files.map Phase.done := h ▸ List.mem_map_of_mem hslot
    obtain ⟨file, -, hfile⟩ := List.mem_map.mp hphase
    exact ⟨file, hfile.symm⟩
  rw [List.filterMap_eq_nil_iff, List.filterMap_eq_nil_iff]
  constructor
  · rintro ⟨job, phase⟩ hslot
    obtain ⟨file, hfile⟩ := hdone _ hslot
    obtain rfl : phase = .done file := hfile
    rfl
  · rintro ⟨job, phase⟩ hslot
    obtain ⟨file, hfile⟩ := hdone _ hslot
    obtain rfl : phase = .done file := hfile
    rfl

/-- A move adds to the log what is then no longer to be left behind. -/
theorem Moves.continues (h : Moves r s total x y) {later : List Step} (hy : y.Continues r s total later) :
    ∃ steps, y.steps = x.steps ++ steps ∧ x.Continues r s total (steps ++ later) := by
  cases h with
  | @begin begun tally batch batches steps =>
    obtain ⟨body, rest, rfl, hbody, hrest⟩ := hy
    rw [(waiting_batch batch).1, (waiting_batch batch).2] at hbody
    refine ⟨_, rfl, ?_⟩
    change Logged r s total (begun + 1) (batch :: batches) _
    have hlogged : Logged r s total (begun + 1) (batch :: batches) _ := .cons hbody hrest
    simpa only [List.nil_append, List.cons_append, List.append_assoc] using hlogged
  | @start begun tally before after job batches steps =>
    obtain ⟨body, rest, rfl, hbody, hrest⟩ := hy
    refine ⟨_, rfl, .fetch job.entry.path :: body, rest, ?_, ?_, hrest⟩
    · simp only [List.nil_append, List.cons_append]
    · rw [filterMap_slots, filterMap_slots] at hbody ⊢
      exact (hbody.fetch job).perm List.perm_middle.symm .rfl
  | @answer begun tally before after job batches steps =>
    obtain ⟨body, rest, rfl, hbody, hrest⟩ := hy
    refine ⟨_, rfl, (surveyAnswer r s job.entry.path job.answer).2.map .report ++ body, rest, ?_, ?_,
      hrest⟩
    · simp only [List.append_assoc]
    · rw [filterMap_slots, filterMap_slots] at hbody ⊢
      exact (hbody.report job).perm .rfl List.perm_middle.symm
  | @close begun tally slots files batches steps hdone =>
    refine ⟨_, rfl, [], later, ?_, ?_, hy⟩
    · rw [pauseAfter_eq, List.nil_append]
    · rw [(filterMap_done hdone).1, (filterMap_done hdone).2]
      exact serves_nil r s

/-- Whatever a survey does from some point on, it leaves behind what was still due there. -/
theorem Leads.continues (h : Leads r s total x y) (hy : y.IsFinal) :
    ∃ steps, y.steps = x.steps ++ steps ∧ x.Continues r s total steps := by
  induction h using Relation.ReflTransGen.head_induction_on with
  | refl =>
    obtain ⟨begun, tally, current, later, steps⟩ := y
    obtain ⟨rfl, rfl⟩ : current = none ∧ later = [] := hy
    exact ⟨[], (List.append_nil _).symm, .nil _⟩
  | head hmove _ ih =>
    obtain ⟨later, hsteps, hlater⟩ := ih
    obtain ⟨first, hfirst, hcontinues⟩ := hmove.continues hlater
    exact ⟨first ++ later, by rw [hsteps, hfirst, List.append_assoc], hcontinues⟩

end continuation

/-! ## The whole survey -/

/-- A survey of a repository that could be listed, with its fetches in some order. -/
def Completes (r : Registry) (s : Settings) (repo : String) (jobs : List Job) (survey : Survey) : Prop :=
  ∃ x, Leads r s (jobBatches s jobs).length (Progress.start s jobs) x ∧ x.IsFinal ∧
    survey.outcome = .ok (Census.ofTally x.tally (jobs.map Job.entry)) ∧
    survey.steps =
      [.report (.filesListed repo jobs.length),
        .report (.filesFiltered (selectJobs s jobs).length
          (jobs.length - (selectJobs s jobs).length))] ++
        x.steps ++ [.report (.analysisCompleted repo (Census.ofTally x.tally (jobs.map Job.entry)))]

/-- What a completed survey has done, once its selected entries are cut into batches. -/
structure IsAccount (r : Registry) (s : Settings) (repo : String) (jobs : List Job) (survey : Survey)
    (census : Census) (batches : List (List Job)) (log : List Step) : Prop where
  outcome : survey.outcome = .ok census
  steps : survey.steps =
    .report (.filesListed repo jobs.length) ::
    .report (.filesFiltered (selectJobs s jobs).length (jobs.length - (selectJobs s jobs).length)) ::
    log ++ [.report (.analysisCompleted repo census)]
  log : Logged r s batches.length 1 batches log
  flatten : batches.flatten = selectJobs s jobs
  length : batches.length = ((selectJobs s jobs).length + s.batchSize - 1) / s.batchSize
  size : ∀ batch ∈ batches, 1 ≤ batch.length ∧ batch.length ≤ s.batchSize
  size_dropLast : ∀ batch ∈ batches.dropLast, batch.length = s.batchSize
  sum_size : (batches.map List.length).sum = (selectJobs s jobs).length
  fetched : survey.fetched.Perm ((selectJobs s jobs).map fun job => job.entry.path)
  parsed : (survey.events.countP Event.isFileParsed : Int) = census.totalFiles
  degraded : Event.DegradedFollowed survey.events
  pauses : survey.pauses =
    List.replicate (if s.batchDelay.positive then batches.length - 1 else 0) s.batchDelay

section whole

variable {r : Registry} {s : Settings} {repo : String} {jobs : List Job} {survey : Survey}

theorem Completes.exists_isAccount (h : Completes r s repo jobs survey) :
    ∃ census batches log, IsAccount r s repo jobs survey census batches log := by
  obtain ⟨x, hx, hfinal, houtcome, hsteps⟩ := h
  obtain ⟨log, hlog, hlogged⟩ := hx.continues hfinal
  have hlogged' : Logged r s (jobBatches s jobs).length 1 (jobBatches s jobs) log := hlogged
  have hlog' : x.steps = log := hlog
  have hflatten := flatten_jobBatches s jobs
  rw [hlog'] at hsteps
  refine ⟨_, jobBatches s jobs, log, ⟨houtcome, hsteps, hlogged', hflatten, ?_, ?_, ?_, ?_, ?_, ?_, ?_,
    ?_⟩⟩
  · exact length_batches s.batchSize_pos _
  · intro batch hbatch
    exact length_of_mem_batches s.batchSize_pos hbatch
  · intro batch hbatch
    exact length_of_mem_dropLast_batches s.batchSize_pos hbatch
  · rw [← hflatten, List.length_flatten]
  · have hfetches := hlogged'.fetches
    rw [hflatten] at hfetches
    rw [fetched_eq, hsteps]
    simpa [List.filterMap_cons] using hfetches
  · have htotal : (Census.ofTally x.tally (jobs.map Job.entry)).totalFiles =
        ((selectJobs s jobs).filterMap fun job => job.file? r s).length := by
      rw [hx.tally_eq hfinal]
      rfl
    have hcount := hlogged'.countP_isFileParsed
    rw [hflatten] at hcount
    rw [events_eq, hsteps]
    simp [Event.isFileParsed, hcount, htotal]
  · have hlisted : Event.DegradedFollowed [.filesListed repo jobs.length] :=
      degradedFollowed_singleton rfl
    have hfiltered : Event.DegradedFollowed [.filesFiltered (selectJobs s jobs).length
        (jobs.length - (selectJobs s jobs).length)] :=
      degradedFollowed_singleton rfl
    have hcompleted : Event.DegradedFollowed
        [.analysisCompleted repo (Census.ofTally x.tally (jobs.map Job.entry))] :=
      degradedFollowed_singleton rfl
    have hall := degradedFollowed_append hlisted (degradedFollowed_append hfiltered
      (degradedFollowed_append hlogged'.degradedFollowed hcompleted))
    rw [events_eq, hsteps]
    simpa using hall
  · rw [pauses_eq, hsteps]
    simp [List.filterMap_cons, hlogged'.pauses]

theorem Completes.answer_of_fetchFailed {path error : String} (h : Completes r s repo jobs survey)
    (hevent : .fetchFailed path error ∈ survey.events) :
    ∃ job ∈ selectJobs s jobs, ∃ failure, job.answer = .error failure := by
  obtain ⟨census, batches, log, haccount⟩ := h.exists_isAccount
  rw [events_eq, haccount.steps] at hevent
  have hlog : .fetchFailed path error ∈ log.filterMap Step.event? := by
    simpa [List.filterMap_cons] using hevent
  rw [← haccount.flatten]
  exact haccount.log.answer_of_fetchFailed hlog

theorem completes_run (repo : String) (source : Source)
    (hlist : source.list = .ok (jobs.map Job.entry))
    (hfetch : ∀ job ∈ jobs, source.fetch job.entry.path = job.answer) :
    Completes r s repo jobs (run r s repo source) := by
  have hbatches : Leads r s (jobBatches s jobs).length (Progress.start s jobs) _ :=
    leads_surveyBatches 0 .empty [] fun batch hbatch job hjob =>
      hfetch job (mem_of_mem_jobBatches hbatch hjob)
  have hselected : (selectEntries s.excludedNames (jobs.map Job.entry)).length =
      (selectJobs s jobs).length := by
    rw [selectEntries, List.filter_map, List.length_map]
    rfl
  refine ⟨_, hbatches, ⟨rfl, rfl⟩, ?_, ?_⟩
  · simp only [run, hlist, ofEntries, batches_entries, List.length_map]
  · simp only [run, hlist, ofEntries, batches_entries, List.length_map, hselected, List.nil_append]

theorem exists_completes (r : Registry) (s : Settings) (repo : String) (jobs : List Job) :
    ∃ survey, Completes r s repo jobs survey := by
  obtain ⟨x, hx, hfinal⟩ :=
    exists_leads_isFinal r s (jobBatches s jobs).length (Progress.start s jobs)
  exact ⟨⟨_, _⟩, x, hx, hfinal, rfl, rfl⟩

/-- A survey announces its batches one after another, and before the next one it has fetched each
entry of a batch once and accounted for it once, in whatever order fetches start and are answered. -/
theorem completes_accounts (r : Registry) (s : Settings) (repo : String) (jobs : List Job) :
    (∃ survey, Completes r s repo jobs survey) ∧
    (∀ survey, Completes r s repo jobs survey →
      ∃ census batches log, IsAccount r s repo jobs survey census batches log) ∧
    ∀ source : Source, source.list = .ok (jobs.map Job.entry) →
      (∀ job ∈ jobs, source.fetch job.entry.path = job.answer) →
        Completes r s repo jobs (run r s repo source) := by
  refine ⟨exists_completes r s repo jobs, fun survey h => h.exists_isAccount, ?_⟩
  intro source hlist hfetch
  exact completes_run repo source hlist hfetch

/-- Batches of three with a pause of two seconds between them. -/
def byThrees : Settings := { batchSize := 3, batchDelay := .ofInt 2 }

theorem completes_accounts_byThrees :
    ∃ (survey : Survey) (census : Census) (batches : List (List Job)) (log : List Step),
      IsAccount .standard byThrees "repo" fourJobs survey census batches log ∧
      batches.length = 2 ∧ survey.pauses = [.ofInt 2] ∧
      survey.fetched.Perm ["a.py", "b.py", "c.py", "d.py"] := by
  let source : Source := ⟨.ok (fourJobs.map Job.entry), fun path =>
    ((fourJobs.find? fun job => job.entry.path == path).map Job.answer).getD
      (.error (.fetch path "absent"))⟩
  have hfetch : ∀ job ∈ fourJobs, source.fetch job.entry.path = job.answer := by
    simp [source, fourJobs, Entry.file]
  have hselected : (selectJobs byThrees fourJobs).map (fun job => job.entry.path) =
      ["a.py", "b.py", "c.py", "d.py"] := by decide +kernel
  have hpositive : byThrees.batchDelay.positive = true := by decide +kernel
  obtain ⟨-, haccount, hrun⟩ := completes_accounts .standard byThrees "repo" fourJobs
  obtain ⟨census, batches, log, h⟩ := haccount _ (hrun source rfl hfetch)
  have hlength : (selectJobs byThrees fourJobs).length = 4 := by
    rw [← List.length_map (fun job => job.entry.path), hselected]
    rfl
  have hbatches : batches.length = 2 := by
    rw [h.length, hlength]
    rfl
  refine ⟨_, census, batches, log, h, hbatches, ?_, ?_⟩
  · rw [h.pauses, hpositive, hbatches]
    rfl
  · rw [← hselected]
    exact h.fetched

end whole

end Survey

end CodeCensus
