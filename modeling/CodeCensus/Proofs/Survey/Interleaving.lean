import CodeCensus.Proofs.Census.Statistics
import CodeCensus.Survey.Run
import Mathlib.Data.List.Basic
import Mathlib.Logic.Relation
import Mathlib.Order.WellFounded

/-! Surveys that fetch the entries of a batch together. The fetches of a batch start and are
answered in any order; a batch is tallied once all of them are answered, in the order of the
listing, and only then does the next one begin. Every order gives the tally of all files at once,
and the survey that fetches one entry after another is one of these orders. -/

namespace CodeCensus.Survey

/-! ## Batches

A list is cut from its front. What holds of all batches of a list follows from what one batch adds to those of the
rest. -/

section batches

variable {α β : Type} {size : Nat}

theorem stretches_nil (size count : Nat) : stretches size count ([] : List α) = [] := by
  cases count with
  | zero => rfl
  | succ count => rfl

theorem stretches_eq_of_le (hsize : 1 ≤ size) {count count' : Nat} {l : List α} (h : l.length ≤ count)
    (h' : l.length ≤ count') : stretches size count l = stretches size count' l := by
  induction count generalizing count' l with
  | zero =>
    obtain rfl := List.eq_nil_of_length_eq_zero (Nat.le_zero.mp h)
    rw [stretches_nil, stretches_nil]
  | succ count ih =>
    cases l with
    | nil => rw [stretches_nil, stretches_nil]
    | cons a rest =>
      obtain ⟨count', rfl⟩ : ∃ n, count' = n + 1 := ⟨count' - 1, by rw [List.length_cons] at h'; omega⟩
      have hrest : ((a :: rest).drop size).length ≤ rest.length := by
        rw [List.length_drop, List.length_cons]
        omega
      rw [stretches, stretches, ih (hrest.trans (Nat.le_of_succ_le_succ h)) (hrest.trans (Nat.le_of_succ_le_succ h'))]

@[simp] theorem batches_nil (size : Nat) : batches size ([] : List α) = [] := rfl

theorem batches_cons (hsize : 1 ≤ size) (a : α) (rest : List α) :
    batches size (a :: rest) = (a :: rest).take size :: batches size ((a :: rest).drop size) := by
  have hrest : ((a :: rest).drop size).length ≤ rest.length := by
    rw [List.length_drop, List.length_cons]
    omega
  rw [batches, batches, List.length_cons, stretches, stretches_eq_of_le hsize hrest (Nat.le_refl _)]

@[elab_as_elim]
theorem batches_induction (hsize : 1 ≤ size) {motive : List α → Prop} (l : List α) (nil : motive [])
    (cons : ∀ a rest, motive ((a :: rest).drop size) → motive (a :: rest)) : motive l := by
  -- every batch takes something off the list
  obtain ⟨n, hn⟩ : ∃ n, l.length ≤ n := ⟨_, Nat.le_refl _⟩
  induction n generalizing l with
  | zero =>
    obtain rfl := List.eq_nil_of_length_eq_zero (Nat.le_zero.mp hn)
    exact nil
  | succ n ih =>
    cases l with
    | nil => exact nil
    | cons a rest =>
      refine cons a rest (ih _ ?_)
      rw [List.length_drop]
      omega

theorem flatten_batches (hsize : 1 ≤ size) (l : List α) : (batches size l).flatten = l := by
  induction l using batches_induction hsize with
  | nil => rfl
  | cons a rest ih => rw [batches_cons hsize, List.flatten_cons, ih, List.take_append_drop]

theorem batches_map (hsize : 1 ≤ size) (f : α → β) (l : List α) :
    batches size (l.map f) = (batches size l).map (List.map f) := by
  induction l using batches_induction hsize with
  | nil => rfl
  | cons a rest ih =>
    rw [List.map_cons, batches_cons hsize, batches_cons hsize, ← List.map_cons, ← List.map_take, ← List.map_drop, ih,
      List.map_cons]

theorem length_batches (hsize : 1 ≤ size) (l : List α) : (batches size l).length = (l.length + size - 1) / size := by
  induction l using batches_induction hsize with
  | nil => exact (Nat.div_eq_of_lt (by rw [List.length_nil]; omega)).symm
  | cons a rest ih =>
    rw [batches_cons hsize, List.length_cons, ih, List.length_drop]
    have hpos : 1 ≤ (a :: rest).length := Nat.succ_le_succ (Nat.zero_le _)
    rcases Nat.le_total size (a :: rest).length with hle | hle
    · have hshift : (a :: rest).length + size - 1 = ((a :: rest).length - size + size - 1) + size := by
        omega
      rw [hshift, Nat.add_div_right _ hsize]
    · have hzero : ((a :: rest).length - size + size - 1) / size = 0 :=
        Nat.div_eq_of_lt (by omega)
      have hone : ((a :: rest).length + size - 1) / size = 1 :=
        Nat.div_eq_of_lt_le (by omega) (by omega)
      rw [hzero, hone]

theorem length_of_mem_batches (hsize : 1 ≤ size) {l batch : List α} (h : batch ∈ batches size l) :
    1 ≤ batch.length ∧ batch.length ≤ size := by
  induction l using batches_induction hsize with
  | nil => cases h
  | cons a rest ih =>
    rw [batches_cons hsize] at h
    rcases List.mem_cons.mp h with rfl | h
    · rw [List.length_take, List.length_cons]
      omega
    · exact ih h

/-- All batches but the last are full. -/
theorem length_of_mem_dropLast_batches (hsize : 1 ≤ size) {l batch : List α}
    (h : batch ∈ (batches size l).dropLast) : batch.length = size := by
  induction l using batches_induction hsize with
  | nil => cases h
  | cons a rest ih =>
    rw [batches_cons hsize] at h
    by_cases hlast : batches size ((a :: rest).drop size) = []
    · rw [hlast] at h
      cases h
    · rw [List.dropLast_cons_of_ne_nil hlast] at h
      rcases List.mem_cons.mp h with rfl | h
      · -- a batch that is not full leaves nothing for another one
        rw [List.length_take]
        refine Nat.min_eq_left ?_
        by_contra hless
        rw [List.drop_eq_nil_of_le (by omega), batches_nil] at hlast
        exact hlast rfl
      · exact ih h

end batches

/-! ## Surveys -/

/-- An entry and the answer to its fetch. -/
structure Job where
  entry : Entry
  answer : Except Failure String

inductive Phase where
  | waiting
  | inFlight
  | done (file : Option SourceFile)

/-- One fetch of the batch that is open. -/
structure Slot where
  job : Job
  phase : Phase

/-- How far a survey has come: the batches begun, what has been tallied, the batch that is open, if
one is, the batches to come, and the steps so far. -/
structure Progress where
  begun : Nat
  tally : Tally
  current : Option (List Slot)
  later : List (List Job)
  steps : List Step

def Job.file? (r : Registry) (s : Settings) (job : Job) : Option SourceFile :=
  (surveyAnswer r s job.entry.path job.answer).1

/-- The jobs whose entries a survey reads. -/
def selectJobs (s : Settings) (jobs : List Job) : List Job :=
  jobs.filter fun job => job.entry.isSelected s.excludedNames

/-- One move of a survey of `total` batches. -/
inductive Moves (r : Registry) (s : Settings) (total : Nat) : Progress → Progress → Prop
  | begin {begun : Nat} {tally : Tally} {batch : List Job} {later : List (List Job)}
    {steps : List Step} :
    Moves r s total ⟨begun, tally, none, batch :: later, steps⟩
      ⟨begun + 1, tally, some (batch.map fun job => ⟨job, .waiting⟩), later,
        steps ++ [.report (.batchStarted (begun + 1 : Nat) total batch.length)]⟩
  | start {begun : Nat} {tally : Tally} {before after : List Slot} {job : Job}
    {later : List (List Job)} {steps : List Step} :
    Moves r s total ⟨begun, tally, some (before ++ ⟨job, .waiting⟩ :: after), later, steps⟩
      ⟨begun, tally, some (before ++ ⟨job, .inFlight⟩ :: after), later,
        steps ++ [.fetch job.entry.path]⟩
  | answer {begun : Nat} {tally : Tally} {before after : List Slot} {job : Job}
    {later : List (List Job)} {steps : List Step} :
    Moves r s total ⟨begun, tally, some (before ++ ⟨job, .inFlight⟩ :: after), later, steps⟩
      ⟨begun, tally, some (before ++ ⟨job, .done (job.file? r s)⟩ :: after), later,
        steps ++ (surveyAnswer r s job.entry.path job.answer).2.map .report⟩
  | close {begun : Nat} {tally : Tally} {slots : List Slot} {files : List (Option SourceFile)}
    {later : List (List Job)} {steps : List Step} (done : slots.map Slot.phase = files.map .done) :
    Moves r s total ⟨begun, tally, some slots, later, steps⟩
      ⟨begun, tally.merge (.ofFiles (files.filterMap id)), none, later,
        steps ++ pauseAfter s (later.map (List.map Job.entry))⟩

def jobBatches (s : Settings) (jobs : List Job) : List (List Job) :=
  batches s.batchSize (selectJobs s jobs)

def Progress.start (s : Settings) (jobs : List Job) : Progress :=
  ⟨0, .empty, none, jobBatches s jobs, []⟩

/-- Everything has been fetched and tallied. -/
def Progress.IsFinal (x : Progress) : Prop := x.current = none ∧ x.later = []

/-- A survey gets from one point to another. -/
def Leads (r : Registry) (s : Settings) (total : Nat) : Progress → Progress → Prop :=
  Relation.ReflTransGen (Moves r s total)

/-! ## What every run comes to -/

section invariant

variable {r : Registry} {s : Settings} {total : Nat} {x y : Progress}

def Progress.openSlots (x : Progress) : List Slot := x.current.getD []

def Slot.IsOwn (r : Registry) (s : Settings) (slot : Slot) : Prop :=
  ∀ file, slot.phase = .done file → file = slot.job.file? r s

/-- What has been tallied, what is open and what is to come make up all jobs, in order. -/
structure Progress.Accounts (r : Registry) (s : Settings) (jobs : List Job)
    (x : Progress) : Prop where
  own : ∀ slot ∈ x.openSlots, slot.IsOwn r s
  all : ∃ tallied, x.tally = .ofFiles (tallied.filterMap fun job => job.file? r s) ∧
    tallied ++ x.openSlots.map Slot.job ++ x.later.flatten = jobs

theorem isOwn_of_update {before after : List Slot} {slot slot' : Slot}
    (h : ∀ other ∈ before ++ slot :: after, other.IsOwn r s) (hslot : slot'.IsOwn r s) :
    ∀ other ∈ before ++ slot' :: after, other.IsOwn r s := by
  intro other hother
  rcases List.mem_append.mp hother with hother | hother
  · exact h other (List.mem_append_left _ hother)
  · rcases List.mem_cons.mp hother with rfl | hother
    · exact hslot
    · exact h other (List.mem_append_right _ (List.mem_cons_of_mem _ hother))

/-- A batch all of which is answered has gathered its files in the order of its jobs. -/
theorem gathered_eq {slots : List Slot} {files : List (Option SourceFile)}
    (hdone : slots.map Slot.phase = files.map .done) (hown : ∀ slot ∈ slots, slot.IsOwn r s) :
    files = (slots.map Slot.job).map fun job => job.file? r s := by
  induction slots generalizing files with
  | nil => simpa using hdone.symm
  | cons slot slots ih =>
    cases files with
    | nil => simp at hdone
    | cons file files =>
      obtain ⟨hphase, hrest⟩ := List.cons.inj hdone
      have hfile := hown slot (List.mem_cons_self ..) file hphase
      have hfiles := ih hrest fun other hother => hown other (List.mem_cons_of_mem _ hother)
      rw [hfile, hfiles]
      rfl

theorem Moves.accounts {jobs : List Job} (h : Moves r s total x y) (hx : x.Accounts r s jobs) :
    y.Accounts r s jobs := by
  obtain ⟨hown, tallied, htally, hjobs⟩ := hx
  -- only a batch that is closed adds to what has been tallied
  cases h with
  | begin =>
    refine ⟨?_, tallied, htally, by simpa [Progress.openSlots, Function.comp_def] using hjobs⟩
    intro slot hslot file hphase
    obtain ⟨job, _, rfl⟩ := List.mem_map.mp hslot
    cases hphase
  | start =>
    refine ⟨isOwn_of_update hown fun file hphase => ?_,
      tallied, htally, by simpa [Progress.openSlots] using hjobs⟩
    cases hphase
  | answer =>
    refine ⟨isOwn_of_update hown fun file hphase => ?_,
      tallied, htally, by simpa [Progress.openSlots] using hjobs⟩
    cases hphase
    rfl
  | @close begun tally slots files later steps done =>
    refine ⟨by simp [Progress.openSlots], tallied ++ slots.map Slot.job, ?_,
      by simpa [Progress.openSlots] using hjobs⟩
    change tally.merge _ = _
    rw [show tally = _ from htally, Tally.merge_ofFiles, List.filterMap_append,
      gathered_eq done hown, List.filterMap_map]
    rfl

theorem Leads.accounts {jobs : List Job} (h : Leads r s total x y) (hx : x.Accounts r s jobs) :
    y.Accounts r s jobs := by
  induction h with
  | refl => exact hx
  | tail _ hmove ih => exact hmove.accounts ih

/-- No entry is lost between batches, whatever their size. -/
theorem flatten_jobBatches (s : Settings) (jobs : List Job) :
    (jobBatches s jobs).flatten = selectJobs s jobs :=
  flatten_batches s.batchSize_pos _

theorem accounts_start (r : Registry) (s : Settings) (jobs : List Job) :
    (Progress.start s jobs).Accounts r s (selectJobs s jobs) :=
  ⟨by simp [Progress.start, Progress.openSlots], [], rfl,
    by simp [Progress.start, Progress.openSlots, flatten_jobBatches]⟩

theorem Leads.tally_eq {jobs : List Job} (h : Leads r s total (Progress.start s jobs) x)
    (hx : x.IsFinal) :
    x.tally = .ofFiles ((selectJobs s jobs).filterMap fun job => job.file? r s) := by
  obtain ⟨_, tallied, htally, hjobs⟩ := h.accounts (accounts_start r s jobs)
  rw [Progress.openSlots, hx.1, hx.2] at hjobs
  rw [htally, ← hjobs]
  simp

end invariant

/-! ## Every run ends -/

section termination

variable {r : Registry} {s : Settings} {total : Nat} {x y : Progress}

def Phase.rank : Phase → Nat
  | .waiting => 2
  | .inFlight => 1
  | .done _ => 0

def slotsRank (slots : List Slot) : Nat := slots.foldr (fun slot n => slot.phase.rank + n) 0

/-- The moves that a survey has still to make. -/
def Progress.rank (x : Progress) : Nat :=
  (x.current.map fun slots => slotsRank slots + 1).getD 0 +
    2 * (x.later.flatten.length + x.later.length)

theorem slotsRank_append (before : List Slot) (slot : Slot) (after : List Slot) :
    slotsRank (before ++ slot :: after) = slot.phase.rank + slotsRank (before ++ after) := by
  induction before with
  | nil => rfl
  | cons first before ih =>
    change first.phase.rank + slotsRank (before ++ slot :: after) =
      slot.phase.rank + (first.phase.rank + slotsRank (before ++ after))
    rw [ih, Nat.add_left_comm]

theorem slotsRank_waiting (batch : List Job) :
    slotsRank (batch.map fun job => ⟨job, .waiting⟩) = 2 * batch.length := by
  induction batch with
  | nil => rfl
  | cons job batch ih =>
    change 2 + slotsRank (batch.map fun job => ⟨job, .waiting⟩) = 2 * (batch.length + 1)
    omega

theorem slotsRank_done {slots : List Slot} {files : List (Option SourceFile)}
    (h : slots.map Slot.phase = files.map .done) : slotsRank slots = 0 := by
  induction slots generalizing files with
  | nil => rfl
  | cons slot slots ih =>
    cases files with
    | nil => simp at h
    | cons file files =>
      obtain ⟨hphase, hrest⟩ := List.cons.inj h
      change slot.phase.rank + slotsRank slots = 0
      rw [hphase, ih hrest]
      rfl

theorem Moves.rank_eq (h : Moves r s total x y) : x.rank = y.rank + 1 := by
  cases h with
  | @begin begun tally batch later steps =>
    simp only [Progress.rank, Option.map_some, Option.map_none, Option.getD_some, Option.getD_none,
      slotsRank_waiting, List.flatten_cons, List.length_append, List.length_cons]
    omega
  | start =>
    simp only [Progress.rank, Option.map_some, Option.getD_some, slotsRank_append, Phase.rank]
    omega
  | answer =>
    simp only [Progress.rank, Option.map_some, Option.getD_some, slotsRank_append, Phase.rank]
    omega
  | close done =>
    simp only [Progress.rank, Option.map_some, Option.map_none, Option.getD_some, Option.getD_none,
      slotsRank_done done]
    omega

theorem wellFounded_moves (r : Registry) (s : Settings) (total : Nat) :
    WellFounded fun y x => Moves r s total x y :=
  Subrelation.wf (fun h => Nat.lt_of_succ_le (Nat.le_of_eq h.rank_eq.symm))
    (measure Progress.rank).wf

theorem exists_gathered {slots : List Slot} (h : ∀ slot ∈ slots, ∃ file, slot.phase = .done file) :
    ∃ files : List (Option SourceFile), slots.map Slot.phase = files.map .done := by
  induction slots with
  | nil => exact ⟨[], rfl⟩
  | cons slot slots ih =>
    obtain ⟨file, hfile⟩ := h slot (List.mem_cons_self ..)
    obtain ⟨files, hfiles⟩ := ih fun other hother => h other (List.mem_cons_of_mem _ hother)
    exact ⟨file :: files, by rw [List.map_cons, List.map_cons, hfile, hfiles]⟩

theorem exists_moves (hx : ¬ x.IsFinal) : ∃ y, Moves r s total x y := by
  obtain ⟨begun, tally, current, later, steps⟩ := x
  cases current with
  | none =>
    cases later with
    | nil => exact absurd ⟨rfl, rfl⟩ hx
    | cons batch later => exact ⟨_, .begin⟩
  | some slots =>
    by_cases hdone : ∀ slot ∈ slots, ∃ file, slot.phase = .done file
    · obtain ⟨files, hfiles⟩ := exists_gathered hdone
      exact ⟨_, .close hfiles⟩
    -- a fetch that is not answered yet can start or be answered
    · push Not at hdone
      obtain ⟨⟨job, phase⟩, hslot, hphase⟩ := hdone
      obtain ⟨before, after, rfl⟩ := List.append_of_mem hslot
      cases phase with
      | waiting => exact ⟨_, .start⟩
      | inFlight => exact ⟨_, .answer⟩
      | done file => exact absurd rfl (hphase file)

theorem exists_leads_isFinal (r : Registry) (s : Settings) (total : Nat) (x : Progress) :
    ∃ y, Leads r s total x y ∧ y.IsFinal := by
  induction x using (wellFounded_moves r s total).induction with
  | _ x ih =>
    by_cases hx : x.IsFinal
    · exact ⟨x, .refl, hx⟩
    · obtain ⟨y, hmove⟩ : ∃ y, Moves r s total x y := exists_moves hx
      obtain ⟨z, hz, hfinal⟩ := ih y hmove
      exact ⟨z, .head hmove hz, hfinal⟩

end termination

/-! ## One fetch after another -/

section sequential

variable {r : Registry} {s : Settings} {total begun : Nat} {tally : Tally} {later : List (List Job)}

/-- The steps of jobs whose fetches start and are answered one after another. -/
def jobSteps (r : Registry) (s : Settings) (jobs : List Job) : List Step :=
  jobs.flatMap fun job => entrySteps job.entry (surveyAnswer r s job.entry.path job.answer).2

theorem leads_jobs (done : List Slot) (jobs : List Job) (steps : List Step) :
    Leads r s total
      ⟨begun, tally, some (done ++ jobs.map fun job => ⟨job, .waiting⟩), later, steps⟩
      ⟨begun, tally, some (done ++ jobs.map fun job => ⟨job, .done (job.file? r s)⟩), later,
        steps ++ jobSteps r s jobs⟩ := by
  induction jobs generalizing done steps with
  | nil =>
    have hsteps : steps ++ jobSteps r s [] = steps := List.append_nil steps
    rw [hsteps]
    exact .refl
  | cons job jobs ih =>
    have hrest := ih (done ++ [⟨job, .done (job.file? r s)⟩]) (steps ++ [.fetch job.entry.path] ++
      (surveyAnswer r s job.entry.path job.answer).2.map .report)
    refine .head .start (.head .answer ?_)
    change Leads r s total _ _
    simpa [jobSteps, entrySteps] using hrest

theorem leads_batch (batch : List Job) (steps : List Step) :
    Leads r s total ⟨begun, tally, none, batch :: later, steps⟩
      ⟨begun + 1, tally.merge (.ofFiles (batch.filterMap fun job => job.file? r s)), none, later,
        steps ++
          (.report (.batchStarted (begun + 1 : Nat) total batch.length) :: jobSteps r s batch) ++
          pauseAfter s (later.map (List.map Job.entry))⟩ := by
  let started := steps ++ [.report (.batchStarted (begun + 1 : Nat) total batch.length)]
  have hjobs : Leads r s total
      ⟨begun + 1, tally, some (batch.map fun job => ⟨job, .waiting⟩), later, started⟩
      ⟨begun + 1, tally, some (batch.map fun job => ⟨job, .done (job.file? r s)⟩), later,
        started ++ jobSteps r s batch⟩ :=
    leads_jobs [] batch started
  have hdone : (batch.map fun job => (⟨job, .done (job.file? r s)⟩ : Slot)).map Slot.phase =
      (batch.map fun job => job.file? r s).map .done := by simp
  have hclose : Leads r s total _ _ := hjobs.tail (.close hdone)
  have hbatch : Leads r s total ⟨begun, tally, none, batch :: later, steps⟩ _ := .head .begin hclose
  simpa [started, List.filterMap_map, Function.comp_def] using hbatch

end sequential

end CodeCensus.Survey
