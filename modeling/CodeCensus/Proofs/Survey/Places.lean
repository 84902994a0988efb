import CodeCensus.Proofs.Survey.Interleaving
import Mathlib.Data.List.Nodup

/-! Runs of a survey, told by what is seen of their moves: batches are begun, fetches start and are
completed, and what a batch brought is merged into the tally. A fetch is known by its place, the
number of its batch and its index there, so that entries with the same path are told apart. -/

namespace CodeCensus.Survey

/-- Where a fetch stands: the number of its batch, from one on, and its index there. -/
structure Place where
  batch : Nat
  index : Nat
  deriving DecidableEq, Repr

inductive Action where
  | begun (batch : Nat)
  | started (place : Place) (job : Job)
  | completed (place : Place)
  | merged (batch : Nat)

/-- The moves of a survey with what is seen of them. -/
inductive Acts (r : Registry) (s : Settings) (total : Nat) : Progress → Action → Progress → Prop
  | begin {begun : Nat} {tally : Tally} {batch : List Job} {later : List (List Job)}
    {steps : List Step} :
    Acts r s total ⟨begun, tally, none, batch :: later, steps⟩ (.begun (begun + 1))
      ⟨begun + 1, tally, some (batch.map fun job => ⟨job, .waiting⟩), later,
        steps ++ [.report (.batchStarted (begun + 1 : Nat) total batch.length)]⟩
  | start {begun : Nat} {tally : Tally} {before after : List Slot} {job : Job}
    {later : List (List Job)} {steps : List Step} :
    Acts r s total ⟨begun, tally, some (before ++ ⟨job, .waiting⟩ :: after), later, steps⟩
      (.started ⟨begun, before.length⟩ job)
      ⟨begun, tally, some (before ++ ⟨job, .inFlight⟩ :: after), later,
        steps ++ [.fetch job.entry.path]⟩
  | answer {begun : Nat} {tally : Tally} {before after : List Slot} {job : Job}
    {later : List (List Job)} {steps : List Step} :
    Acts r s total ⟨begun, tally, some (before ++ ⟨job, .inFlight⟩ :: after), later, steps⟩
      (.completed ⟨begun, before.length⟩)
      ⟨begun, tally, some (before ++ ⟨job, .done (job.file? r s)⟩ :: after), later,
        steps ++ (surveyAnswer r s job.entry.path job.answer).2.map .report⟩
  | close {begun : Nat} {tally : Tally} {slots : List Slot} {files : List (Option SourceFile)}
    {later : List (List Job)} {steps : List Step} (done : slots.map Slot.phase = files.map .done) :
    Acts r s total ⟨begun, tally, some slots, later, steps⟩ (.merged begun)
      ⟨begun, tally.merge (.ofFiles (files.filterMap id)), none, later,
        steps ++ pauseAfter s (later.map (List.map Job.entry))⟩

/-- A survey gets from one point to another, and what is seen on the way. -/
inductive Runs (r : Registry) (s : Settings) (total : Nat) (x : Progress) :
    List Action → Progress → Prop
  | nil : Runs r s total x [] x
  | snoc {log : List Action} {action : Action} {y z : Progress} (run : Runs r s total x log y)
    (act : Acts r s total y action z) : Runs r s total x (log ++ [action]) z

section runs

variable {r : Registry} {s : Settings} {total : Nat} {x y z : Progress} {log : List Action}
  {action : Action}

theorem moves_iff_exists_acts : Moves r s total x y ↔ ∃ action, Acts r s total x action y := by
  constructor
  · intro h
    cases h with
    | begin => exact ⟨_, .begin⟩
    | start => exact ⟨_, .start⟩
    | answer => exact ⟨_, .answer⟩
    | close done => exact ⟨_, .close done⟩
  · rintro ⟨action, h⟩
    cases h with
    | begin => exact .begin
    | start => exact .start
    | answer => exact .answer
    | close done => exact .close done

theorem leads_iff_exists_runs : Leads r s total x y ↔ ∃ log, Runs r s total x log y := by
  constructor
  · intro h
    induction h with
    | refl => exact ⟨[], .nil⟩
    | tail _ hmove ih =>
      obtain ⟨log, hlog⟩ := ih
      obtain ⟨action, hact⟩ := moves_iff_exists_acts.mp hmove
      exact ⟨log ++ [action], hlog.snoc hact⟩
  · rintro ⟨log, h⟩
    induction h with
    | nil => exact .refl
    | snoc _ hact ih => exact ih.tail (moves_iff_exists_acts.mpr ⟨_, hact⟩)

/-- Whatever is seen in a run is seen of a move that follows on what is seen before it. -/
theorem Runs.exists_acts {before after : List Action}
    (h : Runs r s total x (before ++ action :: after) z) :
    ∃ y y', Runs r s total x before y ∧ Acts r s total y action y' := by
  generalize hlog : before ++ action :: after = log at h
  induction h generalizing after with
  | nil => exact absurd hlog (by simp)
  | @snoc log last y z hrun hact ih =>
    rcases List.eq_nil_or_concat after with rfl | ⟨front, action', rfl⟩
    · obtain ⟨rfl, hlast⟩ := List.append_inj' hlog rfl
      obtain rfl := List.singleton_inj.mp hlast
      exact ⟨y, z, hrun, hact⟩
    · have hfront : before ++ action :: front = log := by
        have hall : (before ++ action :: front) ++ [action'] = log ++ [last] := by
          simpa using hlog
        exact (List.append_inj' hall rfl).1
      exact ih hfront

end runs

/-! ## What is under way -/

def Action.started? : Action → Option (Place × Job)
  | .started place job => some (place, job)
  | _ => none

def Action.completed? : Action → Option Place
  | .completed place => some place
  | _ => none

def starts (log : List Action) : List (Place × Job) := log.filterMap Action.started?

def completions (log : List Action) : List Place := log.filterMap Action.completed?

/-- The fetches that have started and are not completed. -/
def inFlight (log : List Action) : List Place :=
  ((starts log).map Prod.fst).filter fun place => place ∉ completions log

def Phase.isStarted : Phase → Bool
  | .waiting => false
  | _ => true

def Phase.isInFlight : Phase → Bool
  | .inFlight => true
  | _ => false

def Phase.isDone : Phase → Bool
  | .done _ => true
  | _ => false

/-! ## Places -/

def batchPlaces (batch : Nat) (jobs : List Job) : List (Place × Job) :=
  jobs.zipIdx.map fun (job, index) => (⟨batch, index⟩, job)

/-- The places in batches that are numbered from `batch` on. -/
def placesFrom : Nat → List (List Job) → List (Place × Job)
  | _, [] => []
  | batch, jobs :: later => batchPlaces batch jobs ++ placesFrom (batch + 1) later

/-- The place of each entry that is read: of `size` each, they fill the batches one after another. -/
def placedJobs (s : Settings) (jobs : List Job) : List (Place × Job) :=
  (selectJobs s jobs).zipIdx.map fun (job, n) => (⟨n / s.batchSize + 1, n % s.batchSize⟩, job)

/-- The places of an open batch whose fetches are in a phase. -/
def slotPlaces (p : Phase → Bool) (batch : Nat) (slots : List Slot) : List (Place × Job) :=
  slots.zipIdx.filterMap fun (slot, index) =>
    if p slot.phase then some (⟨batch, index⟩, slot.job) else none

section places

variable {batch : Nat} {jobs : List Job} {p : Phase → Bool} {slots before after : List Slot}
  {slot slot' : Slot} {item : Place × Job}

theorem batch_of_mem_batchPlaces (h : item ∈ batchPlaces batch jobs) : item.1.batch = batch := by
  obtain ⟨_, _, rfl⟩ := List.mem_map.mp h
  rfl

theorem placesFrom_append (batch : Nat) (first second : List (List Job)) :
    placesFrom batch (first ++ second) =
      placesFrom batch first ++ placesFrom (batch + first.length) second := by
  induction first generalizing batch with
  | nil => rfl
  | cons jobs first ih =>
    rw [List.cons_append, placesFrom, placesFrom, ih, List.append_assoc, List.length_cons,
      Nat.add_right_comm, Nat.add_assoc]

theorem batch_of_mem_placesFrom {batches : List (List Job)} (h : item ∈ placesFrom batch batches) :
    batch ≤ item.1.batch ∧ item.1.batch < batch + batches.length := by
  induction batches generalizing batch with
  | nil => exact absurd h List.not_mem_nil
  | cons jobs later ih =>
    rw [List.length_cons]
    rcases List.mem_append.mp h with h | h
    · have := batch_of_mem_batchPlaces h
      omega
    · have := ih h
      omega

theorem batchPlaces_eq {size : Nat} (hlength : jobs.length ≤ size) (batch : Nat) :
    batchPlaces (batch + 1) jobs = (jobs.zipIdx (batch * size)).map fun (job, n) =>
      (⟨n / size + 1, n % size⟩, job) := by
  rw [List.zipIdx_eq_map_add, List.map_map, batchPlaces]
  refine List.map_congr_left fun ⟨job, index⟩ hmem => ?_
  have hindex : index < size := by
    have := (List.mem_zipIdx hmem).2.1
    omega
  have hdiv : (batch * size + index) / size = batch := by
    rw [Nat.mul_comm, Nat.mul_add_div (by omega), Nat.div_eq_of_lt hindex, Nat.add_zero]
  have hmod : (batch * size + index) % size = index := by
    rw [Nat.mul_comm, Nat.mul_add_mod, Nat.mod_eq_of_lt hindex]
  simp only [Function.comp_apply, hdiv, hmod]

theorem placesFrom_batches {size : Nat} (hsize : 1 ≤ size) (batch : Nat) (l : List Job) :
    placesFrom (batch + 1) (batches size l) =
      (l.zipIdx (batch * size)).map fun (job, n) => (⟨n / size + 1, n % size⟩, job) := by
  induction l using batches_induction hsize generalizing batch with
  | nil => rfl
  | cons a rest ih =>
    have hfirst : ((a :: rest).take size).length ≤ size := List.length_take_le _ _
    rw [batches_cons hsize, placesFrom, ih (batch + 1), batchPlaces_eq hfirst, ← List.map_append]
    congr 1
    conv_rhs => rw [← List.take_append_drop size (a :: rest), List.zipIdx_append]
    -- what follows a batch starts a multiple of the size later, if there is anything
    rcases Nat.le_total size (a :: rest).length with hle | hle
    · rw [List.length_take, Nat.min_eq_left hle, Nat.succ_mul]
    · rw [List.drop_eq_nil_of_le hle]
      rfl

theorem placesFrom_jobBatches (s : Settings) (jobs : List Job) :
    placesFrom 1 (jobBatches s jobs) = placedJobs s jobs := by
  have h := placesFrom_batches s.batchSize_pos 0 (selectJobs s jobs)
  rw [Nat.zero_mul] at h
  exact h

theorem mem_slotPlaces : item ∈ slotPlaces p batch slots ↔ item.1.batch = batch ∧
    ∃ slot, slots[item.1.index]? = some slot ∧ p slot.phase = true ∧ slot.job = item.2 := by
  rw [slotPlaces, List.mem_filterMap]
  constructor
  · rintro ⟨⟨slot, index⟩, hmem, hitem⟩
    dsimp only at hitem
    split at hitem
    · rename_i hp
      obtain rfl := Option.some.inj hitem
      exact ⟨rfl, slot, List.mk_mem_zipIdx_iff_getElem?.mp hmem, hp, rfl⟩
    · exact absurd hitem (by simp)
  · obtain ⟨⟨_, index⟩, _⟩ := item
    rintro ⟨rfl, slot, hslot, hp, rfl⟩
    exact ⟨(slot, index), List.mk_mem_zipIdx_iff_getElem?.mpr hslot, if_pos hp⟩

theorem mem_map_slotPlaces {index : Nat} (hslot : slots[index]? = some slot) :
    ⟨batch, index⟩ ∈ (slotPlaces p batch slots).map Prod.fst ↔ p slot.phase = true := by
  constructor
  · intro h
    obtain ⟨⟨place, job⟩, hitem, rfl⟩ := List.mem_map.mp h
    obtain ⟨-, slot', hslot', hp, -⟩ := mem_slotPlaces.mp hitem
    obtain rfl := Option.some.inj (hslot.symm.trans hslot')
    exact hp
  · intro hp
    exact List.mem_map.mpr ⟨(⟨batch, index⟩, slot.job),
      mem_slotPlaces.mpr ⟨rfl, slot, hslot, hp, rfl⟩, rfl⟩

theorem slotPlaces_all (h : ∀ slot ∈ slots, p slot.phase = true) :
    slotPlaces p batch slots = batchPlaces batch (slots.map Slot.job) := by
  rw [batchPlaces, ← List.map_zipIdx, List.map_map, slotPlaces, ← List.filterMap_eq_map]
  refine List.filterMap_congr fun ⟨slot, index⟩ hmem => ?_
  have hslot : slot ∈ slots := List.mem_of_getElem? (List.mk_mem_zipIdx_iff_getElem?.mp hmem)
  exact if_pos (h slot hslot)

theorem slotPlaces_none (h : ∀ slot ∈ slots, p slot.phase = false) :
    slotPlaces p batch slots = [] := by
  refine List.eq_nil_iff_forall_not_mem.mpr fun item hitem => ?_
  obtain ⟨-, slot, hslot, hp, -⟩ := mem_slotPlaces.mp hitem
  rw [h slot (List.mem_of_getElem? hslot)] at hp
  exact absurd hp (by simp)

theorem slotPlaces_waiting (hp : p .waiting = false) (jobs : List Job) :
    slotPlaces p batch (jobs.map fun job => ⟨job, .waiting⟩) = [] := by
  refine slotPlaces_none fun slot hslot => ?_
  obtain ⟨job, -, rfl⟩ := List.mem_map.mp hslot
  exact hp

theorem slotPlaces_done {files : List (Option SourceFile)} (hdone : slots.map Slot.phase = files.map .done)
    (hp : ∀ file, p (.done file) = true) : slotPlaces p batch slots = batchPlaces batch (slots.map Slot.job) := by
  refine slotPlaces_all fun slot hslot => ?_
  have hphase : slot.phase ∈ files.map Phase.done := hdone ▸ List.mem_map_of_mem hslot
  obtain ⟨file, -, hfile⟩ := List.mem_map.mp hphase
  rw [← hfile]
  exact hp file

theorem length_slotPlaces_le (p : Phase → Bool) (batch : Nat) (slots : List Slot) :
    (slotPlaces p batch slots).length ≤ slots.length := by
  have h : (slotPlaces p batch slots).length ≤ slots.zipIdx.length := List.length_filterMap_le _ _
  rwa [List.length_zipIdx] at h

theorem slotPlaces_congr (slot slot' : Slot) (hp : p slot.phase = p slot'.phase)
    (hjob : slot.job = slot'.job) :
    slotPlaces p batch (before ++ slot :: after) = slotPlaces p batch (before ++ slot' :: after) := by
  simp only [slotPlaces, List.zipIdx_append, List.zipIdx_cons, List.filterMap_append,
    List.filterMap_cons, hp, hjob]

theorem slotPlaces_perm (slot slot' : Slot) (hp : p slot.phase = false)
    (hp' : p slot'.phase = true) :
    (slotPlaces p batch (before ++ slot' :: after)).Perm
      ((⟨batch, before.length⟩, slot'.job) :: slotPlaces p batch (before ++ slot :: after)) := by
  simp only [slotPlaces, List.zipIdx_append, List.zipIdx_cons, List.filterMap_append,
    List.filterMap_cons, hp, hp', Nat.zero_add, if_true, Bool.false_eq_true, if_false]
  exact List.perm_middle

/-- Of a batch, the places that have started without being done are those in flight. -/
theorem filter_slotPlaces {q : Place → Bool}
    (hq : ∀ index slot, slots[index]? = some slot → q ⟨batch, index⟩ = !slot.phase.isDone) :
    ((slotPlaces Phase.isStarted batch slots).map Prod.fst).filter q =
      (slotPlaces Phase.isInFlight batch slots).map Prod.fst := by
  rw [slotPlaces, List.map_filterMap, List.filter_filterMap, slotPlaces, List.map_filterMap]
  refine List.filterMap_congr fun ⟨slot, index⟩ hmem => ?_
  have hplace := hq index slot (List.mk_mem_zipIdx_iff_getElem?.mp hmem)
  obtain ⟨job, phase⟩ := slot
  cases phase with
  | waiting => rfl
  | inFlight => simpa [Phase.isStarted, Phase.isInFlight, Phase.isDone] using hplace
  | done file => simpa [Phase.isStarted, Phase.isInFlight, Phase.isDone] using hplace

theorem perm_concat {α : Type} {log closed slots slots' : List α} {a : α}
    (h : log.Perm (closed ++ slots)) (hslots : slots'.Perm (a :: slots)) :
    (log ++ [a]).Perm (closed ++ slots') := by
  have hfirst : (log ++ [a]).Perm (a :: (closed ++ slots)) :=
    (List.perm_append_singleton a log).trans (h.cons a)
  exact hfirst.trans (List.perm_middle.symm.trans (hslots.symm.append_left closed))

end places

end CodeCensus.Survey
