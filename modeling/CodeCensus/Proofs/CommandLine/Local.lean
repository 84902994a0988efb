import CodeCensus.Proofs.CommandLine.Options
import CodeCensus.Proofs.Settings
import CodeCensus.Proofs.Survey.Outcome

/-! How a directory is surveyed. The size of the batches and the pauses between them are those of the command line,
or else of the configuration, or else the usual ones; for a directory it is usual not to pause. A delay that is
configured but is none counts as if a remote repository were surveyed. -/

namespace CodeCensus

theorem Survey.pauses_run_of_not_positive {s : Settings} (h : s.batchDelay.positive = false) (r : Registry)
    (repo : String) (source : Source) : (run r s repo source).pauses = [] := by
  cases hlist : source.list with
  | error failure =>
    rw [run_of_error hlist]
    rfl
  | ok entries =>
    have hentries : source.list = .ok ((jobsOf source entries).map Job.entry) := by rw [entries_jobsOf, hlist]
    have hcompletes : Completes r s repo (jobsOf source entries) (run r s repo source) :=
      completes_run repo source hentries fun job hjob => answer_of_mem_jobsOf hjob
    obtain ⟨census, batches, log, haccount⟩ := hcompletes.exists_isAccount
    rw [haccount.pauses, h]
    rfl

namespace CommandLine

variable {w : Workplace} {a : Analysis} {t t' : Trace} {subject : Subject} {config : Data}

/-! ## The subject -/

namespace Run

theorem run_bind {α β : Type} (x : Run α) (f : α → Run β) (t : Trace) :
    (x >>= f).run.run t =
      match x.run.run t with
      | (.ok found, t') => (f found).run.run t'
      | (.error stop, t') => (.error stop, t') := by
  rw [ExceptT.run_bind, StateT.run_bind]
  obtain ⟨result, t'⟩ := x.run.run t
  cases result with
  | ok found => rfl
  | error stop => rfl

theorem run_get (t : Trace) : (get : Run Trace).run.run t = (.ok t, t) := rfl

end Run

/-- The path of the directory that an analysis is about. -/
def Analysis.directory (a : Analysis) : String := Path.normal a.target

/-- A directory with a configuration as what is to be surveyed. -/
def directorySubject (top : Files.Node) (w : Workplace) (a : Analysis) (config : Data) : Subject :=
  let options := localOptions config a.given
  let root := ((top.resolve w.place a.directory).getD w.place).text
  { name := root
    source := (Files.Checkout.mk top [] root
      { includeHidden := a.switches.includeHidden
        excludedNames := (options.get? "exclude_patterns").getD .null }).source
    settings := .ofOptions options }

theorem run_localSubject_of_load (hdir : t.top.isDirAt w.place a.directory = true)
    (hload : Configuration.load t.top w.place a.directory = .ok config) :
    (localSubject w a).run.run t = (.ok (directorySubject t.top w a config), t) := by
  have hfault : (t.top.fault? w.place a.directory == some .nameTooLong) = false := by
    rw [Files.Node.isDirAt] at hdir
    rw [Files.Node.fault?]
    split
    · rfl
    · rename_i fault hfind
      rw [hfind] at hdir
      cases hdir
  rw [Analysis.directory] at hdir hload hfault
  unfold localSubject
  rw [Run.run_bind, Run.run_get]
  simp only [hfault, hdir, hload, Bool.not_true, Bool.false_eq_true, if_false]
  rfl

/-! ## Its settings -/

/-- The size of the batches that a command line and a configuration ask for. -/
def askedSize (config : Data) (a : Analysis) : Nat :=
  let configured := Settings.option? (Lax.natFrom 1) "batch_size" (configuredOptions config "analyze")
  (a.batchSize.or configured).getD 5

/-- The pause that a command line and a configuration ask for. -/
def askedDelay (config : Data) (a : Analysis) : Double :=
  let configured := Settings.option? Lax.nonNegativeDouble "batch_delay" (configuredOptions config "analyze")
  (a.batchDelay.or configured).getD .zero

/-- A delay is given that is no number, or none is given and the configured one is null or not valid. -/
def MistakesDelay (config : Data) (a : Analysis) : Prop :=
  match a.batchDelay with
  | some x => x.isNaN = true
  | none => ∃ value, (configuredOptions config "analyze").get? "batch_delay" = some value ∧
      Lax.nonNegativeDouble value = none

theorem batchSize_localOptions (hbounds : a.InBounds) (config : Data) :
    (Settings.ofOptions (localOptions config a.given)).batchSize = askedSize config a := by
  have hread : (Settings.ofOptions (localOptions config a.given)).batchSize =
      (((localOptions config a.given).get? "batch_size").bind (Lax.natFrom 1)).getD 5 := by
    simp only [Settings.ofOptions, Settings.option?]
    cases (localOptions config a.given).get? "batch_size" with
    | none => rfl
    | some value =>
      rw [Option.bind_some, Option.bind_some, Lax.natFrom]
      cases Lax.natAtLeast 1 value <;> rfl
  rw [hread, Analysis.get?_localOptions_batchSize, askedSize]
  cases hsize : a.batchSize with
  | none => rfl
  | some n =>
    have hvalid : Lax.natFrom 1 (.int n) = some n :=
      Lax.natFrom_eq_some_iff.mpr ⟨hbounds.batchSize n hsize, rfl⟩
    simp [hvalid]

theorem nonNegativeDouble_float (x : Double) :
    Lax.nonNegativeDouble (.float x) = if x.nonNegative then some x else none := rfl

theorem nonNegativeDouble_zero : Lax.nonNegativeDouble (.float .zero) = some .zero := rfl

theorem batchDelay_localOptions (hbounds : a.InBounds) (config : Data) :
    (¬ MistakesDelay config a →
      (Settings.ofOptions (localOptions config a.given)).batchDelay = askedDelay config a) ∧
    (MistakesDelay config a → (Settings.ofOptions (localOptions config a.given)).batchDelay = .ofInt 1) := by
  have hread : (Settings.ofOptions (localOptions config a.given)).batchDelay =
      (((localOptions config a.given).get? "batch_delay").bind Lax.nonNegativeDouble).getD (.ofInt 1) := rfl
  rw [hread, Analysis.get?_localOptions_batchDelay, askedDelay, MistakesDelay]
  cases hdelay : a.batchDelay with
  | some x =>
    have hnan : x.isNaN = true → x.nonNegative = false := by
      cases x <;> simp [Double.isNaN, Double.nonNegative]
    have hother : ¬ x.isNaN = true → x.nonNegative = true := (hbounds.batchDelay x hdelay).resolve_left
    have hoption : ((some (((some x).map Data.float).or
        ((configuredOptions config "analyze").get? "batch_delay") |>.getD (.float .zero))).bind
          Lax.nonNegativeDouble) = if x.nonNegative then some x else none := nonNegativeDouble_float x
    rw [hoption]
    constructor
    · intro hnumber
      rw [hother hnumber]
      rfl
    · intro hnumber
      rw [hnan hnumber]
      rfl
  | none =>
    cases hconfigured : (configuredOptions config "analyze").get? "batch_delay" with
    | none => simp [Settings.option?, hconfigured, nonNegativeDouble_zero]
    | some value =>
      cases hvalue : Lax.nonNegativeDouble value with
      | none => simp [hvalue]
      | some x => simp [Settings.option?, hconfigured, hvalue]

theorem askedDelay_of_mistakesDelay (h : MistakesDelay config a) : askedDelay config a ≠ .ofInt 1 := by
  have hone : Double.ofInt 1 = .finite false (2 ^ 52) (-52) := by decide +kernel
  rw [MistakesDelay] at h
  rw [askedDelay, hone]
  split at h
  · rename_i x hdelay
    cases x <;> simp_all [Double.isNaN]
  · rename_i hdelay
    obtain ⟨value, hvalue, hinvalid⟩ := h
    rw [hdelay, Settings.option?, hvalue, Option.bind_some, hinvalid]
    decide

/-- A directory that can be entered and whose configuration can be read is surveyed in batches of the size that is
asked for, and with the pause that is asked for, so without any unless one is; but a mistaken delay makes it pause
as for a remote repository. -/
theorem localSubject_asked (w : Workplace) (t : Trace) {arguments : List String}
    (hcommand : Command.ofArguments arguments = .ok (.analyze a))
    (hdir : t.top.isDirAt w.place a.directory = true)
    (hload : Configuration.load t.top w.place a.directory = .ok config) :
    ∃ subject, (localSubject w a).run.run t = (.ok subject, t) ∧
      subject.settings.batchSize = askedSize config a ∧
      (subject.settings.batchDelay = askedDelay config a ↔ ¬ MistakesDelay config a) ∧
      (MistakesDelay config a → subject.settings.batchDelay = .ofInt 1) ∧
      (¬ MistakesDelay config a → (askedDelay config a).positive = false →
        (Survey.run .standard subject.settings subject.name subject.source).pauses = []) := by
  have hbounds := Analysis.inBounds_ofArguments hcommand
  obtain ⟨hasked, hmistaken⟩ := batchDelay_localOptions hbounds config
  refine ⟨_, run_localSubject_of_load hdir hload, batchSize_localOptions hbounds config, ⟨?_, hasked⟩, hmistaken, ?_⟩
  · intro hdelay hmistakes
    exact askedDelay_of_mistakesDelay hmistakes (hdelay.symm.trans (hmistaken hmistakes))
  · intro hmistakes hpositive
    refine Survey.pauses_run_of_not_positive ?_ _ _ _
    rw [← hpositive, ← hasked hmistakes]
    rfl

/-- A directory with nothing but a configuration. -/
def configured (text : String) : Workplace where
  top := .dir [(Configuration.fileName, .file (Text.Utf8.encode text.toList))]
  place := []
  ask := fun _ _ => .unreachable "no network"

def plainAnalysis : Analysis := ⟨".", {}, none, none⟩

def sizeInQuotes : Workplace := configured "analyze:\n  batch_size: '3'\n"

theorem localSubject_asked_sizeInQuotes :
    ∃ subject, (localSubject sizeInQuotes plainAnalysis).run.run { top := sizeInQuotes.top } =
        (.ok subject, { top := sizeInQuotes.top }) ∧
      subject.settings.batchSize = 3 ∧ subject.settings.batchDelay = .zero ∧
      (Survey.run .standard subject.settings subject.name subject.source).pauses = [] := by
  have hcommand : Command.ofArguments ["analyze", "."] = .ok (.analyze plainAnalysis) := rfl
  have hdir : sizeInQuotes.top.isDirAt sizeInQuotes.place plainAnalysis.directory = true := by decide +kernel
  have hread : (Configuration.load sizeInQuotes.top sizeInQuotes.place plainAnalysis.directory).map (fun config =>
      (askedSize config plainAnalysis, askedDelay config plainAnalysis,
        ((configuredOptions config "analyze").get? "batch_delay").isNone)) = .ok (3, .zero, true) := by
    decide +kernel
  obtain ⟨config, hload, hconfig⟩ := Except.map_eq_ok hread
  obtain ⟨hsize, hdelay, hnone⟩ : askedSize config plainAnalysis = 3 ∧ askedDelay config plainAnalysis = .zero ∧
      ((configuredOptions config "analyze").get? "batch_delay").isNone = true := by simpa using hconfig
  have hmistakes : ¬ MistakesDelay config plainAnalysis := by
    rintro ⟨value, hvalue, -⟩
    rw [hvalue] at hnone
    cases hnone
  obtain ⟨subject, hrun, hbatches, hpause, -, hpauses⟩ :=
    localSubject_asked sizeInQuotes { top := sizeInQuotes.top } hcommand hdir hload
  refine ⟨subject, hrun, hbatches.trans hsize, (hpause.mpr hmistakes).trans hdelay, hpauses hmistakes ?_⟩
  rw [hdelay]
  rfl

def nullDelay : Workplace := configured "analyze:\n  batch_delay: null\n"

/-- A delay of null is none, and yet there is a pause. -/
theorem batchDelay_ne_asked_nullDelay :
    ∃ config subject, Configuration.load nullDelay.top nullDelay.place plainAnalysis.directory = .ok config ∧
      (localSubject nullDelay plainAnalysis).run.run { top := nullDelay.top } =
        (.ok subject, { top := nullDelay.top }) ∧
      askedDelay config plainAnalysis = .zero ∧ subject.settings.batchDelay = .ofInt 1 := by
  have hdir : nullDelay.top.isDirAt nullDelay.place plainAnalysis.directory = true := by decide +kernel
  have hread : (Configuration.load nullDelay.top nullDelay.place plainAnalysis.directory).map (fun config =>
      (askedDelay config plainAnalysis, (directorySubject nullDelay.top nullDelay plainAnalysis config).settings.batchDelay))
        = .ok (.zero, .ofInt 1) := by
    decide +kernel
  obtain ⟨config, hload, hconfig⟩ := Except.map_eq_ok hread
  obtain ⟨hasked, hdelay⟩ := Prod.mk.inj hconfig
  exact ⟨config, _, hload, run_localSubject_of_load hdir hload, hasked, hdelay⟩

end CommandLine

end CodeCensus
