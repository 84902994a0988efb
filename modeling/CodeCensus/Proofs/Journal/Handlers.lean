import CodeCensus.Journal.Basic
import Mathlib.Data.List.Nodup
import Mathlib.Data.List.TakeWhile

/-! What is set up for logging, after any series of calls some of which fail, and which records it gets. A record
reaches the handlers of the root logger on its way up from the logger that it is given to, and does so once, if the
root is among the loggers that it passes. -/

namespace CodeCensus.Journal

/-! ## The way up -/

section lineage

variable {isLogger : List Char → Bool} {name reversed : List Char}

theorem length_lt_of_mem_above (h : name ∈ above isLogger reversed) : name.length < reversed.length := by
  fun_induction above isLogger reversed with
  | case1 => cases h
  | case2 c front _ ih =>
    rcases List.mem_cons.mp h with rfl | hmem
    · simp
    · exact Nat.lt_succ_of_lt (ih hmem)
  | case3 c front _ ih => exact Nat.lt_succ_of_lt (Nat.lt_succ_of_lt (ih h))
  | case4 x front _ ih => exact Nat.lt_succ_of_lt (ih h)

theorem nodup_above (isLogger : List Char → Bool) (reversed : List Char) : (above isLogger reversed).Nodup := by
  fun_induction above isLogger reversed with
  | case1 => exact List.nodup_nil
  | case2 c front _ ih =>
    refine List.nodup_cons.mpr ⟨fun hmem => ?_, ih⟩
    have := length_lt_of_mem_above hmem
    simp at this
  | case3 c front _ ih => exact ih
  | case4 x front _ ih => exact ih

theorem nodup_lineage (isLogger : List Char → Bool) (name : List Char) : (lineage isLogger name).Nodup := by
  refine List.nodup_cons.mpr ⟨fun hmem => ?_, nodup_above _ _⟩
  have := length_lt_of_mem_above hmem
  simp at this

theorem above_cons_of_ne {c : Char} (hc : c ≠ '.') (reversed : List Char) :
    above isLogger (c :: reversed) = above isLogger reversed := by
  rw [above]
  rintro d front rfl rfl
  exact hc rfl

end lineage

/-- How many dots a text begins with. -/
def leadingDots (text : List Char) : Nat := (text.takeWhile (· == '.')).length

/-- Whether the root is above a logger whose name goes on after that of the root with some dots. One dot leads there.
From the last of several the way goes on before that dot if there is a logger, and else before the one before. -/
def dotsLeadUp (isLogger : List Char → Bool) : Nat → Bool
  | 0 => false
  | 1 => true
  | k + 2 =>
    if isLogger (rootName.toList ++ List.replicate (k + 1) '.') then dotsLeadUp isLogger (k + 1)
    else dotsLeadUp isLogger k

theorem rootName_mem_above_dots {isLogger : List Char → Bool} (hroot : isLogger rootName.toList = true) :
    (k : Nat) → (rootName.toList ∈ above isLogger (List.replicate k '.' ++ rootName.toList.reverse) ↔
      dotsLeadUp isLogger k = true)
  | 0 => by
    have hnone : above isLogger rootName.toList.reverse = [] := rfl
    simp [hnone, dotsLeadUp]
  | 1 => by
    have hne : rootName.toList.reverse ≠ [] := by decide
    have habove : above isLogger ('.' :: rootName.toList.reverse) = [rootName.toList] := by
      obtain ⟨c, front, hfront⟩ := List.exists_cons_of_ne_nil hne
      rw [hfront, above, ← hfront, List.reverse_reverse, if_pos hroot]
      rfl
    simp [habove, dotsLeadUp]
  | k + 2 => by
    have hname : ('.' :: (List.replicate k '.' ++ rootName.toList.reverse)).reverse =
        rootName.toList ++ List.replicate (k + 1) '.' := by
      rw [← List.cons_append, ← List.replicate_succ, List.reverse_append, List.reverse_reverse, List.reverse_replicate]
    have hlonger : rootName.toList ≠ rootName.toList ++ List.replicate (k + 1) '.' := by
      simp
    rw [List.replicate_succ, List.replicate_succ, List.cons_append, List.cons_append, above, hname, dotsLeadUp]
    split
    · rw [List.mem_cons, or_iff_right hlonger, ← List.cons_append, ← List.replicate_succ]
      exact rootName_mem_above_dots hroot (k + 1)
    · exact rootName_mem_above_dots hroot k

/-- What follows after the dots has no part in whether the root is above. -/
theorem rootName_mem_above_append {isLogger : List Char → Bool} {front : List Char}
    (hfront : rootName.toList.length ≤ front.length) :
    (later : List Char) → later.getLast? ≠ some '.' →
      (rootName.toList ∈ above isLogger (later ++ front) ↔ rootName.toList ∈ above isLogger front)
  | [], _ => Iff.rfl
  | [c], h => by
    rw [List.singleton_append, above_cons_of_ne (by simpa using h)]
  | c :: d :: later, h => by
    have hlast : (d :: later).getLast? ≠ some '.' := by rwa [List.getLast?_cons_cons] at h
    by_cases hc : c = '.'
    · have hlonger : rootName.toList ≠ (d :: (later ++ front)).reverse := by
        intro heq
        have := congrArg List.length heq
        simp only [List.length_reverse, List.length_cons, List.length_append] at this
        omega
      rw [hc, List.cons_append, List.cons_append, above]
      split
      · rw [List.mem_cons, or_iff_right hlonger]
        exact rootName_mem_above_append hfront (d :: later) hlast
      · refine rootName_mem_above_append hfront later fun hdot => hlast ?_
        rw [List.getLast?_cons, hdot]
        rfl
    · rw [List.cons_append, above_cons_of_ne hc]
      exact rootName_mem_above_append hfront (d :: later) hlast

/-- What the name of a logger has after that of the root. -/
def tailOf : Option String → List Char
  | none => []
  | some name =>
    if rootName.toList.isPrefixOf name.toList then name.toList.drop rootName.toList.length else '.' :: name.toList

theorem toList_loggerName (name : Option String) :
    (loggerName name).toList = rootName.toList ++ tailOf name := by
  cases name with
  | none => simp [loggerName, tailOf]
  | some name =>
    rw [loggerName, tailOf]
    split
    · rename_i hprefix
      obtain ⟨tail, htail⟩ := List.isPrefixOf_iff_prefix.mp hprefix
      rw [← htail, List.drop_left]
    · rw [String.toList_append, String.toList_append, List.append_assoc]
      rfl

theorem rootName_mem_lineage_iff {isLogger : List Char → Bool} (hroot : isLogger rootName.toList = true)
    (name : Option String) :
    rootName.toList ∈ lineage isLogger (loggerName name).toList ↔
      tailOf name = [] ∨ dotsLeadUp isLogger (leadingDots (tailOf name)) = true := by
  have hself : rootName.toList = rootName.toList ++ tailOf name ↔ tailOf name = [] :=
    List.self_eq_append_right
  have hdots : (tailOf name).takeWhile (· == '.') = List.replicate (leadingDots (tailOf name)) '.' :=
    List.eq_replicate_of_mem fun c hc => by simpa using List.mem_takeWhile_imp hc
  have hlater : ((tailOf name).dropWhile (· == '.')).reverse.getLast? ≠ some '.' := by
    rw [List.getLast?_reverse]
    intro hdot
    have := List.head?_dropWhile_not (· == '.') (tailOf name)
    rw [hdot] at this
    simp at this
  have htail : (tailOf name).reverse = ((tailOf name).dropWhile (· == '.')).reverse ++
      List.replicate (leadingDots (tailOf name)) '.' := by
    rw [← List.reverse_replicate, ← hdots, ← List.reverse_append, List.takeWhile_append_dropWhile]
  have hlong : rootName.toList.length ≤
      (List.replicate (leadingDots (tailOf name)) '.' ++ rootName.toList.reverse).length := by simp
  rw [lineage, toList_loggerName, List.mem_cons, hself, List.reverse_append, htail, List.append_assoc,
    rootName_mem_above_append hlong _ hlater, rootName_mem_above_dots hroot]

/-! ## What a call sets up -/

theorem handlers_foldl_removeHandler {s : State} {l : List Handler} (h : s.handlers = l) :
    (l.foldl State.removeHandler s).handlers = [] := by
  induction l generalizing s with
  | nil => exact h
  | cons handler l ih =>
    refine ih ?_
    rw [State.removeHandler, h, List.erase_cons_head]

theorem handlers_foldl_addHandler {s : State} {made : List Handler} (h : (s.handlers ++ made).Nodup) :
    (made.foldl State.addHandler s).handlers = s.handlers ++ made := by
  induction made generalizing s with
  | nil => exact (List.append_nil _).symm
  | cons handler made ih =>
    have hnew : handler ∉ s.handlers := fun hmem =>
      (List.disjoint_of_nodup_append h) hmem List.mem_cons_self
    have hadd : (s.addHandler handler).handlers = s.handlers ++ [handler] := by
      rw [State.addHandler, if_neg (by simpa using hnew)]
    rw [List.append_cons] at h
    rw [List.foldl_cons, ih (hadd ▸ h), hadd, List.append_assoc, List.singleton_append]

theorem handlers_install (s : State) (level : Level) {made : List Handler} (h : made.Nodup) :
    (s.install level made).handlers = made := by
  have hcleared : (s.handlers.foldl State.removeHandler s).handlers = [] := handlers_foldl_removeHandler rfl
  have hnodup : ((s.handlers.foldl State.removeHandler s).handlers ++ made).Nodup := by
    rwa [hcleared, List.nil_append]
  have hadded := handlers_foldl_addHandler hnodup
  rw [hcleared, List.nil_append] at hadded
  exact hadded

def Setup.handlers (setup : Setup) : List Handler :=
  .console setup.showsPlaces :: (setup.logFile.map .file).toList

theorem Setup.nodup_handlers (setup : Setup) : setup.handlers.Nodup := by
  rw [handlers]
  cases setup.logFile with
  | none => exact List.nodup_singleton _
  | some name => simp

/-! ## Series of calls -/

/-- A call that sets up logging: what it asks for, and which files cannot be opened when it is made. -/
structure Call where
  verbose : Bool
  quiet : Bool
  logFile : Option String
  refusal : String → Option Files.AccessFault

namespace Call

def setup (c : Call) : Setup := .ofFlags c.verbose c.quiet c.logFile

def run (c : Call) (s : State) : Except Files.AccessFault Unit × State := (c.setup.apply c.refusal).run.run s

/-- What keeps a call from doing what it asks for: its log file cannot be opened. -/
def hindrance? (c : Call) : Option Files.AccessFault := c.setup.logFile.bind c.refusal

variable {c : Call}

theorem run_of_some {fault : Files.AccessFault} (h : c.hindrance? = some fault) (s : State) :
    c.run s = (.error fault, s) := by
  obtain ⟨name, hname, hfault⟩ := Option.bind_eq_some_iff.mp h
  simp only [run, Setup.apply, Setup.makeHandlers, hname, hfault]
  rfl

theorem run_of_none (h : c.hindrance? = none) (s : State) :
    ∃ s', c.run s = (.ok (), s') ∧ s'.handlers = c.setup.handlers ∧ s'.level = some c.setup.level := by
  have hinstall (s' : State) : (s'.install c.setup.level c.setup.handlers).handlers = c.setup.handlers :=
    handlers_install s' c.setup.level c.setup.nodup_handlers
  cases hname : c.setup.logFile with
  | none =>
    have hmade : c.setup.handlers = [.console c.setup.showsPlaces] := by rw [Setup.handlers, hname]; rfl
    refine ⟨s.install c.setup.level c.setup.handlers, ?_, hinstall s, rfl⟩
    simp only [run, Setup.apply, Setup.makeHandlers, hname, hmade]
    rfl
  | some name =>
    have hfree : c.refusal name = none := by rwa [hindrance?, hname] at h
    have hmade : c.setup.handlers = [.console c.setup.showsPlaces, .file name] := by
      rw [Setup.handlers, hname]
      rfl
    refine ⟨(s.write name []).install c.setup.level c.setup.handlers, ?_, hinstall _, rfl⟩
    simp only [run, Setup.apply, Setup.makeHandlers, hname, hfree, hmade]
    rfl

theorem setup_logFile : c.setup.logFile = c.logFile.filter (· ≠ "") := by
  have hempty (name : String) : (!name.isEmpty) = decide (name ≠ "") := by
    rw [Bool.eq_iff_iff]
    simp
  exact congrArg c.logFile.filter (funext hempty)

theorem hindrance?_eq_some_iff {fault : Files.AccessFault} :
    c.hindrance? = some fault ↔
      ∃ name, c.logFile = some name ∧ name ≠ "" ∧ c.refusal name = some fault := by
  simp [hindrance?, setup_logFile, Option.bind_eq_some_iff, Option.filter_eq_some_iff, and_assoc]

theorem fst_run_eq_error_iff {fault : Files.AccessFault} (s : State) :
    (c.run s).1 = .error fault ↔ ∃ name, c.logFile = some name ∧ name ≠ "" ∧ c.refusal name = some fault := by
  rw [← hindrance?_eq_some_iff]
  cases h : c.hindrance? with
  | none =>
    obtain ⟨s', hdone, -⟩ := run_of_none h s
    simp [hdone]
  | some other =>
    rw [run_of_some h]
    simp

theorem snd_run_of_error {fault : Files.AccessFault} {s : State} (h : (c.run s).1 = .error fault) :
    (c.run s).2 = s := by
  cases hindered : c.hindrance? with
  | none =>
    obtain ⟨s', hdone, -⟩ := run_of_none hindered s
    rw [hdone] at h
    cases h
  | some other => rw [run_of_some hindered]

theorem snd_run_of_ok {s : State} (h : (c.run s).1 = .ok ()) :
    (c.run s).2.handlers = c.setup.handlers ∧ (c.run s).2.level = some c.setup.level := by
  cases hindered : c.hindrance? with
  | none =>
    obtain ⟨s', hdone, hhandlers, hlevel⟩ := run_of_none hindered s
    rw [hdone]
    exact ⟨hhandlers, hlevel⟩
  | some other =>
    rw [run_of_some hindered] at h
    cases h

end Call

namespace State

/-- The state that calls leave, whatever they raise. -/
def after (s : State) : List Call → State
  | [] => s
  | c :: later => (c.run s).2.after later

/-- The last of some calls that raises nothing. -/
def lastDone? (s : State) : List Call → Option Call
  | [] => none
  | c :: later => ((c.run s).2.lastDone? later).or (if (c.run s).1.isOk then some c else none)

theorem after_of_lastDone? (s : State) (calls : List Call) :
    match s.lastDone? calls with
    | some c => (s.after calls).handlers = c.setup.handlers ∧ (s.after calls).level = some c.setup.level
    | none => (s.after calls).handlers = s.handlers ∧ (s.after calls).level = s.level := by
  induction calls generalizing s with
  | nil => exact ⟨rfl, rfl⟩
  | cons c calls ih =>
    have hlater := ih (c.run s).2
    rw [after, lastDone?]
    cases hlast : (c.run s).2.lastDone? calls with
    | some d =>
      rw [hlast] at hlater
      exact hlater
    | none =>
      rw [hlast] at hlater
      cases hrun : (c.run s).1 with
      | ok =>
        have hdone := Call.snd_run_of_ok hrun
        exact ⟨hlater.1.trans hdone.1, hlater.2.trans hdone.2⟩
      | error fault =>
        rw [Call.snd_run_of_error hrun] at hlater ⊢
        exact hlater

/-! ## What a record reaches -/

theorem flatMap_ite_eq {β : Type} {l : List (List Char)} (h : l.Nodup) (a : List Char) (found : List β) :
    l.flatMap (fun b => if b = a then found else []) = if a ∈ l then found else [] := by
  induction l with
  | nil => rfl
  | cons b l ih =>
    obtain ⟨hb, hl⟩ := List.nodup_cons.mp h
    rw [List.flatMap_cons, ih hl]
    by_cases hba : b = a
    · subst hba
      rw [if_pos rfl, if_neg hb, List.append_nil, if_pos List.mem_cons_self]
    · rw [if_neg hba, List.nil_append]
      simp only [List.mem_cons, Ne.symm hba, false_or]

theorem received_eq (s : State) (r : LogRecord) :
    s.received r =
      if passes (s.level.getD .warning) r ∧ rootName.toList ∈ lineage s.isLogger r.logger.toList then s.handlers
      else [] := by
  rw [received, flatMap_ite_eq (nodup_lineage _ _), ite_and]

theorem isLogger_rootName (s : State) : s.isLogger rootName.toList = true := by
  rw [isLogger, beq_self_eq_true, Bool.true_or]

end State

/-- However logging has been set up, the handlers and the level are those of the last call that raised nothing, and a
call that raises changes nothing. What is logged through a logger that the library gives out reaches these handlers,
and each of them once, if the logger is the root, or if one dot follows the root's name in its name. If several dots
do, that depends on the loggers that are there; if another character does, the logger stands beside the root, and
none of the handlers gets the record. -/
theorem State.after_calls (s : State) (calls : List Call) :
    (∀ c, s.lastDone? calls = some c →
      (s.after calls).level = some (if c.quiet then .error else if c.verbose then .debug else .warning) ∧
      (s.after calls).handlers = .console c.verbose :: ((c.logFile.filter (· ≠ "")).map .file).toList ∧
      (s.after calls).handlers.Nodup) ∧
    (s.lastDone? calls = none →
      (s.after calls).level = s.level ∧ (s.after calls).handlers = s.handlers) ∧
    (∀ (c : Call) (s' : State) fault, (c.run s').1 = .error fault ↔
      ∃ name, c.logFile = some name ∧ name ≠ "" ∧ c.refusal name = some fault) ∧
    (∀ (c : Call) (s' : State) fault, (c.run s').1 = .error fault → (c.run s').2 = s') ∧
    ∀ name logger s', (s.after calls).getLogger name = (logger, s') →
      (rootName.toList ∈ lineage s'.isLogger logger.toList ↔
        tailOf name = [] ∨ dotsLeadUp s'.isLogger (leadingDots (tailOf name)) = true) ∧
      ∀ r, r.logger = logger → s'.received r =
        if passes ((s.after calls).level.getD .warning) r ∧
            (tailOf name = [] ∨ dotsLeadUp s'.isLogger (leadingDots (tailOf name)) = true) then
          (s.after calls).handlers
        else [] := by
  have hafter := s.after_of_lastDone? calls
  refine ⟨fun c hc => ?_, fun hnone => ?_, fun c s' fault => c.fst_run_eq_error_iff s',
    fun c s' fault => c.snd_run_of_error, fun name logger s' hasked => ?_⟩
  · rw [hc] at hafter
    refine ⟨hafter.2, ?_, ?_⟩
    · rw [hafter.1, Setup.handlers, c.setup_logFile]
      rfl
    · rw [hafter.1]
      exact c.setup.nodup_handlers
  · rw [hnone] at hafter
    exact hafter.symm
  · have hlogger : loggerName name = logger := congrArg Prod.fst hasked
    have hlevel : (s.after calls).level = s'.level := congrArg (fun asked => asked.2.level) hasked
    have hhandlers : (s.after calls).handlers = s'.handlers := congrArg (fun asked => asked.2.handlers) hasked
    have hroot := rootName_mem_lineage_iff s'.isLogger_rootName name
    rw [hlogger] at hroot
    refine ⟨hroot, fun r hr => ?_⟩
    rw [received_eq, hr, hlevel, hhandlers]
    simp only [hroot]

theorem State.after_calls_refusedFile :
    let s := State.empty.after
      [⟨true, true, some "run.log", fun _ => none⟩, ⟨true, false, some "taken", fun _ => some .isDirectory⟩]
    s.level = some .error ∧ s.handlers = [.console true, .file "run.log"] ∧
      (s.getLogger (some "parser")).2.received ⟨"repolens.parser", .error, none, "broken", []⟩ = s.handlers := by
  obtain ⟨hlast, -, -, -, hasked⟩ := State.after_calls .empty
    [⟨true, true, some "run.log", fun _ => none⟩, ⟨true, false, some "taken", fun _ => some .isDirectory⟩]
  obtain ⟨hlevel, hhandlers, -⟩ := hlast ⟨true, true, some "run.log", fun _ => none⟩ rfl
  have hreceived := (hasked (some "parser") _ _ rfl).2
  refine ⟨hlevel, hhandlers, (hreceived ⟨"repolens.parser", .error, none, "broken", []⟩ (by decide)).trans ?_⟩
  rw [hlevel, if_pos (by decide)]

/-- A name may begin with that of the root and still not be a name below it. -/
theorem rootName_not_above_longerName : ¬ ∀ (s : State) name,
    rootName.toList ∈ lineage (s.getLogger name).2.isLogger (s.getLogger name).1.toList := fun h =>
  absurd (h .empty (some "repolensx")) (by decide)

end CodeCensus.Journal
