import CodeCensus.CommandLine.Run
import CodeCensus.Proofs.Except
import CodeCensus.Proofs.Lookup

/-! The options that a command runs with. What is given on the command line stands in the place of what a
configuration holds, and neither touches any other option. -/

namespace CodeCensus

/-! ## Options -/

section options

variable {config given : Data} {command key other : String} {value : Data}

/-- The options that a configuration holds for a command. -/
def configuredOptions (config : Data) (command : String) : Data :=
  .table (((config.get? command).bind Data.table?).getD [])

theorem get?_mergeOptions {fields : List (String × Data)} (hnodup : (fields.map Prod.fst).Nodup) (key : String) :
    (mergeOptions config command (.record fields)).get? key =
      ((fields.lookup key).filter Data.isGiven).or ((configuredOptions config command).get? key) := by
  let isGiven (entry : String × Data) : Bool := entry.2.isGiven
  have hgiven : (Data.record fields).table?.getD [] = fields.map fun entry => (.text entry.1, entry.2) := rfl
  have hfilter : ((fields.map fun entry => (Data.text entry.1, entry.2)).filter fun entry => entry.2.isGiven) =
      (fields.filter isGiven).map fun entry => (.text entry.1, entry.2) := by
    rw [List.filter_map]
    rfl
  have hnodup' : ((fields.filter isGiven).map Prod.fst).Nodup := hnodup.sublist (List.filter_sublist.map Prod.fst)
  rw [mergeOptions]
  dsimp only
  rw [hgiven, hfilter, List.foldl_map, ← lookup_filter_snd hnodup]
  exact Data.find?_foldl_put hnodup' key _

theorem find?_table?_getD (key : String) (options : Data) :
    Data.find? (.text key) (options.table?.getD []) = options.get? key := by
  cases options <;> rfl

theorem get?_setDefault_self (key : String) (value options : Data) :
    (setDefault key value options).get? key = some ((options.get? key).getD value) := by
  rw [setDefault]
  cases hoptions : options.get? key with
  | some old => exact hoptions
  | none => exact Data.find?_put_self key value _

theorem get?_setDefault_of_ne (h : other ≠ key) (value options : Data) :
    (setDefault key value options).get? other = options.get? other := by
  rw [setDefault]
  cases options.get? key with
  | some old => rfl
  | none => exact (Data.find?_put_of_ne h value _).trans (find?_table?_getD other options)

end options

namespace CommandLine

/-! ## Switches -/

section switches

variable {σ : Type} {switches : List (Switch σ)} {P : σ → Prop} {choices found : σ}

/-- Whatever a switch does, it keeps a property of the choices. -/
def Effect.Keeps (P : σ → Prop) : Effect σ → Prop
  | .flag choose => ∀ choices, P choices → P (choose choices)
  | .value choose => ∀ word choices, P choices → P (choose word choices)

theorem keeps_of_effectOf? (h : ∀ s ∈ switches, s.effect.Keeps P) {name : String} {effect : Effect σ}
    (heffect : effectOf? switches name = some effect) : effect.Keeps P := by
  obtain ⟨s, hs, rfl⟩ := Option.map_eq_some_iff.mp heffect
  exact h s (List.mem_of_find?_eq_some hs)

/-- The choices so far have a property, and a switch that waits for its value keeps it. -/
def KeepsOn (P : σ → Prop) (state : σ × Option (Waiting σ)) : Prop :=
  P state.1 ∧ ∀ waiting, state.2 = some waiting → ∀ word choices, P choices → P (waiting.choose word choices)

theorem letters_keeps (h : ∀ s ∈ switches, s.effect.Keeps P) (hchoices : P choices) {word : List Char}
    {state : σ × Option (Waiting σ)} (hstate : letters switches choices word = .ok state) : KeepsOn P state := by
  induction word generalizing choices with
  | nil =>
    obtain rfl := Except.ok.inj hstate
    exact ⟨hchoices, by simp⟩
  | cons c rest ih =>
    rw [letters] at hstate
    split at hstate
    · cases hstate
    · rename_i choose heffect
      exact ih (keeps_of_effectOf? h heffect choices hchoices) hstate
    · rename_i choose heffect
      have hkeeps := keeps_of_effectOf? h heffect
      split at hstate
      · obtain rfl := Except.ok.inj hstate
        refine ⟨hchoices, fun waiting hwaiting => ?_⟩
        obtain rfl := Option.some.inj hwaiting
        exact hkeeps
      · obtain rfl := Except.ok.inj hstate
        exact ⟨hkeeps _ _ hchoices, by simp⟩

theorem longWord_keeps (h : ∀ s ∈ switches, s.effect.Keeps P) (hchoices : P choices) {word : String}
    {state : σ × Option (Waiting σ)} (hstate : longWord switches choices word = .ok state) : KeepsOn P state := by
  rw [longWord] at hstate
  split at hstate
  · cases hstate
  · rename_i choose heffect _
    obtain rfl := Except.ok.inj hstate
    exact ⟨keeps_of_effectOf? h heffect choices hchoices, by simp⟩
  · cases hstate
  · rename_i choose heffect _
    obtain rfl := Except.ok.inj hstate
    refine ⟨hchoices, fun waiting hwaiting => ?_⟩
    obtain rfl := Option.some.inj hwaiting
    exact keeps_of_effectOf? h heffect
  · rename_i choose _ value heffect _
    obtain rfl := Except.ok.inj hstate
    exact ⟨keeps_of_effectOf? h heffect _ _ hchoices, by simp⟩

theorem switchWord_keeps (h : ∀ s ∈ switches, s.effect.Keeps P) (hchoices : P choices) {word : String}
    {state : σ × Option (Waiting σ)} (hstate : switchWord switches choices word = .ok state) : KeepsOn P state := by
  rw [switchWord] at hstate
  split at hstate
  · exact longWord_keeps h hchoices hstate
  · exact letters_keeps h hchoices hstate

theorem scanFrom_keeps (h : ∀ s ∈ switches, s.effect.Keeps P) {mixed : Bool} {waiting : Option (Waiting σ)}
    {words operands : List String} (hkeeps : KeepsOn P (choices, waiting))
    (hscan : scanFrom switches mixed waiting choices words = .ok (found, operands)) : P found := by
  induction words generalizing waiting choices operands with
  | nil =>
    cases waiting with
    | some waiting => cases hscan
    | none =>
      obtain ⟨rfl, -⟩ := Prod.mk.inj (Except.ok.inj hscan)
      exact hkeeps.1
  | cons word rest ih =>
    cases waiting with
    | some waiting => exact ih ⟨hkeeps.2 waiting rfl word choices hkeeps.1, by simp⟩ hscan
    | none =>
      rw [scanFrom] at hscan
      split at hscan
      · obtain ⟨rfl, -⟩ := Prod.mk.inj (Except.ok.inj hscan)
        exact hkeeps.1
      split at hscan
      · obtain ⟨state, hstate, hscan⟩ := Except.bind_eq_ok hscan
        exact ih (switchWord_keeps h hkeeps.1 hstate) hscan
      split at hscan
      · obtain ⟨⟨later, below⟩, hrest, hscan⟩ := Except.bind_eq_ok hscan
        obtain ⟨rfl, -⟩ := Prod.mk.inj (Except.ok.inj hscan)
        exact ih hkeeps hrest
      · obtain ⟨rfl, -⟩ := Prod.mk.inj (Except.ok.inj hscan)
        exact hkeeps.1

/-- What every switch keeps holds of the choices at the end if it holds at the start. -/
theorem scan_keeps (h : ∀ s ∈ switches, s.effect.Keeps P) {mixed : Bool} {words operands : List String}
    (hchoices : P choices) (hscan : scan switches mixed choices words = .ok (found, operands)) : P found :=
  scanFrom_keeps h ⟨hchoices, by simp⟩ hscan

end switches

/-! ## Flags -/

namespace Analysis

variable {config : Data} {a : Analysis}

/-- The figures that a command line gives are within the bounds of their flags. -/
structure InBounds (a : Analysis) : Prop where
  batchSize : ∀ n, a.batchSize = some n → 1 ≤ n
  batchDelay : ∀ x, a.batchDelay = some x → x.isNaN = true ∨ x.nonNegative = true

theorem valueOf_eq_ok {α : Type} {name : String} {read : String → Option α} {word? : Option String} {value? : Option α}
    (h : valueOf name read word? = .ok value?) {value : α} (hvalue : value? = some value) :
    ∃ word, word? = some word ∧ read word = some value := by
  cases word? with
  | none =>
    obtain rfl := Except.ok.inj h
    cases hvalue
  | some word =>
    rw [valueOf] at h
    split at h
    · rename_i read hread
      obtain rfl := Except.ok.inj h
      exact ⟨word, rfl, hread.trans hvalue⟩
    · cases h

theorem inBounds_ofSwitches {s : AnalysisSwitches} {operands : List String} (h : ofSwitches s operands = .ok a) :
    a.InBounds := by
  rw [ofSwitches] at h
  obtain ⟨batchSize, hsize, h⟩ := Except.bind_eq_ok h
  obtain ⟨batchDelay, hdelay, h⟩ := Except.bind_eq_ok h
  obtain ⟨target, -, h⟩ := Except.bind_eq_ok h
  obtain rfl := Except.ok.inj h
  constructor
  case batchSize =>
    intro n hn
    obtain ⟨word, -, hword⟩ := valueOf_eq_ok hsize hn
    obtain ⟨m, -, hm⟩ := Option.bind_eq_some_iff.mp hword
    split at hm
    · obtain rfl := Option.some.inj hm
      omega
    · cases hm
  case batchDelay =>
    intro x hx
    obtain ⟨word, -, hword⟩ := valueOf_eq_ok hdelay hx
    obtain ⟨y, -, hy⟩ := Option.bind_eq_some_iff.mp hword
    split at hy
    · rename_i hbounds
      obtain rfl := Option.some.inj hy
      exact Bool.or_eq_true_iff.mp hbounds
    · cases hy

/-- No switch before the name of a command asks for an analysis. -/
theorem asked_ne_analyze {arguments words : List String} {asked : Option Command}
    (h : scan Command.switchTable false none arguments = .ok (asked, words)) (a : Analysis) :
    asked ≠ some (.analyze a) := by
  have hkeeps : ∀ s ∈ Command.switchTable, s.effect.Keeps fun asked => asked ≠ some (.analyze a) := by
    intro s hs
    simp only [Command.switchTable, List.mem_cons, List.not_mem_nil, or_false] at hs
    rcases hs with rfl | rfl
    all_goals
      rintro (_ | command) hasked heq
      · cases heq
      · exact hasked heq
  exact scan_keeps (P := fun asked => asked ≠ some (.analyze a)) hkeeps (by simp) h

theorem inBounds_ofArguments {arguments : List String} (h : Command.ofArguments arguments = .ok (.analyze a)) :
    a.InBounds := by
  rw [Command.ofArguments] at h
  obtain ⟨⟨asked, words⟩, hscan, h⟩ := Except.bind_eq_ok h
  have hasked := asked_ne_analyze hscan a
  cases asked with
  | some command => exact absurd (congrArg some (Except.ok.inj h)) hasked
  | none =>
    change Command.ofWords words = _ at h
    rw [Command.ofWords.eq_def] at h
    split at h
    · cases h
    · rename_i words
      rw [Command.ofAnalyze] at h
      obtain ⟨⟨switches, operands⟩, -, h⟩ := Except.bind_eq_ok h
      dsimp only at h
      split at h
      · cases h
      · obtain ⟨read, hread, h⟩ := Except.bind_eq_ok h
        obtain rfl := Command.analyze.inj (Except.ok.inj h)
        exact inBounds_ofSwitches hread
    · rename_i words
      rw [Command.ofParse] at h
      obtain ⟨⟨switches, operands⟩, -, h⟩ := Except.bind_eq_ok h
      dsimp only at h
      split at h
      · cases h
      · obtain ⟨path, -, h⟩ := Except.bind_eq_ok h
        cases h
    · cases h

def fields (a : Analysis) : List (String × Data) := [
  ("batch_size", (a.batchSize.map fun n => Data.int n).getD .null),
  ("batch_delay", (a.batchDelay.map Data.float).getD .null)]

theorem get?_localOptions_of_ne {key : String} (hsize : key ≠ "batch_size") (hdelay : key ≠ "batch_delay")
    (config : Data) (a : Analysis) :
    (localOptions config a.given).get? key = (configuredOptions config "analyze").get? key := by
  have hlookup : a.fields.lookup key = none := lookup_eq_none_of_not_mem (by simp [fields, hsize, hdelay])
  rw [localOptions, get?_setDefault_of_ne hdelay]
  change (mergeOptions config "analyze" (.record a.fields)).get? key = _
  rw [get?_mergeOptions (by simp [fields]), hlookup]
  rfl

theorem get?_localOptions_batchSize (config : Data) (a : Analysis) :
    (localOptions config a.given).get? "batch_size" =
      (a.batchSize.map fun n : Nat => Data.int n).or ((configuredOptions config "analyze").get? "batch_size") := by
  rw [localOptions, get?_setDefault_of_ne (by decide)]
  change (mergeOptions config "analyze" (.record a.fields)).get? "batch_size" = _
  rw [get?_mergeOptions (by simp [fields]), fields]
  cases a.batchSize <;> rfl

/-- A delay is given, configured or zero. -/
theorem get?_localOptions_batchDelay (config : Data) (a : Analysis) :
    (localOptions config a.given).get? "batch_delay" =
      some (((a.batchDelay.map Data.float).or ((configuredOptions config "analyze").get? "batch_delay")).getD
        (.float .zero)) := by
  rw [localOptions, get?_setDefault_self]
  change some (((mergeOptions config "analyze" (.record a.fields)).get? "batch_delay").getD _) = _
  rw [get?_mergeOptions (by simp [fields]), fields]
  cases a.batchDelay <;> rfl

end Analysis

end CommandLine

end CodeCensus
