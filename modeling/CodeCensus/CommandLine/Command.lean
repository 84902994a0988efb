import CodeCensus.CommandLine.Switch
import CodeCensus.Data
import CodeCensus.Number.Written

/-! The commands and how they are given. A command line is `analyze`, for a whole repository, or `parse`, for one
file, each with its switches; before them stand only switches that ask about the program itself. -/

namespace CodeCensus.CommandLine

def helpNames : List String := ["-h", "--help"]

def outputNames : List String := ["-o", "--output"]

def soleOperand (name : String) : List String → Except Misuse String
  | [] => .error (.operandMissing name)
  | [operand] => .ok operand
  | _ :: extra :: _ => .error (.operandUnexpected extra)

/-! ## Whole repositories -/

structure AnalysisSwitches where
  help : Bool := false
  remote : Bool := false
  ref : String := "HEAD"
  token : Option String := none
  output : Option String := none
  withContent : Bool := false
  includeHidden : Bool := false
  batchSize : Option String := none
  batchDelay : Option String := none
  summary : Bool := false
  verbose : Bool := false
  quiet : Bool := false
  logFile : Option String := none

structure Analysis where
  target : String
  switches : AnalysisSwitches
  batchSize : Option Nat
  batchDelay : Option Double

namespace Analysis

def switchTable : List (Switch AnalysisSwitches) := [
  ⟨helpNames, .flag fun s => { s with help := true }⟩,
  ⟨["--github"], .flag fun s => { s with remote := true }⟩,
  ⟨["--ref"], .value fun word s => { s with ref := word }⟩,
  ⟨["--token"], .value fun word s => { s with token := some word }⟩,
  ⟨outputNames, .value fun word s => { s with output := some word }⟩,
  ⟨["--include-content"], .flag fun s => { s with withContent := true }⟩,
  ⟨["-i", "--include-hidden"], .flag fun s => { s with includeHidden := true }⟩,
  ⟨["--batch-size"], .value fun word s => { s with batchSize := some word }⟩,
  ⟨["--batch-delay"], .value fun word s => { s with batchDelay := some word }⟩,
  ⟨["--summary"], .flag fun s => { s with summary := true }⟩,
  ⟨["-v", "--verbose"], .flag fun s => { s with verbose := true }⟩,
  ⟨["-q", "--quiet"], .flag fun s => { s with quiet := true }⟩,
  ⟨["--log-file"], .value fun word s => { s with logFile := some word }⟩]

def valueOf {α : Type} (name : String) (read : String → Option α) :
    Option String → Except Misuse (Option α)
  | none => .ok none
  | some word =>
    match read word with
    | some a => .ok (some a)
    | none => .error (.valueInvalid name word)

def batchSize? (word : String) : Option Nat :=
  (Written.int? 10 word.toList).bind fun n => if 1 ≤ n then some n.toNat else none

def batchDelay? (word : String) : Option Double :=
  (Written.double? word.toList).bind fun x => if x.isNaN || x.nonNegative then some x else none

def ofSwitches (s : AnalysisSwitches) (operands : List String) : Except Misuse Analysis := do
  let batchSize ← valueOf "--batch-size" batchSize? s.batchSize
  let batchDelay ← valueOf "--batch-delay" batchDelay? s.batchDelay
  let target ← soleOperand "TARGET" operands
  return ⟨target, s, batchSize, batchDelay⟩

def given (a : Analysis) : Data :=
  .record [("batch_size", (a.batchSize.map fun n => Data.int n).getD .null),
    ("batch_delay", (a.batchDelay.map Data.float).getD .null)]

end Analysis

/-! ## Single files -/

structure ReadingSwitches where
  help : Bool := false
  output : Option String := none
  withContent : Bool := false

structure FileReading where
  path : String
  switches : ReadingSwitches

def FileReading.switchTable : List (Switch ReadingSwitches) := [
  ⟨helpNames, .flag fun s => { s with help := true }⟩,
  ⟨outputNames, .value fun word s => { s with output := some word }⟩,
  ⟨["--include-content"], .flag fun s => { s with withContent := true }⟩]

/-! ## Command lines -/

inductive Command where
  | help
  | version
  | analyze (analysis : Analysis)
  | parse (reading : FileReading)

namespace Command

/-- The switches before the name of a command; the first one given is what is asked for. -/
def switchTable : List (Switch (Option Command)) := [
  ⟨["--version"], .flag fun asked => asked.orElse fun _ => some .version⟩,
  ⟨helpNames, .flag fun asked => asked.orElse fun _ => some .help⟩]

def ofAnalyze (words : List String) : Except Misuse Command := do
  let (switches, operands) ← scan Analysis.switchTable true {} words
  if switches.help then return .help
  return .analyze (← Analysis.ofSwitches switches operands)

def ofParse (words : List String) : Except Misuse Command := do
  let (switches, operands) ← scan FileReading.switchTable true {} words
  if switches.help then return .help
  return .parse ⟨← soleOperand "PATH" operands, switches⟩

def ofWords : List String → Except Misuse Command
  | [] => .error .commandMissing
  | "analyze" :: words => ofAnalyze words
  | "parse" :: words => ofParse words
  | name :: _ => .error (.commandUnknown name)

def ofArguments (arguments : List String) : Except Misuse Command := do
  let (asked, words) ← scan switchTable false none arguments
  match asked with
  | some command => return command
  | none => ofWords words

end Command

end CodeCensus.CommandLine
