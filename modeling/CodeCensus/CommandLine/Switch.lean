/-! Command lines. Words that begin with a dash are switches: a long one stands alone, with its value behind an
equals sign or in the next word; short ones may share a word, the last of them with its value at its end or in
the next word. All other words are operands, and so is everything behind two dashes. -/

namespace CodeCensus.CommandLine

inductive Misuse where
  | unknownSwitch (name : String)
  | valueMissing (name : String)
  | valueUnwanted (name : String)
  | valueInvalid (name value : String)
  | operandMissing (name : String)
  | operandUnexpected (word : String)
  | commandMissing
  | commandUnknown (name : String)
  | notFile (path : String)
  deriving DecidableEq, Repr

def Misuse.message : Misuse → String
  | .unknownSwitch name => "No such option: " ++ name
  | .valueMissing name => "Option " ++ name ++ " requires an argument."
  | .valueUnwanted name => "Option " ++ name ++ " does not take a value."
  | .valueInvalid name value => "Invalid value for " ++ name ++ ": " ++ value
  | .operandMissing name => "Missing argument " ++ name
  | .operandUnexpected word => "Got unexpected extra argument " ++ word
  | .commandMissing => "Missing command."
  | .commandUnknown name => "No such command " ++ name
  | .notFile path => "No file " ++ path

inductive Effect (σ : Type) where
  | flag (choose : σ → σ)
  | value (choose : String → σ → σ)

structure Switch (σ : Type) where
  names : List String
  effect : Effect σ

variable {σ : Type}

def effectOf? (switches : List (Switch σ)) (name : String) : Option (Effect σ) :=
  (switches.find? fun s => s.names.contains name).map Switch.effect

structure Waiting (σ : Type) where
  name : String
  choose : String → σ → σ

def letters (switches : List (Switch σ)) (choices : σ) :
    List Char → Except Misuse (σ × Option (Waiting σ))
  | [] => .ok (choices, none)
  | c :: rest =>
    let name := String.ofList ['-', c]
    match effectOf? switches name with
    | none => .error (.unknownSwitch name)
    | some (.flag choose) => letters switches (choose choices) rest
    | some (.value choose) =>
      if rest.isEmpty then .ok (choices, some ⟨name, choose⟩)
      else .ok (choose (String.ofList rest) choices, none)

/-- Reads a word with a long switch, and the value behind its equals sign if there is one. -/
def longWord (switches : List (Switch σ)) (choices : σ) (word : String) :
    Except Misuse (σ × Option (Waiting σ)) :=
  let chars := word.toList
  let name := String.ofList (chars.takeWhile fun c => c != '=')
  match effectOf? switches name, chars.dropWhile fun c => c != '=' with
  | none, _ => .error (.unknownSwitch name)
  | some (.flag choose), [] => .ok (choose choices, none)
  | some (.flag _), _ :: _ => .error (.valueUnwanted name)
  | some (.value choose), [] => .ok (choices, some ⟨name, choose⟩)
  | some (.value choose), _ :: value => .ok (choose (String.ofList value) choices, none)

def switchWord (switches : List (Switch σ)) (choices : σ) (word : String) :
    Except Misuse (σ × Option (Waiting σ)) :=
  match word.toList with
  | '-' :: '-' :: _ => longWord switches choices word
  | chars => letters switches choices (chars.drop 1)

def isSwitchWord (word : String) : Bool :=
  -- a dash alone is an operand
  match word.toList with
  | '-' :: _ :: _ => true
  | _ => false

/-- Scans words from the left; `waiting` is the switch that takes the next word as its value. -/
def scanFrom (switches : List (Switch σ)) (mixed : Bool) :
    Option (Waiting σ) → σ → List String → Except Misuse (σ × List String)
  | some waiting, _, [] => .error (.valueMissing waiting.name)
  | none, choices, [] => .ok (choices, [])
  | some waiting, choices, word :: rest => scanFrom switches mixed none (waiting.choose word choices) rest
  | none, choices, word :: rest =>
    if word == "--" then .ok (choices, rest)
    else if isSwitchWord word then do
      let (choices, waiting) ← switchWord switches choices word
      scanFrom switches mixed waiting choices rest
    else if mixed then do
      let (choices, operands) ← scanFrom switches mixed none choices rest
      return (choices, word :: operands)
    else .ok (choices, word :: rest)

/-- The choices and the operands of a command line. Where switches may not be mixed with operands, everything
from the first operand on is one. -/
def scan (switches : List (Switch σ)) (mixed : Bool) (choices : σ) (words : List String) :
    Except Misuse (σ × List String) :=
  scanFrom switches mixed none choices words

end CodeCensus.CommandLine
