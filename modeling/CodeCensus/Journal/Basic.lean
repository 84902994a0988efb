import CodeCensus.Data
import CodeCensus.Files.Writing
import CodeCensus.Text.Lines

/-! Log records and where they go. Every logger of the library stands under one root, so that what is set up
there holds for all of them. -/

namespace CodeCensus

inductive Level where
  | debug
  | info
  | warning
  | error
  | critical
  deriving DecidableEq, Repr

namespace Level

def rank : Level → Nat
  | .debug => 10
  | .info => 20
  | .warning => 30
  | .error => 40
  | .critical => 50

def name : Level → String
  | .debug => "DEBUG"
  | .info => "INFO"
  | .warning => "WARNING"
  | .error => "ERROR"
  | .critical => "CRITICAL"

end Level

structure LogRecord where
  logger : String
  level : Level
  event : Option String
  message : String
  fields : List (String × Data)

namespace Journal

def rootName : String := "repolens"

def loggerName : Option String → String
  | none => rootName
  | some name => if rootName.toList.isPrefixOf name.toList then name else rootName ++ "." ++ name

def passes (least : Level) (r : LogRecord) : Bool := least.rank ≤ r.level.rank

/-- The loggers above the one of a reversed name. A name is cut before its dots from the last one on, which is not
done at a dot at the very front, nor at one right before a dot where no logger was found. From a logger that is
found, the way goes on as it does for that one. -/
def above (isLogger : List Char → Bool) : List Char → List (List Char)
  | [] => []
  | '.' :: c :: front =>
    if isLogger (c :: front).reverse then (c :: front).reverse :: above isLogger (c :: front)
    else above isLogger front
  | _ :: front => above isLogger front

/-- The loggers that a record passes on its way up: the one it is given to, and those above. -/
def lineage (isLogger : List Char → Bool) (name : List Char) : List (List Char) :=
  name :: above isLogger name.reverse

/-- What records are handed to: the console, where the places that they come from may be shown, or a file. -/
inductive Handler where
  | console (showsPlaces : Bool)
  | file (name : String)
  deriving DecidableEq, Repr

/-- What the root logger is to be: how severe its records are at least, and where they go, that is to the console,
and to a file if one is given. -/
structure Setup where
  level : Level
  showsPlaces : Bool
  logFile : Option String
  deriving DecidableEq, Repr

/-- What a call asks for: only errors if it is to be quiet, everything if it is to be verbose. -/
def Setup.ofFlags (verbose quiet : Bool) (logFile : Option String) : Setup where
  level := if quiet then .error else if verbose then .debug else .warning
  showsPlaces := verbose
  logFile := logFile.filter fun name => !name.isEmpty

def fileText (r : LogRecord) : String := r.logger ++ " - " ++ r.level.name ++ " - " ++ r.message

def fileLines (r : LogRecord) : List String :=
  (Text.lines (Text.unifyLines (fileText r).toList)).map String.ofList

/-- The level and the handlers of the root logger, the loggers that have been asked for besides, and what has been
written to log files. -/
structure State where
  level : Option Level
  handlers : List Handler
  loggers : List String
  files : List (String × List String)

namespace State

def empty : State := ⟨none, [], [], []⟩

def isLogger (s : State) (name : List Char) : Bool :=
  name == rootName.toList || s.loggers.any fun logger => logger.toList == name

/-- The logger of a name, which is there from then on. -/
def getLogger (s : State) (name : Option String) : String × State :=
  (loggerName name, { s with loggers := loggerName name :: s.loggers })

def append (name : String) (lines : List String) : List (String × List String) → List (String × List String)
  | [] => [(name, lines)]
  | (other, old) :: rest =>
    if other = name then (other, old ++ lines) :: rest else (other, old) :: append name lines rest

def write (s : State) (name : String) (lines : List String) : State :=
  { s with files := append name lines s.files }

def addHandler (s : State) (h : Handler) : State :=
  if s.handlers.contains h then s else { s with handlers := s.handlers ++ [h] }

def removeHandler (s : State) (h : Handler) : State := { s with handlers := s.handlers.erase h }

/-- Puts handlers in the place of those that are there. -/
def install (s : State) (level : Level) (made : List Handler) : State :=
  let cleared := s.handlers.foldl removeHandler s
  { made.foldl addHandler cleared with level := some level }

end State

abbrev Step := ExceptT Files.AccessFault (StateM State)

/-- The handlers that are asked for. A log file is made at once, unless something keeps it from being opened. -/
def Setup.makeHandlers (refusal : String → Option Files.AccessFault) (setup : Setup) : Step (List Handler) :=
  let console := Handler.console setup.showsPlaces
  match setup.logFile with
  | none => return [console]
  | some name => do
    match refusal name with
    | some fault => throw fault
    | none =>
      modify fun s => s.write name []
      return [console, .file name]

def Setup.apply (refusal : String → Option Files.AccessFault) (setup : Setup) : Step Unit := do
  let made ← setup.makeHandlers refusal
  modify fun s => s.install setup.level made

namespace State

def configure (refusal : String → Option Files.AccessFault) (s : State) (setup : Setup) :
    Except Files.AccessFault State :=
  let (outcome, next) := (setup.apply refusal).run.run s
  outcome.map fun _ => next

/-- The handlers that get a record: those of each logger that it passes. No logger but the root has any, and as long
as nothing is set up, only warnings and what is worse pass. -/
def received (s : State) (r : LogRecord) : List Handler :=
  if passes (s.level.getD .warning) r then
    (lineage s.isLogger r.logger.toList).flatMap fun name => if name = rootName.toList then s.handlers else []
  else []

def handle (r : LogRecord) (s : State) : Handler → State
  | .console _ => s
  | .file name => s.write name (fileLines r)

def log (s : State) (r : LogRecord) : State := (s.received r).foldl (handle r) s

end State

end Journal

end CodeCensus
