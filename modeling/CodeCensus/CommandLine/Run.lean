import CodeCensus.CommandLine.Command
import CodeCensus.CommandLine.Summary
import CodeCensus.Configuration
import CodeCensus.Files.Checkout
import CodeCensus.Files.Writing
import CodeCensus.Journal.Events
import CodeCensus.Json.Writer
import CodeCensus.Remote.GitHub

/-! What a command does: what it prints, what it notes on the side, which files it writes, and how it ends. It runs
in a workplace, that is a tree of files, a place in it, and the replies of the network. -/

namespace CodeCensus.CommandLine

structure Workplace where
  top : Files.Node
  place : Files.Place
  ask : List (String × String) → Remote.Request → Remote.Reply
  token : Option String := none

inductive Crash where
  | configuration (refusal : Yaml.Refusal)
  | report (path : String) (fault : Files.WriteFault)
  | logFile (path : String) (fault : Files.AccessFault)
  | target (path : String) (fault : Files.AccessFault)
  | markup
  | invalidPath
  deriving DecidableEq, Repr

def Crash.message : Crash → String
  | .configuration .notText => "The configuration is no text."
  | .configuration _ => "The configuration holds a value that is not of its kind."
  | .report path (.access fault) => fault.message path
  | .report path .occupied => "[Errno 17] File exists: " ++ Text.Quoted.ofText path
  | .logFile path fault => fault.message path
  | .target path fault => fault.message path
  | .markup => "A closing tag matches no open tag."
  | .invalidPath => "embedded null byte"

inductive Stop where
  | misuse (misuse : Misuse)
  | failed
  | crash (crash : Crash)

structure Trace where
  top : Files.Node
  printed : String := ""
  notes : List String := []
  records : List LogRecord := []
  tables : List Rows := []
  saved : List (String × String) := []

abbrev Run := ExceptT Stop (StateM Trace)

namespace Run

def note (text : String) : Run Unit := modify fun t => { t with notes := t.notes ++ [text] }

def print (text : String) : Run Unit := modify fun t => { t with printed := t.printed ++ text }

def table (rows : Rows) : Run Unit := modify fun t => { t with tables := t.tables ++ [rows] }

def log (records : List LogRecord) : Run Unit :=
  modify fun t => { t with records := t.records ++ records }

def crash {α : Type} (crash : Crash) : Run α := throw (.crash crash)

def fail {α : Type} (text : String) : Run α := do
  note ("❌ ERROR: " ++ text)
  throw .failed

def orCrash {α ε : Type} (asCrash : ε → Crash) : Except ε α → Run α
  | .ok a => pure a
  | .error fault => crash (asCrash fault)

def checkPaths (paths : List String) : Run Unit :=
  if paths.any fun path => path.toList.contains '\x00' then crash .invalidPath else pure ()

end Run

open Run

def deliver (w : Workplace) (report : String) : Option String → Run Unit
  | none => print (report ++ "\n")
  | some output => do
    let path := Path.normal output
    let top := (← get).top
    let top ← orCrash (.report path) (top.makeDir w.place (Path.parent path))
    modify fun t => { t with top }
    let top ← orCrash (.report path ∘ .access) (top.write w.place path (Text.Utf8.encode report.toList))
    modify fun t => { t with top, saved := t.saved ++ [(path, report)] }
    note ("✅ Report saved to: " ++ path)

/-! ## Whole repositories -/

def plainPlace (place : Files.Place) (path : String) : Files.Place := Files.plainRest place (Files.steps path)

def openLog (w : Workplace) (setup : Journal.Setup) : Run Unit :=
  match setup.logFile with
  | none => pure ()
  | some path => do
    let place := (plainPlace w.place path).text
    let top ← orCrash (.logFile place) ((← get).top.append [] place [])
    modify fun t => { t with top }

/-- The options for a directory: those of its configuration with those of the command line in their place. A
directory is read without pauses unless they are asked for. -/
def localOptions (config given : Data) : Data :=
  setDefault "batch_delay" (.float .zero) (mergeOptions config "analyze" given)

def remoteOptions (given : Data) : Data := mergeOptions .emptyTable "analyze" given

structure Subject where
  name : String
  source : Source
  settings : Settings
  records : List LogRecord := []

def remoteSubject (w : Workplace) (a : Analysis) : Subject :=
  let api : Remote.Api := { ref := a.switches.ref }
  let ask := w.ask (Remote.headers [a.switches.token, w.token])
  { name := a.target
    source := Remote.source api a.target ask
    settings := .ofOptions (remoteOptions a.given)
    records := Remote.listingRecords api a.target ask }

def localSubject (w : Workplace) (a : Analysis) : Run Subject := do
  let top := (← get).top
  let path := Path.normal a.target
  if top.fault? w.place path == some .nameTooLong then crash (.target path .nameTooLong)
  if !top.isDirAt w.place path then fail ("Not a directory: " ++ a.target)
  let config ← orCrash .configuration (Configuration.load top w.place path)
  let options := localOptions config a.given
  let root := ((top.resolve w.place path).getD w.place).text
  let listing : Files.ListingOptions :=
    { includeHidden := a.switches.includeHidden
      excludedNames := (options.get? "exclude_patterns").getD .null }
  return {
    name := root
    source := (Files.Checkout.mk top [] root listing).source
    settings := .ofOptions options }

def summarize (c : Census) : Run Unit := do
  for rows in [languageRows c, issueRows c] do
    match shownRows? rows with
    | some rows => table rows
    | none => crash .markup
  note (totals c)

def analyze (w : Workplace) (a : Analysis) : Run Unit := do
  let s := a.switches
  checkPaths (s.output.toList ++ s.logFile.toList)
  let setup := Journal.Setup.ofFlags s.verbose s.quiet (s.logFile.map Path.normal)
  openLog w setup
  let subject ← if s.remote then pure (remoteSubject w a) else localSubject w a
  note ("🔍 Analyzing repository at: " ++ subject.name)
  let survey := Survey.run .standard subject.settings subject.name subject.source
  log ((subject.records ++ survey.events.map (Journal.ofEvent Journal.rootName)).filter
    (Journal.passes setup.level))
  match survey.outcome with
  | .error failure => fail failure.text
  | .ok census =>
    deliver w (Json.indented (census.toData s.withContent)) s.output
    if s.summary then summarize census

/-! ## Single files -/

def readFile (w : Workplace) (r : FileReading) : Run Unit := do
  checkPaths (r.path :: r.switches.output.toList)
  let top := (← get).top
  match if r.path.isEmpty then none else top.file? w.place r.path with
  | none => throw (.misuse (.notFile r.path))
  | some bytes =>
    let (file, _) :=
      SourceFile.parse .standard SourceFile.maxContentChars (Path.normal r.path) (Files.Checkout.textOf bytes)
    deliver w (Json.indented (file.toData r.switches.withContent)) r.switches.output

/-! ## All commands -/

def programVersion : String := "1.0.0"

def usage : String :=
  "Usage: repolens [--version] analyze TARGET [OPTIONS]\n       repolens parse PATH [OPTIONS]\n"

def Command.run (w : Workplace) : Command → Run Unit
  | .help => print usage
  | .version => print ("RepoLens Version: " ++ programVersion ++ "\n")
  | .analyze a => CommandLine.analyze w a
  | .parse r => readFile w r

def run (w : Workplace) (arguments : List String) : Except Stop Unit × Trace :=
  let start : Trace := { top := w.top }
  match Command.ofArguments arguments with
  | .error misuse => (.error (.misuse misuse), start)
  | .ok command => (command.run w).run.run start

def exitCode : Except Stop Unit → Nat
  | .ok () => 0
  | .error (.misuse _) => 2
  | .error .failed => 1
  | .error (.crash _) => 1

end CodeCensus.CommandLine
