import CodeCensus.CommandLine.Run

/-! The program. It reads the files that a command needs into a tree, runs the command there, and then prints,
notes and writes what is left of the run. -/

namespace CodeCensus.Program

open CommandLine

def pathsRead : Command → List String
  | .analyze a => if a.switches.remote then [] else [a.target]
  | .parse r => [r.path]
  | _ => []

def pathsWritten : Command → List String
  | .analyze a => a.switches.output.toList ++ a.switches.logFile.toList
  | .parse r => r.switches.output.toList
  | _ => []

def names (path : String) : Files.Place := plainPlace [] path

def unreadable : Files.Node := .link ""

partial def nodeOf (entry : IO.FS.DirEntry) : IO Files.Node := do
  -- directories that are never listed are not entered
  try
    match (← entry.path.symlinkMetadata).type with
    | .symlink => return .link (← IO.FS.realPath entry.path).toString
    | .dir =>
      if Files.neverListed.contains entry.fileName then return .dir []
      let entries ← entry.path.readDir
      return .dir (← entries.toList.mapM fun e => return (e.fileName, ← nodeOf e))
    | .file => return .file (← IO.FS.readBinFile entry.path).toList
    | .other => return unreadable
  catch _ => return unreadable

def addRead (place : Files.Place) (top : Files.Node) (path : String) : IO Files.Node := do
  try
    let real := (← IO.FS.realPath path).toString
    let node ← nodeOf ⟨"/", String.ofList (real.toList.drop 1)⟩
    let top := Files.Node.insert node (names real) top
    let plain := plainPlace place path
    return if names real == plain then top else Files.Node.insert (.link real) plain top
  catch _ => return top

def addDirs (place : Files.Place) (top : Files.Node) (path : String) : IO Files.Node := do
  let plain := plainPlace place path
  (List.range (plain.length + 1)).foldlM
    (fun top count => do
      let here : Files.Place := plain.take count
      let isThere := (top.at? here).isSome
      try
        let real ← IO.FS.realPath (Files.Place.text here)
        if !isThere && (← real.isDir) then return Files.Node.insert (.dir []) here top
        return top
      catch _ => return top)
    top

def treeFor (place : Files.Place) (command : Command) : IO Files.Node := do
  let top := Files.Node.insert (.dir []) place (.dir [])
  let top ← (pathsRead command).foldlM (addRead place) top
  (pathsWritten command).foldlM (addDirs place) top

def appendLog (path : String) (records : List LogRecord) : IO Unit := do
  let file ← IO.FS.Handle.mk path .append
  for record in records do
    file.putStrLn (Journal.fileText record)

def save (path text : String) : IO Unit := do
  IO.FS.createDirAll (Path.parent path)
  IO.FS.writeFile path text

def told : Stop → Option String
  | .misuse misuse => some misuse.message
  | .failed => none
  | .crash crash => some crash.message

def finish (command : Command) (outcome : Except Stop Unit) (trace : Trace) : IO UInt32 := do
  for record in trace.records do
    IO.eprintln (record.level.name ++ " " ++ record.message)
  match command with
  | .analyze { switches := { logFile := some path, .. }, .. } => appendLog path trace.records
  | _ => pure ()
  for (path, text) in trace.saved do
    save path text
  IO.print trace.printed
  for row in trace.tables.flatten do
    IO.eprintln (String.intercalate "  " row)
  for text in trace.notes do
    IO.eprintln text
  match outcome with
  | .ok () => pure ()
  | .error stop => (told stop).forM fun text => IO.eprintln text
  return (exitCode outcome).toUInt32

def start (arguments : List String) : IO UInt32 := do
  match Command.ofArguments arguments with
  | .error misuse =>
    IO.eprintln misuse.message
    return (exitCode (.error (.misuse misuse))).toUInt32
  | .ok command =>
    let place := names (← IO.currentDir).toString
    let top ← treeFor place command
    let workplace : Workplace :=
      { top, place
        ask := fun _ _ => .unreachable "The network is out of reach."
        token := ← IO.getEnv "GITHUB_TOKEN" }
    let (outcome, trace) := (command.run workplace).run.run { top }
    finish command outcome trace

end CodeCensus.Program

def main (arguments : List String) : IO UInt32 := CodeCensus.Program.start arguments
