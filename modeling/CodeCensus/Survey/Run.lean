import CodeCensus.Census.Selection
import CodeCensus.Failure
import CodeCensus.Settings
import CodeCensus.Survey.Event

/-! A survey of a repository: its listing is reduced to the entries worth reading, these are fetched and
analysed batch by batch, and what is found is tallied. A file that cannot be fetched or is empty is left out;
only a listing that fails makes the survey fail. -/

namespace CodeCensus

/-- Where a repository is read from: its listing, and the content of each path. -/
structure Source where
  list : Except Failure (List Entry)
  fetch : String → Except Failure String

inductive Step where
  | report (event : Event)
  | fetch (path : String)
  | pause (seconds : Double)

structure Survey where
  outcome : Except Failure Census
  steps : List Step

namespace Survey

def events (s : Survey) : List Event :=
  s.steps.filterMap fun step => match step with | .report e => some e | _ => none

def fetched (s : Survey) : List String :=
  s.steps.filterMap fun step => match step with | .fetch path => some path | _ => none

def pauses (s : Survey) : List Double :=
  s.steps.filterMap fun step => match step with | .pause d => some d | _ => none

def stretches {α : Type} (size : Nat) : Nat → List α → List (List α)
  | 0, _ => []
  | _ + 1, [] => []
  | count + 1, a :: rest => (a :: rest).take size :: stretches size count ((a :: rest).drop size)

def batches {α : Type} (size : Nat) (l : List α) : List (List α) := stretches size l.length l

/-- What becomes of a path once its fetch is answered: the file, if it is kept, and what is reported. -/
def surveyAnswer (r : Registry) (s : Settings) (path : String) :
    Except Failure String → Option SourceFile × List Event
  | .error failure => (none, [.fetchFailed path failure.text])
  | .ok content =>
    if content.isEmpty then (none, [.emptyContent path])
    else
      let (file, fault) := SourceFile.parse r s.maxContentChars path content
      (some file, Event.ofParse path fault ++ [.fileParsed file])

def surveyEntry (r : Registry) (s : Settings) (fetch : String → Except Failure String) (e : Entry) :
    Option SourceFile × List Event :=
  surveyAnswer r s e.path (fetch e.path)

def entrySteps (e : Entry) (events : List Event) : List Step := .fetch e.path :: events.map .report

def surveyBatch (r : Registry) (s : Settings) (fetch : String → Except Failure String)
    (batch : List Entry) : List SourceFile × List Step :=
  let fates := batch.map fun e => (e, surveyEntry r s fetch e)
  (fates.filterMap fun (_, file, _) => file, fates.flatMap fun (e, _, events) => entrySteps e events)

/-- The pause after a batch: none after the last one, and none at all unless settings ask for it. -/
def pauseAfter (s : Settings) (later : List (List Entry)) : List Step :=
  if later.isEmpty || !s.batchDelay.positive then [] else [.pause s.batchDelay]

/-- Surveys batches from the one with number `index` on and adds what is found to a tally. -/
def surveyBatches (r : Registry) (s : Settings) (fetch : String → Except Failure String) (total : Nat) :
    Nat → Tally → List (List Entry) → Tally × List Step
  | _, t, [] => (t, [])
  | index, t, batch :: later =>
    let (files, steps) := surveyBatch r s fetch batch
    let (t, more) := surveyBatches r s fetch total (index + 1) (t.merge (.ofFiles files)) later
    (t, .report (.batchStarted index total batch.length) :: steps ++ pauseAfter s later ++ more)

def ofEntries (r : Registry) (s : Settings) (repo : String) (entries : List Entry)
    (fetch : String → Except Failure String) : Survey :=
  let kept := selectEntries s.excludedNames entries
  let batches := batches s.batchSize kept
  let (tally, steps) := surveyBatches r s fetch batches.length 1 .empty batches
  let census := Census.ofTally tally entries
  { outcome := .ok census
    steps :=
      [.report (.filesListed repo entries.length),
        .report (.filesFiltered kept.length (entries.length - kept.length))] ++
        steps ++ [.report (.analysisCompleted repo census)] }

def run (r : Registry) (s : Settings) (repo : String) (source : Source) : Survey :=
  match source.list with
  | .error failure => ⟨.error (failure.ofListing repo), []⟩
  | .ok entries => ofEntries r s repo entries source.fetch

end Survey

end CodeCensus
