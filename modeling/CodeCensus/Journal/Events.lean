import CodeCensus.Journal.Basic
import CodeCensus.Survey.Event

/-! The log records of a survey's events. -/

namespace CodeCensus.Journal

def record (logger : String) (level : Level) (event message : String) (fields : List (String × Data)) :
    LogRecord :=
  ⟨logger, level, some event, message, fields⟩

def ofEvent (logger : String) : Event → LogRecord
  | .filesListed repo count =>
    record logger .info "files_listed" ("Listed " ++ toString count ++ " entries in " ++ repo)
      [("repo_id", .text repo), ("count", .int count)]
  | .filesFiltered kept dropped =>
    record logger .info "files_filtered"
      ("Analysing " ++ toString kept ++ " files (" ++ toString dropped ++ " entries skipped)")
      [("kept", .int kept), ("dropped", .int dropped)]
  | .batchStarted index total size =>
    record logger .debug "batch_started"
      ("Batch " ++ toString index ++ "/" ++ toString total ++ " (" ++ toString size ++ " files)")
      [("batch", .int index), ("batches", .int total), ("size", .int size)]
  | .fileParsed f =>
    record logger .debug "file_parsed"
      ("Parsed " ++ f.path ++ " (" ++ f.language ++ ", " ++ toString f.lines ++ " lines, complexity " ++
        toString f.complexity ++ ")")
      [("path", .text f.path), ("language", .text f.language)]
  | .emptyContent path =>
    record logger .debug "empty_content" ("Skipping " ++ path ++ ": empty content") [("path", .text path)]
  | .fetchFailed path error =>
    record logger .warning "fetch_failed" ("Could not fetch " ++ path ++ ": " ++ error)
      [("path", .text path), ("error", .text error)]
  | .parseDegraded path fault =>
    record logger .warning "parse_degraded"
      ("Analysis of " ++ path ++ " failed, keeping line count only: " ++ fault.message)
      [("path", .text path), ("error", .text fault.message)]
  | .analysisCompleted repo census =>
    record logger .info "analysis_completed"
      ("Analysed " ++ repo ++ ": " ++ toString census.totalFiles ++ " files, " ++
        toString census.totalLines ++ " lines")
      [("repo_id", .text repo), ("total_files", .int census.totalFiles),
        ("total_lines", .int census.totalLines)]

def ofEvents (logger : String) (least : Level) (events : List Event) : List LogRecord :=
  (events.map (ofEvent logger)).filter (passes least)

end CodeCensus.Journal
