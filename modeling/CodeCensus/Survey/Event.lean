import CodeCensus.Census.Basic

/-! What a survey reports while it runs. -/

namespace CodeCensus

inductive Event where
  | filesListed (repo : String) (count : Int)
  | filesFiltered (kept dropped : Int)
  | batchStarted (index total size : Int)
  | fileParsed (file : SourceFile)
  | emptyContent (path : String)
  | fetchFailed (path error : String)
  | parseDegraded (path : String) (fault : Fault)
  | analysisCompleted (repo : String) (census : Census)

def Event.ofParse (path : String) (fault : Option Fault) : List Event :=
  (fault.map (Event.parseDegraded path)).toList

end CodeCensus
