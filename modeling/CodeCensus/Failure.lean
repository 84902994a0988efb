/-! Why a repository cannot be listed or a file not fetched, and how that is told: a message, and the details
in parentheses after it. -/

namespace CodeCensus

structure Complaint where
  message : String
  details : List (String × String)
  deriving DecidableEq, Repr

def Complaint.text (c : Complaint) : String :=
  if c.details.isEmpty then c.message
  else
    c.message ++ " (" ++
      String.intercalate ", " (c.details.map fun (key, value) => key ++ "=" ++ value) ++ ")"

/-- Why a repository cannot be listed or a file not fetched. -/
inductive Failure where
  | access (repo reason : String)
  | fetch (path reason : String)
  | other (text : String)
  deriving DecidableEq, Repr

namespace Failure

def complaint : Failure → Complaint
  | .access repo reason =>
    ⟨"Cannot list files of repository: " ++ repo, [("repo_id", repo), ("reason", reason)]⟩
  | .fetch path reason => ⟨"Cannot fetch file content: " ++ path, [("path", path), ("reason", reason)]⟩
  | .other text => ⟨text, []⟩

def text (f : Failure) : String := f.complaint.text

def ofListing (repo : String) : Failure → Failure
  -- one that says so already stays as it is
  | .access repo' reason => .access repo' reason
  | f => .access repo f.text

end Failure

end CodeCensus
