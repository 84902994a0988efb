/-! The entries of a repository's listing. -/

namespace CodeCensus

inductive EntryKind where
  | file
  | dir
  deriving DecidableEq, Repr

structure Entry where
  path : String
  name : String
  kind : EntryKind
  size : Int := 0
  sha : Option String := none
  deriving DecidableEq, Repr

namespace Entry

def nameOf (path : String) : String :=
  String.ofList (path.toList.reverse.takeWhile (· != '/')).reverse

def file (path : String) : Entry := ⟨path, nameOf path, .file, 0, none⟩

def dir (path : String) : Entry := ⟨path, nameOf path, .dir, 0, none⟩

end Entry

end CodeCensus
