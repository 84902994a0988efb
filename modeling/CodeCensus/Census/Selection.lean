import CodeCensus.Entry
import CodeCensus.Language.Tag

/-! Which entries of a listing a census reads: files of text outside the directories that are left out. -/

namespace CodeCensus

open Text

def directorySegments (path : String) : List (List Char) :=
  (fields '/' (lower (Path.unify path).toList)).dropLast

def liesWithin (excluded : List String) (path : String) : Bool :=
  (directorySegments path).any fun segment => excluded.any fun name => name.toList == segment

/-- Whether the extension, the name or the place of a path tells that its text is worth reading. -/
def isWorthReading (path : String) : Bool :=
  Language.sourceExtensions.contains (Path.extension path) || Language.hasKnownName path ||
    Language.isServerSide path

def Entry.isSelected (excluded : List String) (e : Entry) : Bool :=
  e.kind == .file && !liesWithin excluded e.path && !Language.isBinary e.path && isWorthReading e.path

def selectEntries (excluded : List String) (entries : List Entry) : List Entry :=
  entries.filter (Entry.isSelected excluded)

end CodeCensus
