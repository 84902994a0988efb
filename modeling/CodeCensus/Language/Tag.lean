import CodeCensus.Language.Table
import CodeCensus.Pattern.Build
import CodeCensus.Pattern.Search

/-! The language of a file: a short tag found from its path, or guessed from its text where the path says
nothing. -/

namespace CodeCensus.Language

open Pattern

def isBinary (path : String) : Bool := binaryExtensions.contains (Path.extension path)

def hasKnownName (path : String) : Bool := (nameTags.lookup (Path.lowerName path)).isSome

def isServerSide (path : String) : Bool :=
  let lowered := Text.lowercase (Path.unify path)
  backendMarks.any (Path.mentions lowered)

def displayName? (path : String) : Option String := displayNames.lookup (Path.extension path)

def base (tag : String) : String :=
  let chars := tag.toList
  let mark := backendSuffix.toList
  if mark.isSuffixOf chars then String.ofList (chars.take (chars.length - mark.length)) else tag

/-- The language that the extension or else the name of a path tells, without regard to the server side. -/
def plainTag (path : String) : String :=
  ((extensionTags.lookup (Path.extension path)).orElse fun _ =>
    nameTags.lookup (Path.lowerName path)).getD plainText

def ofPath (path : String) : String :=
  let tag := plainTag path
  if backendCapable.contains tag && isServerSide path then tag ++ backendSuffix else tag

def interpreterLine : Pattern := inOrder [.edge .textStart, "#!", .run (beyond ['\n'])]

def moduleSyntax : Pattern :=
  .alt
    (inOrder [wordEdge, "import", blanks1, .run (beyond ['\n']), wordEdge, "from", wordEdge])
    (inOrder [wordEdge, "export", blanks1])

def definitionHead : Pattern :=
  inOrder [wordEdge, "def", blanks1, some1 Text.isWord, blanks, "("]

def importLine : Pattern :=
  inOrder [lineStart, blanks,
    optional ["from", blanks1, some1 (fun c => !Text.isBlank c), blanks1],
    "import", blanks1, .one Text.isWord]

def ofInterpreterLine? (line : List Char) : Option String :=
  let names (word : String) : Bool := Text.occurs word.toList line
  if names "python" then some "python"
  else if names "node" || names "javascript" then some "javascript"
  else if names "bash" || names "sh" then some "shell"
  else none

def ofContent (text : List Char) : String :=
  match (interpreterLine.here? (Cursor.start text)).bind fun m => ofInterpreterLine? m.toStretch.text with
  | some tag => tag
  | none =>
    if moduleSyntax.foundIn text then "javascript"
    else if definitionHead.foundIn text || importLine.foundIn text then "python"
    else plainText

end CodeCensus.Language
