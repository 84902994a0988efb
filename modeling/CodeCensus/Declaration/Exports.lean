import CodeCensus.Declaration.Imports

/-! The exports that a file of a script language declares. -/

namespace CodeCensus.Exports

open Text Pattern

def standardExport : Pattern :=
  -- the name of a class, the name of a function, another name
  inOrder [wordEdge, "export", blanks1, "default", blanks1, optional ["async", blanks1],
    opt (oneOf [
      inOrder ["class", blanks1, keep 1 [some1 wordOrDollar]],
      inOrder ["function", blanks, opt "*", blanks, keep 2 [some1 wordOrDollar]],
      keep 3 [some1 wordOrDollar]])]

def namedExport : Pattern :=
  -- a list in braces, the name of a declaration
  inOrder [wordEdge, "export", blanks1,
    .alt (inOrder ["\x7b", keep 1 [.run (beyond ['}'])], "\x7d"])
      (inOrder [optional ["declare", blanks1], optional ["async", blanks1],
        oneOf ["const", "let", "var", inOrder ["function", opt "*"], "class", "interface", "type", "enum",
          inOrder ["abstract", blanks1, "class"]],
        blanks1, keep 2 [some1 wordOrDollar]])]

def namelessWords : List String := ["class", "function", "async", "new"]

def standardName (m : Match) : String :=
  match [m.groupText 1, m.groupText 2, m.groupText 3].find? fun name => !name.isEmpty with
  | none => "default"
  | some name =>
    let name := String.ofList name
    if namelessWords.contains name then "default" else name

def exportedNames (m : Match) : List String :=
  match m.text? 1 with
  | some list => boundNames list
  | none => [String.ofList (m.groupText 2)]

def script (text : List Char) : List Export :=
  Imports.inTextOrder <|
    ((standardExport.all text).map fun m =>
      (m.start.pos, ⟨standardName m, .standard, m.start.line⟩)) ++
    ((namedExport.all text).flatMap fun m =>
      (exportedNames m).map fun name => (m.start.pos, ⟨name, .named, m.start.line⟩))

end CodeCensus.Exports
