import CodeCensus.Declaration.Basic

/-! The imports that a file declares, language by language. -/

namespace CodeCensus.Imports

open Text Pattern

def inTextOrder {α : Type} (found : List (Nat × α)) : List α :=
  (found.mergeSort fun a b => a.1 ≤ b.1).map Prod.snd

def quoted (n : Nat) : Pattern := inOrder [quote, keep n [some1 (beyond ['\'', '"'])], quote]

/-! ## Script languages -/

def moduleImport : Pattern :=
  -- clause, module
  inOrder [wordEdge, "import", blanks1, optional ["type", blanks1],
    keep 1 [lazy1 fun c => isWord c || isBlank c || ['$', '*', '{', '}', ','].contains c], blanks1,
    "from", blanks1, quoted 2]

def effectImport : Pattern := inOrder [lineStart, spaces, "import", blanks1, quoted 1]

def requireBinding : Pattern :=
  -- names in braces, one name, module
  inOrder [wordEdge, oneWord ["const", "let", "var"], blanks1,
    .alt (inOrder ["\x7b", keep 1 [some1 (beyond ['}'])], "\x7d"]) (keep 2 [dollarName]),
    blanks, "=", blanks, "require(", blanks, quoted 3, blanks, ")"]

def bracedNames : Pattern := inOrder ["\x7b", keep 1 [.run (beyond ['}'])], "\x7d"]

def namespaceName : Pattern := inOrder ["*", blanks, "as", blanks1, keep 1 [some1 wordOrDollar]]

def takeOut (p : Pattern) (clause : List Char) : Option (List Char) × List Char :=
  match p.find? clause with
  | none => (none, clause)
  | some m => (some (m.groupText 1), clause.take m.start.pos ++ m.stop.rest)

/-- The names that the clause of an import binds: the module's own, the whole module's, those in braces. -/
def clauseNames (clause : List Char) : List String :=
  let (braced, clause) := takeOut bracedNames clause
  let (whole, clause) := takeOut namespaceName clause
  let own := trim (trimBy (· == ',') (trim clause))
  (if own.isEmpty then [] else [String.ofList own]) ++
    (whole.map String.ofList).toList ++
    (braced.map boundNames).getD []

def script (text : List Char) : List Import :=
  inTextOrder <|
    ((moduleImport.all text).map fun m =>
      (m.start.pos, ⟨String.ofList (m.groupText 2), clauseNames (m.groupText 1), m.start.line⟩)) ++
    ((effectImport.all text).map fun m =>
      (m.start.pos, ⟨String.ofList (m.groupText 1), [], m.start.line⟩)) ++
    ((requireBinding.all text).map fun m =>
      (m.start.pos,
        ⟨String.ofList (m.groupText 3),
          match m.text? 1 with
          | some names => boundNames names
          | none => [String.ofList (m.groupText 2)],
          m.start.line⟩))

/-! ## Python -/

def pythonImport : Pattern :=
  -- module, names
  inOrder [lineStart, spaces,
    optional ["from", spaces1, keep 1 [some1 (either isWord (among ['.']))], spaces1],
    "import", spaces1,
    keep 2 [.alt (inOrder ["(", .run (beyond [')']), ")"]) (some1 (beyond ['\n', '#', ';']))]]

def importedNames (list : List Char) : List String :=
  let inner := trimBy (fun c => ['(', ')', '\n', '\\', ' ', '\t'].contains c) list
  (fields ',' (inner.map fun c => if c == '\n' then ' ' else c)).filterMap fun item =>
    (nonBlank? ((pieces [' ', 'a', 's', ' '] item).headD [])).map String.ofList

def python (text : List Char) : List Import :=
  (pythonImport.all text).flatMap fun m =>
    let names := importedNames (m.groupText 2)
    match m.text? 1 with
    | some source => [⟨String.ofList source, names, m.start.line⟩]
    | none => names.map fun name => ⟨name, [name], m.start.line⟩

/-! ## Java and C# -/

def javaImport : Pattern :=
  inOrder [lineStart, spaces, "import", blanks1, optional ["static", blanks1],
    keep 1 [some1 (either isWord (among ['.', '*']))], blanks, ";"]

/-- The package and the last part of a dotted name; without a dot, the name is both. -/
def java (text : List Char) : List Import :=
  (javaImport.all text).map fun m =>
    let path := m.groupText 1
    let (package, symbol) := (cutLast ['.'] path).getD ([], path)
    ⟨String.ofList (if package.isEmpty then symbol else package), [String.ofList symbol], m.start.line⟩

def usingDirective : Pattern :=
  -- alias, the dotted name
  inOrder [lineStart, spaces, optional ["global", blanks1], "using", blanks1, optional ["static", blanks1],
    optional [keep 1 [some1 isWord], blanks, "=", blanks],
    keep 2 [some1 (either isWord (among ['.']))], blanks, ";"]

def csharp (text : List Char) : List Import :=
  (usingDirective.all text).map fun m =>
    let path := m.groupText 2
    ⟨String.ofList path, [String.ofList ((m.text? 1).getD (afterLast '.' path))], m.start.line⟩

/-! ## Go -/

def goSpec : Pattern :=
  -- alias, path
  inOrder [optional [keep 1 [some1 (either isWord (among ['.']))], blanks1], "\"",
    keep 2 [some1 (beyond ['"'])], "\""]

def goImport : Pattern :=
  .alt (inOrder [wordEdge, "import", blanks1, goSpec])
    (inOrder [wordEdge, "import", blanks, "(", keep 3 [.run (beyond [')'])], ")"])

/-- The import of one path; `breaks` line feeds come before the text in which it was found. -/
def ofGoSpec (breaks : Nat) (m : Match) : Import :=
  let path := m.groupText 2
  ⟨String.ofList path, [String.ofList ((m.text? 1).getD (afterLast '/' path))], breaks + m.start.line⟩

def go (text : List Char) : List Import :=
  (goImport.all text).flatMap fun m =>
    match m.group? 3 with
    | none => [ofGoSpec 0 m]
    | some block => (goSpec.all block.text).map (ofGoSpec block.start.breaks)

/-! ## Rust -/

def useDeclaration : Pattern :=
  inOrder [lineStart, spaces, optional ["pub", optional ["(", .run (beyond [')']), ")"], blanks1],
    "use", blanks1, keep 1 [some1 (beyond [';'])], ";"]

def aliasOf (item : List Char) : List Char :=
  ((pieces [' ', 'a', 's', ' '] item).getLast?).getD []

/-- The module and names of a path with single spaces: a path that ends with a brace has its names between
the first group's opening brace and that last one. -/
def usePath (path : List Char) : String × List String :=
  match if path.getLast? == some '}' then cutFirst [':', ':', '{'] path else none with
  | some (source, items) =>
    (String.ofList source,
      (fields ',' items.dropLast).filterMap fun item =>
        match aliasOf (trim item) with
        | [] => none
        | name => some (String.ofList name))
  | none =>
    let (source, item) := (cutLast [':', ':'] path).getD ([], path)
    (String.ofList (if source.isEmpty then path else source), [String.ofList (trim (aliasOf item))])

def rust (text : List Char) : List Import :=
  (useDeclaration.all text).map fun m =>
    let (source, names) := usePath (List.intercalate [' '] (words (m.groupText 1)))
    ⟨source, names, m.start.line⟩

end CodeCensus.Imports
