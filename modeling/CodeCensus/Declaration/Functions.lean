import CodeCensus.Declaration.Basic
import CodeCensus.Declaration.Body

/-! The functions that a file declares, language by language. -/

namespace CodeCensus.Functions

open Text Pattern

def parametersOf (list : Option (List Char)) : List String := parameterNames (list.getD [])

def tidy (piece : Option (List Char)) : Option String := (piece.bind nonBlank?).map String.ofList

def parameterList (n : Nat) : Pattern := inOrder ["(", keep n [.run (beyond [')'])], ")"]

def typeParameters : Pattern := optional ["<", .run (beyond ['>']), ">"]

/-! ## Script languages -/

def scriptFunction : Pattern :=
  -- name, parameters, result
  inOrder [wordEdge, "function", blanks, opt "*", blanks, keep 1 [dollarName], blanks, typeParameters,
    blanks, parameterList 2, optional [blanks, ":", blanks, keep 3 [some1 (beyond ['{', ';', '\n'])]]]

def scriptArrow : Pattern :=
  -- name, parameters, single parameter, result
  inOrder [wordEdge, oneWord ["const", "let", "var"], blanks1, keep 1 [dollarName], blanks,
    optional [":", some1 (beyond ['=', '\n'])], "=", blanks, optional ["async", blanks1],
    .alt (parameterList 2) (keep 3 [dollarName]), blanks,
    optional [":", blanks, keep 4 [lazy1 (beyond ['=', '\n'])]], blanks, "=>"]

def scriptMethod : Pattern :=
  -- name, parameters, result
  inOrder [optional ["async", blanks1], keep 1 [dollarName], blanks, parameterList 2, blanks,
    optional [":", blanks, keep 3 [lazy1 (beyond ['{', ';', '\n', '(', ')'])]], blanks, "\x7b"]

def ofScriptFunction (score : Scorer) (m : Match) : Function where
  name := String.ofList (m.groupText 1)
  line := m.start.line
  complexity := score (Body.braced m.stop.rest)
  parameters := parametersOf (m.text? 2)
  returnType := tidy (m.text? 3)

def ofScriptArrow (score : Scorer) (m : Match) : Function where
  name := String.ofList (m.groupText 1)
  line := m.start.line
  complexity := score (Body.ofArrow m.start.rest)
  parameters := parametersOf ((m.text? 2).orElse fun _ => m.text? 3)
  returnType := tidy (m.text? 4)

def ofScriptMethod (score : Scorer) (m : Match) : Function where
  name := String.ofList (m.groupText 1)
  line := ((m.group? 1).map fun s => s.start.line).getD m.start.line
  complexity := score (Body.bracedOpen m.stop.rest)
  parameters := parametersOf (m.text? 2)
  returnType := tidy (m.text? 3)

/-- Adds a function unless its name is reserved or one of that name on that line is there already. -/
def addNew (found : List Function) (f : Function) : List Function :=
  if reservedNames.contains f.name || found.any fun g => g.name == f.name && g.line == f.line then found
  else f :: found

def script (score : Scorer) (text : List Char) : List Function :=
  let candidates :=
    (scriptFunction.all text).map (ofScriptFunction score) ++
      (scriptArrow.all text).map (ofScriptArrow score) ++
      (scriptMethod.all text).map (ofScriptMethod score)
  (candidates.foldl addNew []).reverse

/-! ## Python -/

def pythonHead : Pattern :=
  -- indentation, name, parameters, result
  inOrder [lineStart, keep 1 [spaces], optional ["async", spaces1], "def", blanks1, keep 2 [name], blanks,
    parameterList 3, optional [blanks, "->", blanks, keep 4 [lazy1 (beyond [':'])]], blanks, ":"]

def lineOfGroup (m : Match) (n : Nat) : Nat := ((m.group? n).map fun s => s.start.line).getD m.start.line

def python (score : Scorer) (text : List Char) : List Function :=
  -- the body begins on the line after the one that holds the colon
  let all := lines text
  (pythonHead.all text).map fun m =>
    { name := String.ofList (m.groupText 2)
      line := lineOfGroup m 2
      complexity :=
        score (Body.indented (expandTabs (m.groupText 1)).length (all.drop m.stop.line))
      parameters := parametersOf (m.text? 3)
      returnType := tidy (m.text? 4) }

/-! ## Languages that write the type first -/

def typedMethod (modifiers : List String) : Pattern :=
  -- result, name, parameters
  inOrder [lineStart, spaces,
    manyOf ["@", some1 isWord, optional ["(", .run (beyond [')']), ")"], blanks1],
    manyOf [oneWord modifiers, blanks1],
    keep 1 [some1 (either isWord (among ['<', '>', '[', ']', ',', '.', '?']))], blanks1,
    keep 2 [name], blanks, parameterList 3, blanks,
    optional ["throws", blanks1, lazy1 (fun c => isWord c || isBlank c || c == '.' || c == ',')],
    blanks, "\x7b"]

def javaMethod : Pattern :=
  typedMethod ["public", "private", "protected", "static", "final", "abstract", "synchronized", "native",
    "default"]

def csharpMethod : Pattern :=
  typedMethod ["public", "private", "protected", "internal", "static", "virtual", "override", "abstract",
    "sealed", "async", "extern", "unsafe", "partial", "new"]

/-- Words that stand in the place of a type without being one: before a constructor, the result is none. -/
def modifiers : List String :=
  ["public", "private", "protected", "static", "final", "abstract", "synchronized", "native", "internal",
    "virtual", "override", "sealed", "async", "extern", "unsafe", "partial", "readonly"]

def notATypeWord : List String := ["return", "new", "else", "throw", "await", "yield", "case", "do"]

def ofTypedMethod? (score : Scorer) (m : Match) : Option Function :=
  let type := String.ofList (m.groupText 1)
  let name := String.ofList (m.groupText 2)
  if reservedNames.contains name || notATypeWord.contains type then none
  else
    some
      { name
        line := lineOfGroup m 2
        complexity := score (Body.bracedOpen m.stop.rest)
        parameters := parametersOf (m.text? 3)
        returnType := if modifiers.contains type then none else some type }

def typed (method : Pattern) (score : Scorer) (text : List Char) : List Function :=
  (method.all text).filterMap (ofTypedMethod? score)

def java : Scorer → List Char → List Function := typed javaMethod

def csharp : Scorer → List Char → List Function := typed csharpMethod

/-! ## Languages with a keyword and braces -/

def goHead : Pattern :=
  -- name, parameters, results in parentheses, one result
  inOrder [wordEdge, "func", blanks1, optional ["(", .run (beyond [')']), ")", blanks], keep 1 [name],
    blanks, optional ["[", .run (beyond [']']), "]"], blanks, parameterList 2, blanks,
    opt (.alt (parameterList 3) (keep 4 [some1 (either isWord (among ['.', '*', '[', ']']))])),
    blanks, "\x7b"]

def rustHead : Pattern :=
  -- name, parameters, result
  inOrder [wordEdge, "fn", blanks1, keep 1 [name], blanks, typeParameters, blanks, parameterList 2, blanks,
    optional ["->", blanks, keep 3 [lazy1 (beyond ['{', ';'])]], blanks,
    optional ["where", .one isBlank, .run (beyond ['{', ';'])], "\x7b"]

def phpHead : Pattern :=
  -- name, parameters, result
  inOrder [wordEdge, "function", blanks1, opt "&", keep 1 [name], blanks, parameterList 2, blanks,
    optional [":", blanks, keep 3 [some1 (either isWord (among ['?', '\\', '|']))]], blanks, "\x7b"]

def ofHead (score : Scorer) (m : Match) (result : Option (List Char)) : Function where
  name := String.ofList (m.groupText 1)
  line := m.start.line
  complexity := score (Body.bracedOpen m.stop.rest)
  parameters := parametersOf (m.text? 2)
  returnType := tidy result

def go (score : Scorer) (text : List Char) : List Function :=
  (goHead.all text).map fun m =>
    ofHead score m (if (m.groupText 3).isEmpty then m.text? 4 else m.text? 3)

def rust (score : Scorer) (text : List Char) : List Function :=
  (rustHead.all text).map fun m => ofHead score m (m.text? 3)

def php (score : Scorer) (text : List Char) : List Function :=
  ((phpHead.all text).map fun m => ofHead score m (m.text? 3)).filter fun f =>
    !reservedNames.contains f.name

/-! ## Ruby -/

def rubyHead : Pattern :=
  -- name, parameters
  inOrder [lineStart, spaces, "def", blanks1, opt "self.",
    keep 1 [name, opt (.one (among ['!', '?', '=']))], spaces, opt (parameterList 2), spaces, lineEnd]

/-- Definitions; the body begins on the line after the one on which the definition starts. -/
def ruby (score : Scorer) (text : List Char) : List Function :=
  let all := lines text
  (rubyHead.all text).map fun m =>
    { name := String.ofList (m.groupText 1)
      line := m.start.line
      complexity := score (Body.untilEnd (all.drop m.start.line))
      parameters := parametersOf (m.text? 2)
      returnType := none }

end CodeCensus.Functions
