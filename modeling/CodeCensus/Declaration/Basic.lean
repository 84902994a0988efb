import CodeCensus.Pattern.Build
import CodeCensus.Pattern.Search
import CodeCensus.Text.Trim

/-! What a file declares: its functions, what it imports and what it exports, and the lists of names within. -/

namespace CodeCensus

structure Function where
  name : String
  line : Nat
  complexity : Nat
  parameters : List String
  returnType : Option String
  deriving DecidableEq, Repr

/-- An import found in a file: where from, and the names it binds. -/
structure Import where
  source : String
  names : List String
  line : Nat
  deriving DecidableEq, Repr

inductive ExportKind where
  | standard
  | named
  deriving DecidableEq, Repr

structure Export where
  name : String
  kind : ExportKind
  line : Nat
  deriving DecidableEq, Repr

abbrev Scorer := List Char → Nat

/-! ## Lists of names: parameters, and the names that an import or export binds -/

open Text Pattern

def parameterName (parameter : List Char) : List Char :=
  trim (upTo '=' (trim (upTo ':' (trim parameter))))

/-- The names in a list of parameters. Every comma separates, also one inside brackets. -/
def parameterNames (list : List Char) : List String :=
  ((fields ',' list).map parameterName).filterMap fun name =>
    if name.isEmpty then none else some (String.ofList name)

def reservedNames : List String :=
  ["if", "for", "while", "switch", "catch", "constructor", "function", "return"]

/-- What stands between the name outside and the name inside: the word `as`, or a colon. -/
def localName : Pattern :=
  .alt (inOrder [blanks1, "as", blanks1]) (inOrder [blanks, ":", blanks])

def boundName? (item : List Char) : Option (List Char) :=
  match trim item with
  | [] => none
  | item => nonBlank? ((localName.split item).getLast?.getD [])

def boundNames (list : List Char) : List String :=
  ((fields ',' list).filterMap boundName?).map String.ofList

end CodeCensus
