import CodeCensus.Yaml.Moment

/-! The kinds of values. A tag names one; a text without tag and quotes is of the kind that it looks like. -/

namespace CodeCensus.Yaml

open Pattern

inductive Kind where
  | null
  | bool
  | int
  | float
  | moment
  | text
  | bytes
  | list
  | table
  | set
  | pairs
  /-- The key of an entry that takes over the entries of other tables. -/
  | merge
  /-- A key whose value stands for the table as a whole where a text is wanted. -/
  | mark
  | unknown
  deriving DecidableEq, Repr

namespace Kind

def standard : String := "tag:yaml.org,2002:"

def names : List (String × Kind) := [
  ("null", .null), ("bool", .bool), ("int", .int), ("float", .float), ("timestamp", .moment), ("str", .text),
  ("binary", .bytes), ("seq", .list), ("map", .table), ("set", .set), ("omap", .pairs), ("pairs", .pairs),
  ("merge", .merge), ("value", .mark)]

def ofTag (tag : String) : Kind :=
  ((names.find? fun (name, _) => standard ++ name == tag).map Prod.snd).getD .unknown

/-! ## What texts look like -/

def boolWords : List String := [
  "yes", "Yes", "YES", "no", "No", "NO", "true", "True", "TRUE", "false", "False", "FALSE", "on", "On", "ON",
  "off", "Off", "OFF"]

def nullWords : List String := ["~", "null", "Null", "NULL"]

def signPattern : Pattern := opt (.one (among ['-', '+']))

def digitOrUnderscore (c : Char) : Bool := c.isDigit || c == '_'

def sixtieths : Pattern :=
  .seq (inOrder [":", opt (.one (among "012345".toList)), oneDigit])
    (manyOf [":", opt (.one (among "012345".toList)), oneDigit])

def intForms : List Pattern := [
  inOrder [signPattern, "0b", some1 (among ['0', '1', '_'])],
  inOrder [signPattern, "0", some1 fun c => ('0' ≤ c && c ≤ '7') || c == '_'],
  inOrder [signPattern, .alt "0" (.seq (.one fun c => '1' ≤ c && c ≤ '9') (.run digitOrUnderscore))],
  inOrder [signPattern, "0x", some1 fun c => isHexDigit c || c == '_'],
  inOrder [signPattern, .one fun c => '1' ≤ c && c ≤ '9', .run digitOrUnderscore, sixtieths]]

def exponentPattern : Pattern :=
  optional [.one (among ['e', 'E']), .one (among ['-', '+']), some1 Char.isDigit]

def floatForms : List Pattern := [
  inOrder [signPattern, oneDigit, .run digitOrUnderscore, ".", .run digitOrUnderscore, exponentPattern],
  inOrder [".", oneDigit, .run digitOrUnderscore, exponentPattern],
  inOrder [signPattern, oneDigit, .run digitOrUnderscore, sixtieths, ".", .run digitOrUnderscore],
  inOrder [signPattern, ".", oneWord ["inf", "Inf", "INF"]],
  inOrder [".", oneWord ["nan", "NaN", "NAN"]]]

/-- Whether a text as a whole, or all of it but a last line end, has one of several forms. -/
def hasForm (forms : List Pattern) (text : List Char) : Bool :=
  forms.any fun form => ((Pattern.seq form (.edge .lastLineEnd)).here? (Cursor.start text)).isSome

def dropLineEnd (text : List Char) : List Char :=
  match text.reverse with
  | '\n' :: rest => rest.reverse
  | _ => text

/-- The kind of value that a text looks like, where a line end at its end does not count. -/
def ofText (text : List Char) : Kind :=
  let word := String.ofList (dropLineEnd text)
  if boolWords.contains word then .bool
  else if hasForm floatForms text then .float
  else if hasForm intForms text then .int
  else if word == "<<" then .merge
  else if nullWords.contains word || text.isEmpty then .null
  else if looksLikeMoment text then .moment
  else if word == "=" then .mark
  else if ["!", "&", "*"].contains word then .unknown
  else .text

end Kind

def charsOf (codes : List Nat) : List Char :=
  codes.map fun n => if n.isValidChar then Char.ofNat n else '\uFFFD'

end CodeCensus.Yaml
