import CodeCensus.Pattern.Basic

/-! Words for writing patterns down. -/

namespace CodeCensus.Pattern

def among (chars : List Char) : Char → Bool := fun c => chars.contains c

def beyond (chars : List Char) : Char → Bool := fun c => !chars.contains c

def either (p q : Char → Bool) : Char → Bool := fun c => p c || q c

def anyChar : Char → Bool := fun _ => true

def inOrder : List Pattern → Pattern
  | [] => .empty
  | [p] => p
  | p :: rest => .seq p (inOrder rest)

def oneOf : List Pattern → Pattern
  | [] => .absent .empty
  | [p] => p
  | p :: rest => .alt p (oneOf rest)

def text (s : String) : Pattern := inOrder (s.toList.map fun c => .one (· == c))

instance : Coe String Pattern := ⟨text⟩

def opt (p : Pattern) : Pattern := .alt p .empty

def optional (ps : List Pattern) : Pattern := opt (inOrder ps)

def some1 (p : Char → Bool) : Pattern := .seq (.one p) (.run p)

def lazy1 (p : Char → Bool) : Pattern := .seq (.one p) (.lazyRun p)

def manyOf (ps : List Pattern) : Pattern := .many (inOrder ps)

def keep (n : Nat) (ps : List Pattern) : Pattern := .group n (inOrder ps)

def oneWord (choices : List String) : Pattern := oneOf (choices.map text)

def wordEdge : Pattern := .edge .word

def lineStart : Pattern := .edge .lineStart

def lineEnd : Pattern := .edge .lineEnd

def blanks : Pattern := .run Text.isBlank

def blanks1 : Pattern := some1 Text.isBlank

def spaces : Pattern := .run (among [' ', '\t'])

def spaces1 : Pattern := some1 (among [' ', '\t'])

def quote : Pattern := .one (among ['\'', '"'])

def nameStart : Char → Bool := fun c => c.isAlpha || c == '_'

def nameStartOrDollar : Char → Bool := fun c => c.isAlpha || c == '_' || c == '$'

def wordOrDollar : Char → Bool := fun c => Text.isWord c || c == '$'

def name : Pattern := .seq (.one nameStart) (.run Text.isWord)

def dollarName : Pattern := .seq (.one nameStartOrDollar) (.run wordOrDollar)

end CodeCensus.Pattern
