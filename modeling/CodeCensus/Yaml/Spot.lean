import CodeCensus.Number.Digits

/-! Spots in a YAML text: the text that follows, and the line and column, which decide what nests in what. A text
may be known only up to a place where it cannot be read on. -/

namespace CodeCensus.Yaml

inductive Refusal where
  | malformed
  | badValue
  | hugeCode
  | emptyNumber
  | hugeNumber
  | unknownWord
  | notDate
  | notScalar
  | deepNesting
  | notText
  deriving DecidableEq, Repr

structure Spot where
  rest : List Char
  index : Nat
  line : Nat
  column : Nat
  /-- Why nothing can be read beyond the rest; if nothing is the matter, the text ends there. -/
  cut : Option Refusal
  length : Nat
  length_eq : length = index + rest.length

def isBreak (c : Char) : Bool := c == '\n' || c == '\x85' || c == '\u2028' || c == '\u2029'

def isSpaceOrBreak (c : Char) : Bool := c == ' ' || isBreak c

def isGap (c : Char) : Bool := c == '\t' || isSpaceOrBreak c

namespace Spot

def start (text : List Char) (cut : Option Refusal) : Spot :=
  ⟨text, 0, 0, 0, cut, text.length, (Nat.zero_add _).symm⟩

def ahead (s : Spot) : Nat := s.length - s.index

def isEnd (s : Spot) : Bool := s.rest.isEmpty

/-- What is the matter with a text that breaks the rules at a spot: at its end, that nothing can be read beyond
it. -/
def fault (s : Spot) : Refusal := if s.isEnd then s.cut.getD .malformed else .malformed

def check (s : Spot) : Except Refusal Unit :=
  match s.rest, s.cut with
  | [], some r => .error r
  | _, _ => .ok ()

def next (s : Spot) : Spot :=
  -- a byte order mark takes no column
  match s with
  | ⟨[], _, _, _, _, _, _⟩ => s
  | ⟨c :: rest, index, line, column, cut, length, h⟩ =>
    let line := if isBreak c then line + 1 else line
    let column := if isBreak c then 0 else if c == '\uFEFF' then column else column + 1
    ⟨rest, index + 1, line, column, cut, length, by simp only [h, List.length_cons]; omega⟩

def skip : Nat → Spot → Spot
  | 0, s => s
  | count + 1, s => skip count s.next

def char? (s : Spot) : Option Char := s.rest.head?

def sees (p : Char → Bool) (s : Spot) : Bool := s.rest.head?.any p

/-- Whether the character some places further is of a class, or the text has ended there. -/
def seesAhead (p : Char → Bool) (count : Nat) (s : Spot) : Bool := (s.rest[count]?).all p

def take (p : Char → Bool) (s : Spot) : List Char × Spot :=
  let run := s.rest.takeWhile p
  (run, s.skip run.length)

def drop (p : Char → Bool) (s : Spot) : Spot := (s.take p).2

/-- The number that hexadecimal digits at a spot write, exactly as many as are asked for, and the spot after
them. -/
def hexCode (width : Nat) (s : Spot) : Except Refusal (Nat × Spot) :=
  let digits := s.rest.take width
  if !digits.all isHexDigit then .error .malformed
  else
    let after := s.skip digits.length
    if digits.length < width then .error after.fault else .ok (ofDigits 16 digits, after)

def dropSpacesTo (column : Nat) : Nat → Spot → Spot
  | 0, s => s
  | steps + 1, s =>
    if s.column < column && s.sees (· == ' ') then dropSpacesTo column steps s.next else s

def break? (s : Spot) : Option (Char × Spot) :=
  match s.rest with
  | [] => none
  | c :: _ =>
    if isBreak c then some (if c == '\x85' then '\n' else c, s.next) else none

/-- Whether three marks that set documents apart stand at a spot, with nothing after them on their own. -/
def seesMark (mark : List Char) (s : Spot) : Bool := mark.isPrefixOf s.rest && s.seesAhead isGap 3

def seesSeparator (s : Spot) : Bool := s.seesMark ['-', '-', '-'] || s.seesMark ['.', '.', '.']

def dropComment (s : Spot) : Spot :=
  if s.sees (· == '#') then s.drop fun c => !isBreak c else s

/-- Skips spaces and a comment up to the end of the line, and the end of the line; nothing else may stand
there. -/
def finishLine (s : Spot) : Except Refusal Spot :=
  let s := (s.drop (· == ' ')).dropComment
  match s.break? with
  | some (_, s) => .ok s
  | none => if s.isEnd && s.cut.isNone then .ok s else .error s.fault

end Spot

end CodeCensus.Yaml
