import CodeCensus.Number.Digits
import CodeCensus.Yaml.Spot

/-! The texts of scalars: without quotes, in single or double quotes, and in blocks of lines. Line breaks within
a scalar fold: a single one counts as a space, and of several the first does not count. -/

namespace CodeCensus.Yaml

def codesOf (text : List Char) : List Nat := text.map Char.toNat

def folded (first : Char) (later : List Char) : List Char :=
  if first != '\n' then first :: later else if later.isEmpty then [' '] else later

/-! ## Scalars without quotes -/

/-- Whether a scalar without quotes that stands at a spot stops here: at a gap, at a colon before one, and
within brackets at their marks. -/
def plainStops (inFlow : Bool) : List Char → Bool
  | [] => true
  | c :: rest =>
    isGap c ||
      (c == ':' &&
        match rest.head? with
        | none => true
        | some d => isGap d || (inFlow && [',', '[', ']', '{', '}'].contains d)) ||
      (inFlow && [',', '?', '[', ']', '{', '}'].contains c)

/-- The characters up to the place where a scalar without quotes stops; `done` are those before, last first. -/
def plainRun (inFlow : Bool) (done : List Char) : List Char → List Char
  | [] => done.reverse
  | c :: rest => if plainStops inFlow (c :: rest) then done.reverse else plainRun inFlow (c :: done) rest

/-- The line breaks and spaces at a spot, up to one where documents are set apart: the breaks, last first,
whether there is no such spot, and the spot after them. -/
def plainBreaks (done : List Char) : Nat → Spot → List Char × Bool × Spot
  | 0, s => (done, true, s)
  | steps + 1, s =>
    if s.sees (· == ' ') then plainBreaks done steps s.next
    else
      match s.break? with
      | none => (done, true, s)
      | some (c, s) => if s.seesSeparator then (done, false, s) else plainBreaks (c :: done) steps s

/-- What the space between two runs counts as: nothing if the scalar ends there, else a text; whether a line
ends in it; and the spot after it. -/
def plainSpace (s : Spot) : List Char × Bool × Spot :=
  let (spaces, s) := s.take (· == ' ')
  match s.break? with
  | none => (spaces, false, s)
  | some (first, s) =>
    if s.seesSeparator then ([], true, s)
    else
      let (later, goesOn, s) := plainBreaks [] s.ahead s
      (if goesOn then folded first later.reverse else [], true, s)

/-- A scalar without quotes that nests deeper than `indent` columns: its text, whether a line ended after it,
and the spot where reading goes on. `done` is the text so far, last first, and `space` what precedes the next
run. -/
def plainFrom (inFlow : Bool) (indent : Int) (done space : List Char) (ended : Bool) :
    Nat → Spot → List Char × Bool × Spot
  | 0, s => (done.reverse, ended, s)
  | steps + 1, s =>
    let run := plainRun inFlow [] s.rest
    if s.sees (· == '#') || run.isEmpty then (done.reverse, ended, s)
    else
      let done := run.reverse ++ (space.reverse ++ done)
      let (space, ended, s) := plainSpace (s.skip run.length)
      if space.isEmpty || s.sees (· == '#') || (!inFlow && (s.column : Int) ≤ indent) then
        (done.reverse, ended, s)
      else plainFrom inFlow indent done space ended steps s

def plainScalar (inFlow : Bool) (indent : Int) (s : Spot) : List Char × Bool × Spot :=
  plainFrom inFlow indent [] [] false s.ahead s

/-! ## Scalars in quotes -/

def escape? : Char → Option Char
  | '0' => some '\x00'
  | 'a' => some '\x07'
  | 'b' => some '\x08'
  | 't' => some '\t'
  | '\t' => some '\t'
  | 'n' => some '\n'
  | 'v' => some '\x0b'
  | 'f' => some '\x0c'
  | 'r' => some '\r'
  | 'e' => some '\x1b'
  | ' ' => some ' '
  | '"' => some '"'
  | '\\' => some '\\'
  | '/' => some '/'
  | 'N' => some '\x85'
  | '_' => some '\xa0'
  | 'L' => some '\u2028'
  | 'P' => some '\u2029'
  | _ => none

def escapeWidth? : Char → Option Nat
  | 'x' => some 2
  | 'u' => some 4
  | 'U' => some 8
  | _ => none

def escapedCode (width : Nat) (s : Spot) : Except Refusal (Nat × Spot) := do
  let (code, after) ← s.hexCode width
  if 0x80000000 ≤ code then throw .hugeCode
  if 0x110000 ≤ code then throw .badValue
  return (code, after)

/-- The line breaks at a spot with the spaces and tabs around them, added to those before, last first; no
documents may be set apart there. -/
def quotedBreaks (done : List Char) : Nat → Spot → Except Refusal (List Char × Spot)
  | 0, s => .ok (done.reverse, s)
  | steps + 1, s =>
    if s.seesSeparator then .error .malformed
    else
      let s := s.drop fun c => c == ' ' || c == '\t'
      match s.break? with
      | none => .ok (done.reverse, s)
      | some (c, s) => quotedBreaks (c :: done) steps s

def quotedSpace (s : Spot) : Except Refusal (List Char × Spot) :=
  let (spaces, s) := s.take fun c => c == ' ' || c == '\t'
  if s.isEnd then .error s.fault
  else
    match s.break? with
    | none => .ok (spaces, s)
    | some (first, s) => (quotedBreaks [] (s.ahead + 1) s).map fun (later, s) => (folded first later, s)

/-- The escape after a backslash: the code points it stands for, and the spot after it. An escaped line break
stands for the breaks after it only. -/
def quotedEscape (s : Spot) : Except Refusal (List Nat × Spot) :=
  match s.char? with
  | none => .error s.fault
  | some c =>
    match escape? c with
    | some c => .ok ([c.toNat], s.next)
    | none =>
      match escapeWidth? c with
      | some width => (escapedCode width s.next).map fun (code, s) => ([code], s)
      | none =>
        match s.break? with
        | some (_, s) => (quotedBreaks [] (s.ahead + 1) s).map fun (later, s) => (codesOf later, s)
        | none => .error .malformed

/-- A scalar in quotes after its opening quote: its code points and the spot after its closing quote. `done` are
the code points so far, last first. -/
def quotedFrom (quote : Char) (done : List Nat) : Nat → Spot → Except Refusal (List Nat × Spot)
  | 0, _ => .error .malformed
  | steps + 1, s =>
    match s.char? with
    | none => .error s.fault
    | some c =>
      if c == quote then
        if quote == '\'' && s.next.char? == some '\'' then
          quotedFrom quote ('\''.toNat :: done) steps (s.skip 2)
        else .ok (done.reverse, s.next)
      else if isGap c then do
        let (space, s) ← quotedSpace s
        quotedFrom quote ((codesOf space).reverse ++ done) steps s
      else if quote == '"' && c == '\\' then do
        let (codes, s) ← quotedEscape s.next
        quotedFrom quote (codes.reverse ++ done) steps s
      else quotedFrom quote (c.toNat :: done) steps s.next

def quotedScalar (quote : Char) (s : Spot) : Except Refusal (List Nat × Spot) :=
  quotedFrom quote [] (s.ahead + 1) s

/-! ## Scalars in blocks -/

/-- What becomes of the line breaks at the end of a block: all but one are dropped, unless all are to be kept
or none. -/
inductive Chomp where
  | clip
  | keep
  | strip
  deriving DecidableEq, Repr

def chomp? : Char → Option Chomp
  | '+' => some .keep
  | '-' => some .strip
  | _ => none

def increment? (c : Char) : Except Refusal (Option Nat) :=
  if !c.isDigit then .ok none
  else if c == '0' then .error .malformed
  else .ok (some (digitValue c))

def takeIncrement (s : Spot) : Except Refusal (Option Nat × Spot) :=
  match s.char? with
  | none => .ok (none, s)
  | some c => (increment? c).map fun n => (n, if n.isSome then s.next else s)

def takeChomp (s : Spot) : Option Chomp × Spot :=
  match s.char?.bind chomp? with
  | some c => (some c, s.next)
  | none => (none, s)

/-- The marks after the sign of a block, in either order, and the spot on the next line. -/
def blockMarks (s : Spot) : Except Refusal (Chomp × Option Nat × Spot) := do
  let (chomp, s) := takeChomp s
  let (increment, s) ← takeIncrement s
  let (chomp, s) := if chomp.isSome then (chomp, s) else if increment.isSome then takeChomp s else (none, s)
  if !s.seesAhead isSpaceOrBreak 0 then throw .malformed
  let s ← s.finishLine
  return (chomp.getD .clip, increment, s)

/-- The empty lines at the start of a block: their breaks, the widest indentation among them, and the spot
after them. -/
def blockLead (done : List Char) (widest : Nat) : Nat → Spot → List Char × Nat × Spot
  | 0, s => (done.reverse, widest, s)
  | steps + 1, s =>
    if s.sees (· == ' ') then blockLead done (max widest s.next.column) steps s.next
    else
      match s.break? with
      | some (c, s) => blockLead (c :: done) widest steps s
      | none => (done.reverse, widest, s)

/-- The empty lines between the lines of a block, added to those before, last first, and the spot after
them. -/
def blockBreaks (indent : Nat) (done : List Char) : Nat → Spot → List Char × Spot
  | 0, s => (done.reverse, s)
  | steps + 1, s =>
    let s := s.dropSpacesTo indent indent
    match s.break? with
    | some (c, s) => blockBreaks indent (c :: done) steps s
    | none => (done.reverse, s)

def isSpaceOrTab (c : Char) : Bool := c == ' ' || c == '\t'

/-- The lines of a block. `done` is the text so far, last first, `breaks` the empty lines before the next line,
and `last` the break that ended the line before. -/
def blockLines (foldsLines : Bool) (chomp : Chomp) (indent : Nat) (done breaks : List Char)
    (last : Option Char) : Nat → Spot → List Char × Spot
  | 0, s => (done.reverse, s)
  | steps + 1, s =>
    if s.column != indent || s.isEnd then
      let done := if chomp == .strip then done else last.toList ++ done
      let done := if chomp == .keep then breaks.reverse ++ done else done
      (done.reverse, s)
    else
      let startsWithSpace := s.sees isSpaceOrTab
      let (line, s) := s.take fun c => !isBreak c
      let done := line.reverse ++ (breaks.reverse ++ done)
      let (last, s) :=
        match s.break? with
        | some (c, s) => (some c, s)
        | none => (none, s)
      let (breaks, s) := blockBreaks indent [] (s.ahead + 1) s
      if s.column != indent || s.isEnd then blockLines foldsLines chomp indent done breaks last steps s
      else
        let joined :=
          if foldsLines && last == some '\n' && !startsWithSpace && !s.sees isSpaceOrTab then
            if breaks.isEmpty then [' '] else []
          else last.toList
        blockLines foldsLines chomp indent (joined ++ done) breaks last steps s

def blockScalar (foldsLines : Bool) (indent : Int) (s : Spot) : Except Refusal (List Char × Spot) := do
  let (chomp, increment, s) ← blockMarks s
  let least := max 1 (indent + 1).toNat
  let (breaks, column, s) :=
    match increment with
    | none =>
      let (breaks, widest, s) := blockLead [] 0 (s.ahead + 1) s
      (breaks, max least widest, s)
    | some n =>
      let column := least + n - 1
      let (breaks, s) := blockBreaks column [] (s.ahead + 1) s
      (breaks, column, s)
  return blockLines foldsLines chomp column [] breaks none (s.ahead + 2) s

end CodeCensus.Yaml
