import CodeCensus.Pattern.Basic

/-! Searching. The first match is the one that starts leftmost; all matches are found from the left, each
search going on where the last match stopped. -/

namespace CodeCensus

/-- What a match of a pattern can begin with: whether it may be empty, and which characters may come first
if it is not. -/
structure Opening where
  mayBeEmpty : Bool
  chars : Char → Bool

def Opening.admits (o : Opening) (c : Cursor) : Bool :=
  o.mayBeEmpty ||
    match c.rest with
    | [] => false
    | x :: _ => o.chars x

namespace Pattern

def opening : Pattern → Opening
  | .empty => ⟨true, fun _ => false⟩
  | .one p => ⟨false, p⟩
  | .edge _ => ⟨true, fun _ => false⟩
  | .seq first second =>
    let o := first.opening
    if o.mayBeEmpty then
      let o' := second.opening
      ⟨o'.mayBeEmpty, fun c => o.chars c || o'.chars c⟩
    else o
  | .alt first second =>
    let o := first.opening
    let o' := second.opening
    ⟨o.mayBeEmpty || o'.mayBeEmpty, fun c => o.chars c || o'.chars c⟩
  | .run p => ⟨true, p⟩
  | .lazyRun p => ⟨true, p⟩
  | .many body => ⟨true, body.opening.chars⟩
  | .group _ body => body.opening
  | .absent _ => ⟨true, fun _ => false⟩

def here? (p : Pattern) (c : Cursor) : Option Match :=
  p.matchAt c [] fun c' g => some ⟨⟨c, c'⟩, g⟩

def findFrom (p : Pattern) (o : Opening) : Nat → Cursor → Option Match
  | 0, c => if o.admits c then p.here? c else none
  | steps + 1, c =>
    match if o.admits c then p.here? c else none with
    | some m => some m
    | none =>
      match c.next? with
      | none => none
      | some c' => p.findFrom o steps c'

def findAt (p : Pattern) (c : Cursor) : Option Match := p.findFrom p.opening c.ahead c

def find? (p : Pattern) (text : List Char) : Option Match := p.findAt (Cursor.start text)

def foundIn (p : Pattern) (text : List Char) : Bool := (p.find? text).isSome

/-- Where the search for the next match goes on: at the end of a match, and one character further if the
match was empty. -/
def resume? (m : Match) : Option Cursor :=
  if m.start.pos < m.stop.pos then some m.stop else m.stop.next?

/-- At most `times` matches from a place on, added to those already found, last first. -/
def allFrom (p : Pattern) (o : Opening) : Nat → Cursor → List Match → List Match
  | 0, _, found => found.reverse
  | times + 1, c, found =>
    match p.findFrom o c.ahead c with
    | none => found.reverse
    | some m =>
      match resume? m with
      | none => (m :: found).reverse
      | some c' => p.allFrom o times c' (m :: found)

def all (p : Pattern) (text : List Char) : List Match :=
  let c := Cursor.start text
  p.allFrom p.opening (c.ahead + 1) c []

def count (p : Pattern) (text : List Char) : Nat := (p.all text).length

def piecesFrom (text : Cursor) : List Match → List (List Char)
  | [] => [text.rest]
  | m :: rest => text.upTo m.start :: piecesFrom m.stop rest

def split (p : Pattern) (text : List Char) : List (List Char) :=
  piecesFrom (Cursor.start text) (p.all text)

end Pattern

end CodeCensus
