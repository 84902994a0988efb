import CodeCensus.Text.Class

/-! Patterns over characters, and the one way in which a pattern matches at a place: alternatives are tried
in order, repetitions take as much as they can (or as little, where so said), and the first choice that lets
the whole pattern match is kept. A cursor sees the character before it and all the characters after it, so whether a
pattern matches there can be said without the rest of the text. -/

namespace CodeCensus

/-- A place in a text. At the very start the character before it counts as a line feed. -/
structure Cursor where
  before : Char
  rest : List Char
  pos : Nat
  breaks : Nat
  ahead : Nat
  ahead_eq : ahead = rest.length

namespace Cursor

def start (text : List Char) : Cursor := ⟨'\n', text, 0, 0, text.length, rfl⟩

def line (c : Cursor) : Nat := c.breaks + 1

def next? (c : Cursor) : Option Cursor :=
  match c with
  | ⟨_, [], _, _, _, _⟩ => none
  | ⟨_, x :: rest, pos, breaks, ahead, h⟩ =>
    some ⟨x, rest, pos + 1, if x == '\n' then breaks + 1 else breaks, ahead - 1, by
      simp [h]⟩

def pass? (p : Char → Bool) (c : Cursor) : Option Cursor :=
  match c with
  | ⟨_, [], _, _, _, _⟩ => none
  | ⟨_, x :: rest, pos, breaks, ahead, h⟩ =>
    if p x then
      some ⟨x, rest, pos + 1, if x == '\n' then breaks + 1 else breaks, ahead - 1, by
        simp [h]⟩
    else none

def upTo (c later : Cursor) : List Char := c.rest.take (later.pos - c.pos)

/-- The places reached by passing characters of a class, at most `steps` of them, the farthest first and
followed by `nearer`. -/
def reachFrom (p : Char → Bool) : Nat → Cursor → List Cursor → List Cursor
  | 0, c, nearer => c :: nearer
  | steps + 1, c, nearer =>
    match c.pass? p with
    | none => c :: nearer
    | some c' => reachFrom p steps c' (c :: nearer)

/-- The places reached by passing any number of characters of a class, the farthest first. -/
def reach (p : Char → Bool) (c : Cursor) : List Cursor := reachFrom p c.ahead c []

end Cursor

inductive Edge where
  | textStart
  | textEnd
  /-- The end of the text, or the place before a line feed that ends it. -/
  | lastLineEnd
  | lineStart
  | lineEnd
  | word
  deriving DecidableEq, Repr

def Edge.holds : Edge → Cursor → Bool
  | .textStart, c => c.pos == 0
  | .textEnd, c => c.rest.isEmpty
  | .lastLineEnd, c => c.rest.isEmpty || c.rest == ['\n']
  | .lineStart, c => c.before == '\n'
  | .lineEnd, c => c.rest.isEmpty || c.rest.head? == some '\n'
  | .word, c => Text.isWord c.before != (c.rest.head?.any Text.isWord)

inductive Pattern where
  | empty
  | one (p : Char → Bool)
  | edge (e : Edge)
  | seq (first second : Pattern)
  | alt (first second : Pattern)
  /-- Any number of characters of a class, the longest run first. -/
  | run (p : Char → Bool)
  /-- Any number of characters of a class, the shortest run first. -/
  | lazyRun (p : Char → Bool)
  /-- Any number of repetitions, none of them empty, as many as possible first. -/
  | many (body : Pattern)
  | group (n : Nat) (body : Pattern)
  | absent (body : Pattern)

/-- A stretch of text: where it starts and where it stops. -/
structure Stretch where
  start : Cursor
  stop : Cursor

def Stretch.text (s : Stretch) : List Char := s.start.upTo s.stop

abbrev Groups := List (Nat × Stretch)

namespace Pattern

def firstReached {α : Type} (p : Char → Bool) (k : Cursor → Option α) : Nat → Cursor → Option α
  | 0, c => k c
  | steps + 1, c =>
    match k c with
    | some found => some found
    | none =>
      match c.pass? p with
      | none => none
      | some c' => firstReached p k steps c'

/-- Repeats a step while it gets ahead, at most `times` times, then goes on with `k`; more repetitions are
tried before fewer. -/
def repeatStep {α : Type} (step : Cursor → Groups → (Cursor → Groups → Option α) → Option α)
    (k : Cursor → Groups → Option α) : Nat → Cursor → Groups → Option α
  | 0, c, g => k c g
  | times + 1, c, g =>
    match step c g fun c' g' => if c.pos < c'.pos then repeatStep step k times c' g' else none with
    | some found => some found
    | none => k c g

def matchAt {α : Type} : Pattern → Cursor → Groups → (Cursor → Groups → Option α) → Option α
  | .empty, c, g, k => k c g
  | .one p, c, g, k =>
    match c.pass? p with
    | none => none
    | some c' => k c' g
  | .edge e, c, g, k => if e.holds c then k c g else none
  | .seq first second, c, g, k => first.matchAt c g fun c' g' => second.matchAt c' g' k
  | .alt first second, c, g, k =>
    match first.matchAt c g k with
    | some found => some found
    | none => second.matchAt c g k
  | .run p, c, g, k => (c.reach p).findSome? fun c' => k c' g
  | .lazyRun p, c, g, k => firstReached p (fun c' => k c' g) c.ahead c
  | .many body, c, g, k => repeatStep (fun c' g' k' => body.matchAt c' g' k') k c.ahead c g
  | .group n body, c, g, k => body.matchAt c g fun c' g' => k c' ((n, ⟨c, c'⟩) :: g')
  | .absent body, c, g, k =>
    match body.matchAt c g fun c' _ => some c' with
    | some _ => none
    | none => k c g

end Pattern

/-- A match: its stretch and the numbered stretches within it. -/
structure Match extends Stretch where
  groups : Groups

namespace Match

def group? (m : Match) (n : Nat) : Option Stretch := m.groups.lookup n

def text? (m : Match) (n : Nat) : Option (List Char) := (m.group? n).map Stretch.text

def groupText (m : Match) (n : Nat) : List Char := (m.text? n).getD []

end Match

end CodeCensus
