import CodeCensus.Yaml.Scalar
import CodeCensus.Yaml.Token

/-! The tokens of a text. A key is known as one only by the colon after it; so where a key may stand its place
among the tokens is kept, and the tokens that announce it are put there once the colon is seen. Until then neither
the tokens of the key nor those after it are settled. -/

namespace CodeCensus.Yaml

structure KeyPlace where
  tokens : Nat
  required : Bool
  spot : Spot

def maxKeyLength : Nat := 1024

/-- Whether a key may still stand at a place: its colon has to be on the same line and not too far. -/
def KeyPlace.isFresh (k : KeyPlace) (s : Spot) : Bool :=
  k.spot.line == s.line && s.index ≤ k.spot.index + maxKeyLength

structure Lexer where
  spot : Spot
  /-- The column of the block that the spot is in; `-1` outside of all. -/
  indent : Int := -1
  outer : List Int := []
  allowsKey : Bool := true
  blockKey : Option KeyPlace := none
  /-- The places where keys may stand within brackets, innermost first; one for each bracket that is open. -/
  flowKeys : List (Option KeyPlace) := []
  done : List Token := []
  count : Nat := 0

namespace Lexer

def inFlow (l : Lexer) : Bool := !l.flowKeys.isEmpty

def push (t : Token) (l : Lexer) : Lexer := { l with done := t :: l.done, count := l.count + 1 }

def insertAt (place : Nat) (t : Token) (l : Lexer) : Lexer :=
  let later := l.count - place
  { l with done := l.done.take later ++ t :: l.done.drop later, count := l.count + 1 }

def moveTo (s : Spot) (l : Lexer) : Lexer := { l with spot := s }

def skip (count : Nat) (l : Lexer) : Lexer := l.moveTo (l.spot.skip count)

/-! ## Blocks -/

def endBlocks (column : Int) (l : Lexer) : List Int → Lexer
  | [] => { l with outer := [] }
  | indent :: outer =>
    if l.indent ≤ column then { l with outer := indent :: outer }
    else endBlocks column ({ l with indent := indent }.push .blockEnd) outer

/-- Ends the blocks that are indented deeper than a column; within brackets indentation does not count. -/
def unwind (column : Int) (l : Lexer) : Lexer := if l.inFlow then l else endBlocks column l l.outer

/-- Opens a block at a column that is deeper than the block around it: whether there is one to open. -/
def indentTo (column : Nat) (l : Lexer) : Bool × Lexer :=
  if l.indent < column then (true, { l with indent := column, outer := l.indent :: l.outer })
  else (false, l)

def openBlock (t : Token) (l : Lexer) : Lexer :=
  let (opens, l) := l.indentTo l.spot.column
  if opens then l.push t else l

/-! ## Keys -/

def dropBlockKey (l : Lexer) : Except Refusal Lexer :=
  if l.blockKey.any KeyPlace.required then .error .malformed else .ok { l with blockKey := none }

def dropKey (l : Lexer) : Except Refusal Lexer :=
  match l.flowKeys with
  | [] => l.dropBlockKey
  | _ :: outer => .ok { l with flowKeys := none :: outer }

def dropStaleKey (l : Lexer) : Except Refusal Lexer :=
  match l.blockKey with
  | none => .ok l
  | some k => if k.isFresh l.spot then .ok l else l.dropBlockKey

def keepKey (l : Lexer) : Except Refusal Lexer := do
  if !l.allowsKey then return l
  let l ← l.dropKey
  let here : KeyPlace := ⟨l.count, !l.inFlow && l.indent == l.spot.column, l.spot⟩
  match l.flowKeys with
  | [] => return { l with blockKey := some here }
  | _ :: outer => return { l with flowKeys := some here :: outer }

def key? (l : Lexer) : Option KeyPlace :=
  match l.flowKeys with
  | [] => l.blockKey
  | k :: _ => k.filter fun k => k.isFresh l.spot

/-! ## Tokens -/

def toNextToken : Nat → Lexer → Lexer
  | 0, l => l
  | steps + 1, l =>
    let s := (l.spot.drop (· == ' ')).dropComment
    match s.break? with
    | some (_, s) => toNextToken steps { l with spot := s, allowsKey := l.allowsKey || !l.inFlow }
    | none => l.moveTo s

def freshly (l : Lexer) : Except Refusal Lexer := do
  let l ← (l.unwind (-1)).dropKey
  return { l with allowsKey := false }

def readDirective (l : Lexer) : Except Refusal Lexer := do
  let l ← l.freshly
  let (t, s) ← directiveToken l.spot.next
  return (l.moveTo s).push t

def readDocumentMark (t : Token) (l : Lexer) : Except Refusal Lexer := do
  let l ← l.freshly
  return (l.skip 3).push t

def openFlow (t : Token) (l : Lexer) : Except Refusal Lexer := do
  let l ← l.keepKey
  return { (l.skip 1).push t with flowKeys := none :: l.flowKeys, allowsKey := true }

def closeFlow (t : Token) (l : Lexer) : Except Refusal Lexer :=
  match l.flowKeys with
  | [] => .error .malformed
  | _ :: outer => .ok { (l.skip 1).push t with flowKeys := outer, allowsKey := false }

def readFlowEntry (l : Lexer) : Except Refusal Lexer := do
  let l ← l.dropKey
  return { (l.skip 1).push .flowEntry with allowsKey := true }

/-- Opens a block at the spot, where a key has to be allowed; within brackets there is nothing to open. -/
def startBlock (t : Token) (l : Lexer) : Except Refusal Lexer :=
  if l.inFlow then .ok l
  else if !l.allowsKey then .error .malformed
  else .ok (l.openBlock t)

def readEntry (l : Lexer) : Except Refusal Lexer := do
  let l ← l.startBlock .sequenceStart
  let l ← l.dropKey
  return { (l.skip 1).push .entry with allowsKey := true }

def readKey (l : Lexer) : Except Refusal Lexer := do
  let l ← l.startBlock .mappingStart
  let l ← l.dropKey
  return { (l.skip 1).push .key with allowsKey := !l.inFlow }

def announceKey (k : KeyPlace) (l : Lexer) : Lexer :=
  let l := match l.flowKeys with
    | [] => { l with blockKey := none }
    | _ :: outer => { l with flowKeys := none :: outer }
  let l := l.insertAt k.tokens .key
  let l :=
    if l.inFlow then l
    else
      let (opens, l) := l.indentTo k.spot.column
      if opens then l.insertAt k.tokens .mappingStart else l
  { l with allowsKey := false }

def readValue (l : Lexer) : Except Refusal Lexer := do
  let l ←
    match l.key? with
    | some k => pure (l.announceKey k)
    | none => do
      let l ← l.startBlock .mappingStart
      let l ← l.dropKey
      pure { l with allowsKey := !l.inFlow }
  return (l.skip 1).push .value

/-- Reads a token that may be a key or start one, after which no other may start at once. -/
def readKeyed (read : Spot → Except Refusal (Token × Spot)) (l : Lexer) : Except Refusal Lexer := do
  let l ← l.keepKey
  let (t, s) ← read l.spot
  return { (l.moveTo s).push t with allowsKey := false }

def readBlockScalar (foldsLines : Bool) (l : Lexer) : Except Refusal Lexer := do
  let l ← l.dropKey
  let (text, s) ← blockScalar foldsLines l.indent l.spot.next
  return { (l.moveTo s).push (.scalar false (codesOf text)) with allowsKey := true }

def readPlain (l : Lexer) : Except Refusal Lexer := do
  let l ← l.keepKey
  let (text, ended, s) := plainScalar l.inFlow l.indent l.spot
  return { (l.moveTo s).push (.scalar true (codesOf text)) with allowsKey := ended }

def startsPlain (inFlow : Bool) (c : Char) (s : Spot) : Bool :=
  !(isGap c || "-?:,[]\x7b\x7d#&*!|>'\"%@`".toList.contains c) ||
    (!s.seesAhead isGap 1 && (c == '-' || (!inFlow && (c == '?' || c == ':'))))

def readToken (c : Char) (l : Lexer) : Except Refusal Lexer :=
  let s := l.spot
  let alone := s.seesAhead isGap 1
  if c == '%' && s.column == 0 then l.readDirective
  else if s.column == 0 && s.seesMark ['-', '-', '-'] then l.readDocumentMark .documentStart
  else if s.column == 0 && s.seesMark ['.', '.', '.'] then l.readDocumentMark .documentEnd
  else if c == '[' then l.openFlow .flowSequenceStart
  else if c == '{' then l.openFlow .flowMappingStart
  else if c == ']' then l.closeFlow .flowSequenceEnd
  else if c == '}' then l.closeFlow .flowMappingEnd
  else if c == ',' then l.readFlowEntry
  else if c == '-' && alone then l.readEntry
  else if c == '?' && (l.inFlow || alone) then l.readKey
  else if c == ':' && (l.inFlow || alone) then l.readValue
  else if c == '*' then l.readKeyed fun s => (anchorName s.next).map fun (name, s) => (.alias name, s)
  else if c == '&' then l.readKeyed fun s => (anchorName s.next).map fun (name, s) => (.anchor name, s)
  else if c == '!' then l.readKeyed tagToken
  else if c == '|' && !l.inFlow then l.readBlockScalar false
  else if c == '>' && !l.inFlow then l.readBlockScalar true
  else if c == '\'' || c == '"' then
    l.readKeyed fun s => (quotedScalar c s.next).map fun (codes, s) => (.scalar false codes, s)
  else if startsPlain l.inFlow c s then l.readPlain
  else .error .malformed

def readEnd (l : Lexer) : Except Refusal Lexer := do
  let l ← (l.unwind (-1)).dropKey
  return l.push .streamEnd

def readNext (l : Lexer) : Except Refusal (Bool × Lexer) := do
  let l := l.toNextToken (l.spot.ahead + 1)
  l.spot.check
  let l ← l.dropStaleKey
  let l := l.unwind l.spot.column
  match l.spot.char? with
  | none => return (false, ← l.readEnd)
  | some c =>
    let l ← l.readToken c
    l.spot.check
    return (true, ← l.dropStaleKey)

/-- How many of the tokens are settled: those from a place on where a key may yet stand are not. -/
def settled (l : Lexer) : Nat :=
  ((l.blockKey :: l.flowKeys).filterMap id).foldl
    (fun least k => if k.isFresh l.spot then min least k.tokens else least) l.count

def refusedWith (r : Refusal) (l : Lexer) : List Token :=
  (Token.refused r :: l.done.drop (l.count - l.settled)).reverse

def readAll : Nat → Lexer → List Token
  | 0, l => l.refusedWith .malformed
  | steps + 1, l =>
    match l.readNext with
    | .error r => l.refusedWith r
    | .ok (true, l) => readAll steps l
    | .ok (false, l) => l.done.reverse

end Lexer

/-- The tokens of a text, which may be cut off. A byte order mark at its start is skipped. -/
def tokens (text : List Char) (cut : Option Refusal) : List Token :=
  let s := Spot.start text cut
  let l : Lexer := { spot := if s.sees (· == '\uFEFF') then s.next else s }
  l.readAll (text.length + 2)

end CodeCensus.Yaml
