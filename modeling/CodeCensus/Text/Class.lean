import CodeCensus.Text.Tables

/-! The classes of characters that the readers tell apart, and lower case. -/

namespace CodeCensus.Text

/-! ## Membership in a table of ascending, disjoint, closed ranges, by bisection -/

/-- Looks for `x` among the ranges with index in `[lo, hi)`; each step halves what is left. -/
def inRangesFrom (table : Array (Nat × Nat)) (x : Nat) : Nat → Nat → Nat → Bool
  | 0, _, _ => false
  | steps + 1, lo, hi =>
    if lo < hi then
      let mid := (lo + hi) / 2
      match table[mid]? with
      | none => false
      | some (first, last) =>
        if x < first then inRangesFrom table x steps lo mid
        else if last < x then inRangesFrom table x steps (mid + 1) hi
        else true
    else false

def inRanges (table : Array (Nat × Nat)) (x : Nat) : Bool :=
  inRangesFrom table x table.size 0 table.size

/-- Blanks: the controls that move the carriage, the four information separators, the next-line control and
every Unicode space. The zero-width space is none. -/
def isBlank (c : Char) : Bool :=
  let n := c.toNat
  if n < 128 then n == 32 || (9 ≤ n && n ≤ 13) || (28 ≤ n && n ≤ 31)
  else n == 0x85 || n == 0xA0 || n == 0x1680 || (0x2000 ≤ n && n ≤ 0x200A) || n == 0x2028 ||
    n == 0x2029 || n == 0x202F || n == 0x205F || n == 0x3000

def isWhiteSpace (c : Char) : Bool :=
  isBlank c && !(28 ≤ c.toNat && c.toNat ≤ 31)

def isWord (c : Char) : Bool :=
  let n := c.toNat
  if n < 128 then c.isAlphanum || c == '_' else inRanges wordRanges n

def isPrintable (c : Char) : Bool :=
  let n := c.toNat
  if n < 127 then 32 ≤ n else !inRanges unprintableRanges n

/-- Characters that end a line: the ASCII ones, the information separators but the last, and Unicode's. -/
def isLineBreak (c : Char) : Bool :=
  let n := c.toNat
  (10 ≤ n && n ≤ 13) || (28 ≤ n && n ≤ 30) || n == 0x85 || n == 0x2028 || n == 0x2029

/-! ## Lower case

Every character has one lower-case form, but for two: the dotted capital I gives two characters, and a capital sigma
takes its final form at the end of a word. -/

def lowerChar (c : Char) : Char :=
  let n := c.toNat
  if n < 128 then c.toLower
  else
    match lowerRuns.find? fun (first, last, _, _) => first ≤ n && n ≤ last with
    | none => c
    | some (first, _, step, offset) =>
      if (n - first) % step == 0 then Char.ofNat (Int.toNat (n + offset)) else c

/-- Whether the nearest character that the sigma rule does not pass over is a cased one. -/
def meetsCased (text : List Char) : Bool :=
  match text.dropWhile fun c => inRanges caseIgnorableRanges c.toNat with
  | [] => false
  | c :: _ => inRanges casedRanges c.toNat

def lowerAfter (before : List Char) : List Char → List Char
  | [] => []
  | c :: rest =>
    let tail := lowerAfter (c :: before) rest
    if c == 'Σ' then
      (if meetsCased before && !meetsCased rest then 'ς' else 'σ') :: tail
    else if c == 'İ' then 'i' :: '\u0307' :: tail
    else lowerChar c :: tail

def lower (text : List Char) : List Char := lowerAfter [] text

def lowercase (s : String) : String := String.ofList (lower s.toList)

end CodeCensus.Text
