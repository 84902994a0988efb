import CodeCensus.Text.Class

/-! Trimming and cutting texts. -/

namespace CodeCensus.Text

def trimEndBy (p : Char → Bool) (text : List Char) : List Char :=
  (text.reverse.dropWhile p).reverse

def trimBy (p : Char → Bool) (text : List Char) : List Char :=
  trimEndBy p (text.dropWhile p)

def trim (text : List Char) : List Char := trimBy isBlank text

def nonBlank? (text : List Char) : Option (List Char) :=
  match trim text with
  | [] => none
  | c :: rest => some (c :: rest)

/-- The fields between the occurrences of one character; there is one more of them than occurrences. -/
def fields (sep : Char) (text : List Char) : List (List Char) :=
  text.foldr
    (fun c done =>
      if c == sep then [] :: done
      else
        match done with
        | [] => [[c]]
        | field :: others => (c :: field) :: others)
    [[]]

def words (text : List Char) : List (List Char) :=
  (text.foldr
    (fun c (done : List (List Char)) =>
      if isBlank c then [] :: done
      else
        match done with
        | [] => [[c]]
        | word :: others => (c :: word) :: others)
    [[]]).filter fun word => !word.isEmpty

/-- What precedes and what follows the first occurrence of `needle`; `seen` is what was passed, last first. -/
def cutFirstAfter (needle seen : List Char) : List Char → Option (List Char × List Char)
  | [] => if needle.isEmpty then some (seen.reverse, []) else none
  | c :: rest =>
    if needle.isPrefixOf (c :: rest) then some (seen.reverse, (c :: rest).drop needle.length)
    else cutFirstAfter needle (c :: seen) rest

def cutFirst (needle text : List Char) : Option (List Char × List Char) :=
  cutFirstAfter needle [] text

def cutLast (needle text : List Char) : Option (List Char × List Char) :=
  (cutFirst needle.reverse text.reverse).map fun (after, before) => (before.reverse, after.reverse)

def occurs (needle text : List Char) : Bool := (cutFirst needle text).isSome

/-- The pieces between the occurrences of `needle`, found from the left; at most `cuts` cuts are made. -/
def piecesWithin (needle : List Char) : Nat → List Char → List (List Char)
  | 0, text => [text]
  | cuts + 1, text =>
    match cutFirst needle text with
    | none => [text]
    | some (before, after) => before :: piecesWithin needle cuts after

def pieces (needle text : List Char) : List (List Char) := piecesWithin needle text.length text

def upTo (sep : Char) (text : List Char) : List Char := text.takeWhile fun c => c != sep

def afterLast (sep : Char) (text : List Char) : List Char :=
  (text.reverse.takeWhile fun c => c != sep).reverse

/-- Where an offset points in a text of `size` characters; a negative one counts from the end. -/
def offset (size : Nat) (i : Int) : Nat :=
  if i < 0 then (size + i).toNat else i.toNat

end CodeCensus.Text
