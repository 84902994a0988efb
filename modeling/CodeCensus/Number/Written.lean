import CodeCensus.Fault
import CodeCensus.Number.Digits
import CodeCensus.Number.Double
import CodeCensus.Text.Tables
import CodeCensus.Text.Trim

/-! Numbers as they are written in texts. White space may stand around a number, its digits may be those of any
script, and single underscores may stand between digits. -/

namespace CodeCensus.Written

def sign : List Char → Bool × List Char
  | '-' :: rest => (true, rest)
  | '+' :: rest => (false, rest)
  | text => (false, text)

/-- A decimal digit of any script as the same digit of ASCII; other characters stay as they are. -/
def asciiDigit (c : Char) : Char :=
  match Text.decimalDigit? c with
  | some value => Char.ofNat ('0'.toNat + value)
  | none => c

def bare (text : List Char) : List Char := (Text.trimBy Text.isWhiteSpace text).map asciiDigit

/-- Leaves out the underscores, each of which has to stand between two digits; `afterDigit` tells whether a digit
precedes. -/
def ungrouped? (isDigit : Char → Bool) (afterDigit : Bool) : List Char → Option (List Char)
  | [] => some []
  | c :: rest =>
    if c == '_' then
      if afterDigit && rest.head?.any isDigit then ungrouped? isDigit false rest else none
    else (ungrouped? isDigit (isDigit c) rest).map fun joined => c :: joined

/-! ## Integers -/

def isDigitIn (base : Nat) (c : Char) : Bool := isHexDigit c && digitValue c < base

def baseLetter? : Nat → Option Char
  | 2 => some 'b'
  | 8 => some 'o'
  | 16 => some 'x'
  | _ => none

/-- The digits after the mark of a base, if there is one; an underscore may follow the mark. -/
def dropBaseMark (base : Nat) : List Char → List Char
  | '0' :: c :: rest =>
    if baseLetter? base == some c.toLower then
      match rest with
      | '_' :: rest => rest
      | rest => rest
    else '0' :: c :: rest
  | digits => digits

def nat? (base : Nat) (digits : List Char) : Option Nat :=
  -- digits of base ten are limited in count
  if digits.isEmpty || !digits.all (isDigitIn base) || (base == 10 && Fault.maxDigits < digits.length) then none
  else some (ofDigits base digits)

def int? (base : Nat) (text : List Char) : Option Int := do
  let (negative, body) := sign (bare text)
  let digits ← ungrouped? (isDigitIn base) false (dropBaseMark base body)
  let n ← nat? base digits
  return Double.signed negative n

/-! ## Numbers with a point -/

def doubleWords : List (List Char × (Bool → Double)) := [
  ("inf".toList, .infinite), ("infinity".toList, .infinite), ("nan".toList, fun _ => .nan)]

def doubleOfDigits (negative : Bool) (body : List Char) : Option Double :=
  let whole := body.takeWhile Char.isDigit
  let rest := body.dropWhile Char.isDigit
  let (places, rest) :=
    match rest with
    | '.' :: rest => (rest.takeWhile Char.isDigit, rest.dropWhile Char.isDigit)
    | rest => ([], rest)
  if whole.isEmpty && places.isEmpty then none
  else
    let value (power : Int) : Double :=
      .ofDecimal negative (ofDigits 10 (whole ++ places)) (power - places.length)
    match rest with
    | [] => some (value 0)
    | e :: rest =>
      let (down, power) := sign rest
      if (e == 'e' || e == 'E') && !power.isEmpty && power.all Char.isDigit then
        some (value (Double.signed down (ofDigits 10 power)))
      else none

/-- The number that a text writes in nothing but digits of ASCII, a sign, a point and an exponent, or as a word
for an infinite number or none. -/
def plainDouble? (text : List Char) : Option Double :=
  let (negative, body) := sign text
  match doubleWords.lookup (body.map Char.toLower) with
  | some word => some (word negative)
  | none => doubleOfDigits negative body

def double? (text : List Char) : Option Double := (ungrouped? Char.isDigit false (bare text)).bind plainDouble?

end CodeCensus.Written
