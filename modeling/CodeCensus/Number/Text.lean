import CodeCensus.Number.Digits
import CodeCensus.Number.Double

/-! Numbers as texts: a fixed count of decimal places, and the fewest digits that read back as the same
number. -/

namespace CodeCensus.Double

/-- A number with the given count of decimal places; an exact tie goes to the even last digit. -/
def fixed (places : Nat) : Double → String
  | .nan => "nan"
  | .infinite negative => if negative then "-inf" else "inf"
  | .finite negative m e =>
    let (n, d) := scaled (m * Nat.pow 10 places) 1 (-e)
    let units := roundDiv n d
    String.ofList <|
      (if negative then ['-'] else []) ++ Nat.toDigits 10 (units / Nat.pow 10 places) ++
        (if places == 0 then [] else '.' :: decimalDigits places (units % Nat.pow 10 places))

/-- The decimal place of the first digit of a positive quotient: the least `k` with `num / den < 10 ^ k`,
sought upwards from a guess. -/
def magnitudeFrom (num den : Nat) : Nat → Int → Int
  | 0, k => k
  | steps + 1, k =>
    let below := if k < 0 then num * Nat.pow 10 (-k).toNat < den else num < den * Nat.pow 10 k.toNat
    if below then k else magnitudeFrom num den steps (k + 1)

/-- The nearest decimal with `count` digits to a positive quotient whose first digit stands at place `k`,
as an integer and the power of ten that goes with it. -/
def nearestDecimal (num den : Nat) (k : Int) (count : Nat) : Nat × Int :=
  let shift := (count : Int) - k
  let n :=
    if shift < 0 then roundDiv num (den * Nat.pow 10 (-shift).toNat)
    else roundDiv (num * Nat.pow 10 shift.toNat) den
  (n, -shift)

/-- The least count of digits, from `count` on, with which the nearest decimal reads back as `x`. -/
def shortestFrom (x : Double) (num den : Nat) (k : Int) : Nat → Nat → Nat × Int
  | 0, count => nearestDecimal num den k count
  | more + 1, count =>
    let (n, e) := nearestDecimal num den k count
    if ofDecimal false n e == x then (n, e) else shortestFrom x num den k more (count + 1)

/-- The fewest digits that read back as a positive finite number, and the place of the first of them. -/
def shortest (m : Nat) (e : Int) : List Char × Int :=
  let (num, den) := scaled m 1 (-e)
  let guess : Int := ((Nat.log2 num : Int) - (Nat.log2 den : Int) - 1) * 30103 / 100000 - 1
  let k := magnitudeFrom num den 8 guess
  let (n, exp) := shortestFrom (.finite false m e) num den k 17 1
  let digits := Nat.toDigits 10 n
  let kept := (digits.reverse.dropWhile (· == '0')).reverse
  (kept, exp + digits.length)

def positional (digits : List Char) (place : Int) : List Char :=
  if place ≤ 0 then ['0', '.'] ++ List.replicate (-place).toNat '0' ++ digits
  else
    let whole := place.toNat
    if digits.length ≤ whole then digits ++ List.replicate (whole - digits.length) '0' ++ ['.', '0']
    else digits.take whole ++ '.' :: digits.drop whole

def scientific (digits : List Char) (place : Int) : List Char :=
  let exponent := place - 1
  (match digits with
    | [] => ['0']
    | [d] => [d]
    | d :: rest => d :: '.' :: rest) ++
    'e' :: (if exponent < 0 then '-' else '+') :: decimalDigits 2 exponent.natAbs

/-- The shortest text that reads back as the same number, with a point or an exponent: numbers from 0.0001
up to below 10^16 are written without exponent. -/
def toText : Double → String
  | .nan => "nan"
  | .infinite negative => if negative then "-inf" else "inf"
  | .finite negative m e =>
    String.ofList <|
      (if negative then ['-'] else []) ++
        (if m == 0 then ['0', '.', '0']
        else
          let (digits, place) := shortest m e
          if -4 < place && place ≤ 16 then positional digits place else scientific digits place)

end CodeCensus.Double
