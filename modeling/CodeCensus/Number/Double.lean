/-! Binary floating-point numbers of 64 bits as exact values: a finite one is a signed integer below 2^53
times a power of two. Every operation computes exactly and rounds once, to the nearest such number and to the
even mantissa on a tie. -/

namespace CodeCensus

inductive Double where
  | nan
  | infinite (negative : Bool)
  | finite (negative : Bool) (mantissa : Nat) (exponent : Int)
  deriving DecidableEq, Repr

/-- The quotient of two numbers rounded to the nearest integer, to the even one on a tie. -/
def roundDiv (num den : Nat) : Nat :=
  let quotient := num / den
  let twice := 2 * (num % den)
  if twice < den then quotient
  else if den < twice then quotient + 1
  else if quotient % 2 == 0 then quotient else quotient + 1

namespace Double

def minExponent : Int := -1074

def maxExponent : Int := 971

def zero : Double := .finite false 0 minExponent

def scaled (num den : Nat) (e : Int) : Nat × Nat :=
  if e < 0 then (num * Nat.pow 2 (-e).toNat, den) else (num, den * Nat.pow 2 e.toNat)

/-- The exponent at which a positive quotient has a mantissa of 53 bits, or the least one. -/
def exponentFor (num den : Nat) : Int :=
  let guess : Int := (Nat.log2 num : Int) - (Nat.log2 den : Int) - 52
  let (n, d) := scaled num den guess
  max (if n < d * Nat.pow 2 52 then guess - 1 else guess) minExponent

def ofRatio (negative : Bool) (num den : Nat) : Double :=
  if num == 0 then .finite negative 0 minExponent
  else
    let e := exponentFor num den
    let (n, d) := scaled num den e
    let m := roundDiv n d
    let (m, e) := if m == Nat.pow 2 53 then (Nat.pow 2 52, e + 1) else (m, e)
    if maxExponent < e then .infinite negative else .finite negative m e

def ofDecimal (negative : Bool) (digits : Nat) (exponent : Int) : Double :=
  if digits == 0 then .finite negative 0 minExponent
  else if 400 < exponent then .infinite negative
  else if exponent < -400 - (Nat.log2 digits : Int) then .finite negative 0 minExponent
  else if exponent < 0 then ofRatio negative digits (Nat.pow 10 (-exponent).toNat)
  else ofRatio negative (digits * Nat.pow 10 exponent.toNat) 1

def ofInt (n : Int) : Double := ofRatio (decide (n < 0)) n.natAbs 1

def ofInt? (n : Int) : Option Double :=
  match ofInt n with
  | .finite s m e => some (.finite s m e)
  | _ => none

/-- The number nearest to the quotient of two integers, if that is finite; the divisor is not zero. -/
def quotient? (num den : Int) : Option Double :=
  match ofRatio (decide (num < 0) != decide (den < 0)) num.natAbs den.natAbs with
  | .finite s m e => some (.finite s m e)
  | _ => none

def isNaN : Double → Bool
  | .nan => true
  | _ => false

def isInfinite : Double → Bool
  | .infinite _ => true
  | _ => false

def isNegative : Double → Bool
  | .nan => false
  | .infinite negative => negative
  | .finite negative _ _ => negative

def isZero : Double → Bool
  | .finite _ m _ => m == 0
  | _ => false

def nonNegative : Double → Bool
  | .nan => false
  | .infinite negative => !negative
  | .finite negative m _ => !negative || m == 0

def positive : Double → Bool
  | .nan => false
  | .infinite negative => !negative
  | .finite negative m _ => !negative && m != 0

def signed (negative : Bool) (n : Nat) : Int := if negative then -(n : Int) else n

def truncate : Double → Int
  | .finite negative m e =>
    let (n, d) := scaled m 1 (-e)
    signed negative (n / d)
  | _ => 0

def toInt? : Double → Option Int
  | .finite negative m e =>
    let (n, d) := scaled m 1 (-e)
    if n % d == 0 then some (signed negative (n / d)) else none
  | _ => none

def add : Double → Double → Double
  | .finite s m e, .finite s' m' e' =>
    let low := min e e'
    let total := signed s (m * Nat.pow 2 (e - low).toNat) + signed s' (m' * Nat.pow 2 (e' - low).toNat)
    let (n, d) := scaled total.natAbs 1 (-low)
    ofRatio (if total == 0 then s && s' else decide (total < 0)) n d
  | .nan, _ => .nan
  | _, .nan => .nan
  | .infinite s, .infinite s' => if s == s' then .infinite s else .nan
  | .infinite s, _ => .infinite s
  | _, .infinite s => .infinite s

def mul : Double → Double → Double
  | .finite s m e, .finite s' m' e' =>
    let (n, d) := scaled (m * m') 1 (-(e + e'))
    ofRatio (s != s') n d
  | .nan, _ => .nan
  | _, .nan => .nan
  | .infinite s, x => if x.isZero then .nan else .infinite (s != x.isNegative)
  | x, .infinite s => if x.isZero then .nan else .infinite (s != x.isNegative)

def negate : Double → Double
  | .nan => .nan
  | .infinite s => .infinite (!s)
  | .finite s m e => .finite (!s) m e

def half : Double := .finite false (Nat.pow 2 52) (-53)

end Double

end CodeCensus
