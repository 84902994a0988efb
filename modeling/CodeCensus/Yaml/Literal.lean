import CodeCensus.Data
import CodeCensus.Number.Written
import CodeCensus.Text.Base64
import CodeCensus.Yaml.Node

/-! The values that texts stand for, by their kinds. -/

namespace CodeCensus.Yaml

def orBad {α : Type} : Option α → Except Refusal α
  | some a => .ok a
  | none => .error .badValue

def colonParts (text : List Char) : List (List Char) := Text.fields ':' text

/-- Splits off the sign of a number and leaves out its underscores; there has to be something else. -/
def unsigned (text : List Char) : Except Refusal (Bool × List Char) :=
  match text.filter fun c => c != '_' with
  | [] => .error .emptyNumber
  | text => .ok (Written.sign text)

/-! ## Integers -/

/-- The integer that a text after its sign writes: in base two after `0b`, in base sixteen after `0x`, in base
eight after a zero, in sixtieths between colons, and else in base ten. -/
def magnitude : List Char → Except Refusal Int
  | [] => .error .emptyNumber
  | ['0'] => .ok 0
  | '0' :: 'b' :: digits => orBad (Written.int? 2 digits)
  | '0' :: 'x' :: digits => orBad (Written.int? 16 digits)
  | '0' :: digits => orBad (Written.int? 8 ('0' :: digits))
  | text =>
    if text.contains ':' then do
      let parts ← (colonParts text).mapM fun part => orBad (Written.int? 10 part)
      return parts.foldl (fun total n => total * 60 + n) 0
    else orBad (Written.int? 10 text)

def intOf (text : List Char) : Except Refusal Int := do
  let (negative, text) ← unsigned text
  let n ← magnitude text
  return if negative then -n else n

/-! ## Numbers with a point -/

/-- The sum of parts in sixtieths, given with the last first; `weight` is that of the first of them, and `total`
the sum of those before. A weight beyond every finite number cannot be applied. -/
def sixtiethsFrom (total : Double) (weight : Int) : List Double → Except Refusal Double
  | [] => .ok total
  | x :: rest =>
    match Double.ofInt? weight with
    | some w => sixtiethsFrom (total.add (x.mul w)) (weight * 60) rest
    | none => .error .hugeNumber

/-- The number that a text after its sign writes: a word for infinity or for none, sixtieths between colons, or a
number as it is written elsewhere. -/
def floatMagnitude (text : List Char) : Except Refusal Double :=
  if text == ".inf".toList then .ok (.infinite false)
  else if text == ".nan".toList then .ok .nan
  else if text.contains ':' then do
    let parts ← (colonParts text).mapM fun part => orBad (Written.double? part)
    sixtiethsFrom .zero 1 parts.reverse
  else orBad (Written.double? text)

def floatOf (text : List Char) : Except Refusal Double := do
  let (negative, text) ← unsigned (text.map Char.toLower)
  let x ← floatMagnitude text
  return if negative then x.negate else x

/-! ## Other values -/

def boolOf (text : List Char) : Except Refusal Bool :=
  let word := String.ofList (text.map Char.toLower)
  if ["yes", "true", "on"].contains word then .ok true
  else if ["no", "false", "off"].contains word then .ok false
  else .error .unknownWord

def bytesOf (text : List Char) : Except Refusal (List UInt8) :=
  (Text.Base64.decode text).mapError fun _ => .malformed

/-- The value of a kind that a text stands for, given by its code points; not every kind has such values. -/
def literal (kind : Kind) (codes : List Nat) : Except Refusal Data :=
  let text := charsOf codes
  match kind with
  | .null => .ok .null
  | .bool => (boolOf text).map .bool
  | .int => (intOf text).map .int
  | .float => (floatOf text).map .float
  | .moment => (momentOf text).map .moment
  | .text => .ok (.ofCodes codes)
  | .bytes => (bytesOf text).map .bytes
  | _ => .error .malformed

end CodeCensus.Yaml
