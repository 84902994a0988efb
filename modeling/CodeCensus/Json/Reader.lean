import CodeCensus.Data
import CodeCensus.Fault
import CodeCensus.Number.Digits

/-! Reading JSON. Beyond the standard, the words for the numbers that are none or infinite are read, and
escapes of single halves of surrogate pairs; a control character inside a text is refused, and so is a byte
order mark. -/

namespace CodeCensus.Json

def skipBlanks (text : List Char) : List Char :=
  text.dropWhile fun c => c == ' ' || c == '\t' || c == '\n' || c == '\r'

def codeUnit? (a b c d : Char) : Option Nat :=
  if isHexDigit a && isHexDigit b && isHexDigit c && isHexDigit d then some (ofDigits 16 [a, b, c, d])
  else none

def isHighHalf (n : Nat) : Bool := 0xD800 ≤ n && n ≤ 0xDBFF

def isLowHalf (n : Nat) : Bool := 0xDC00 ≤ n && n ≤ 0xDFFF

def joinHalves (high low : Nat) : Nat := 0x10000 + (high - 0xD800) * 0x400 + (low - 0xDC00)

def escaped? : Char → Option Char
  | '"' => some '"'
  | '\\' => some '\\'
  | '/' => some '/'
  | 'b' => some '\x08'
  | 'f' => some '\x0c'
  | 'n' => some '\n'
  | 'r' => some '\r'
  | 't' => some '\t'
  | _ => none

/-- The code points of a text up to its closing quotation mark, added to those already read, last first. -/
def textCodes (done : List Nat) : List Char → Read (List Nat)
  | [] => .error .malformed
  | '"' :: rest => .ok (done.reverse, rest)
  | '\\' :: 'u' :: a :: b :: c :: d :: rest =>
    match codeUnit? a b c d with
    | none => .error .malformed
    | some unit =>
      match done with
      | high :: before =>
        -- A high half just read by an escape waits as a code point that no character has.
        if isHighHalf high && isLowHalf unit then textCodes (joinHalves high unit :: before) rest
        else textCodes (unit :: done) rest
      | [] => textCodes [unit] rest
  | '\\' :: c :: rest =>
    match escaped? c with
    | none => .error .malformed
    | some c => textCodes (c.toNat :: done) rest
  | c :: rest => if c.toNat < 0x20 then .error .malformed else textCodes (c.toNat :: done) rest

def ofCodes (codes : List Nat) : Data :=
  if codes.any fun n => isHighHalf n || isLowHalf n then .broken codes
  else .text (String.ofList (codes.map Char.ofNat))

def spanDigits (text : List Char) : List Char × List Char :=
  (text.takeWhile Char.isDigit, text.dropWhile Char.isDigit)

def fraction : List Char → List Char × List Char
  | '.' :: rest =>
    match spanDigits rest with
    | ([], _) => ([], '.' :: rest)
    | (digits, rest) => (digits, rest)
  | text => ([], text)

/-- The exponent, if there is one: whether it is negative, its digits, and the rest. -/
def exponent? : List Char → Option (Bool × List Char × List Char)
  | e :: rest =>
    if e == 'e' || e == 'E' then
      let (negative, rest) :=
        match rest with
        | '-' :: rest => (true, rest)
        | '+' :: rest => (false, rest)
        | rest => (false, rest)
      match spanDigits rest with
      | ([], _) => none
      | (digits, rest) => some (negative, digits, rest)
    else none
  | [] => none

/-- The number whose sign has been read. A number with a fraction or an exponent is a float. -/
def number (negative : Bool) (text : List Char) : Read Data :=
  let whole :=
    match text with
    | '0' :: rest => (['0'], rest)
    | text => spanDigits text
  match whole with
  | ([], _) => .error .malformed
  | (digits, rest) =>
    let (places, rest) := fraction rest
    match exponent? rest with
    | some (down, power, rest) =>
      let power := Double.signed down (ofDigits 10 power)
      .ok (.float (Double.ofDecimal negative (ofDigits 10 (digits ++ places)) (power - places.length)), rest)
    | none =>
      if places.isEmpty then
        if Fault.maxDigits < digits.length then .error (.fault (.longNumber digits.length))
        else .ok (.int (Double.signed negative (ofDigits 10 digits)), rest)
      else
        .ok (.float (Double.ofDecimal negative (ofDigits 10 (digits ++ places)) (-places.length)), rest)

def words : List (List Char × Data) := [
  ("null".toList, .null), ("true".toList, .bool true), ("false".toList, .bool false),
  ("NaN".toList, .float .nan), ("Infinity".toList, .float (.infinite false)),
  ("-Infinity".toList, .float (.infinite true))]

def scalar (text : List Char) : Read Data :=
  match words.find? fun (word, _) => word.isPrefixOf text with
  | some (word, value) => .ok (value, text.drop word.length)
  | none =>
    match text with
    | '-' :: rest => number true rest
    | text => number false text

mutual

/-- The value at the start of a text. `depth` is how deep it may nest, and `fuel` more than the length of
the text. -/
def value : Nat → Nat → List Char → Read Data
  | 0, _, _ => .error .malformed
  | fuel + 1, depth, text =>
    match text with
    | '"' :: rest =>
      match textCodes [] rest with
      | .error e => .error e
      | .ok (codes, rest) => .ok (ofCodes codes, rest)
    | '[' :: rest =>
      match depth with
      | 0 => .error (.fault (.deepNesting .jsonArray))
      | depth + 1 =>
        match skipBlanks rest with
        | ']' :: rest => .ok (.list [], rest)
        | rest => items fuel depth [] rest
    | '{' :: rest =>
      match depth with
      | 0 => .error (.fault (.deepNesting .jsonObject))
      | depth + 1 =>
        match skipBlanks rest with
        | '}' :: rest => .ok (.table [], rest)
        | rest => members fuel depth [] rest
    | text => scalar text

/-- The items of an array from the start of one on, added to those already read, last first. -/
def items : Nat → Nat → List Data → List Char → Read Data
  | 0, _, _, _ => .error .malformed
  | fuel + 1, depth, done, text =>
    match value fuel depth text with
    | .error e => .error e
    | .ok (item, rest) =>
      match skipBlanks rest with
      | ']' :: rest => .ok (.list (item :: done).reverse, rest)
      | ',' :: rest => items fuel depth (item :: done) (skipBlanks rest)
      | _ => .error .malformed

/-- The members of an object from the start of one on, added to those already read, last first. -/
def members : Nat → Nat → List (Data × Data) → List Char → Read Data
  | 0, _, _, _ => .error .malformed
  | fuel + 1, depth, done, text =>
    match text with
    | '"' :: rest =>
      match textCodes [] rest with
      | .error e => .error e
      | .ok (codes, rest) =>
        match skipBlanks rest with
        | ':' :: rest =>
          match value fuel depth (skipBlanks rest) with
          | .error e => .error e
          | .ok (item, rest) =>
            let done := (ofCodes codes, item) :: done
            match skipBlanks rest with
            | '}' :: rest => .ok (.table (Data.collect done.reverse), rest)
            | ',' :: rest => members fuel depth done (skipBlanks rest)
            | _ => .error .malformed
        | _ => .error .malformed
    | _ => .error .malformed

end

def read (text : List Char) : Except Refusal Data :=
  match value (text.length + 1) Fault.maxNesting (skipBlanks text) with
  | .error e => .error e
  | .ok (v, rest) => if (skipBlanks rest).isEmpty then .ok v else .error .malformed

end CodeCensus.Json
