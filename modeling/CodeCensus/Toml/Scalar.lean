import CodeCensus.Data
import CodeCensus.Fault
import CodeCensus.Number.Digits
import CodeCensus.Text.Trim

/-! The values of TOML that hold no others: texts, numbers, dates and times. -/

namespace CodeCensus.Toml

def isSpace (c : Char) : Bool := c == ' ' || c == '\t'

def skipSpaces (text : List Char) : List Char := text.dropWhile isSpace

/-- Characters that may stand in no text and no comment: the controls but for the tab. -/
def isIllegal (c : Char) : Bool := (c.toNat < 32 && c != '\t') || c.toNat == 127

def isIllegalInLines (c : Char) : Bool := isIllegal c && c != '\n'

def skipComment : List Char → Except Refusal (List Char)
  | '#' :: rest =>
    if (Text.upTo '\n' rest).any isIllegal then .error .malformed
    else .ok (rest.dropWhile (· != '\n'))
  | text => .ok text

/-! ## Texts -/

def hexCharacter (count : Nat) (text : List Char) : Read Char :=
  let digits := text.take count
  let n := ofDigits 16 digits
  if digits.length == count && digits.all isHexDigit && n.isValidChar then
    .ok (Char.ofNat n, text.drop count)
  else .error .malformed

def escaped? : Char → Option Char
  | 'b' => some '\x08'
  | 't' => some '\t'
  | 'n' => some '\n'
  | 'f' => some '\x0c'
  | 'r' => some '\r'
  | '"' => some '"'
  | '\\' => some '\\'
  | _ => none

/-- The characters that an escape stands for; in a text of several lines a backslash at the end of a line
stands for nothing and takes the blanks after it along. -/
def escape (several : Bool) : List Char → Read (List Char)
  | [] => .error .malformed
  | c :: rest =>
    if several && (isSpace c || c == '\n') then
      match if c == '\n' then '\n' :: rest else skipSpaces rest with
      | [] => .ok ([], [])
      | '\n' :: rest => .ok ([], rest.dropWhile fun c => isSpace c || c == '\n')
      | _ => .error .malformed
    else if c == 'u' then (hexCharacter 4 rest).map fun (c, rest) => ([c], rest)
    else if c == 'U' then (hexCharacter 8 rest).map fun (c, rest) => ([c], rest)
    else
      match escaped? c with
      | some c => .ok ([c], rest)
      | none => .error .malformed

/-- The characters of a text in double quotes up to its end, added to those already read, last first. -/
def basicFrom (several : Bool) : Nat → List Char → List Char → Read (List Char)
  | 0, _, _ => .error .malformed
  | _ + 1, _, [] => .error .malformed
  | fuel + 1, done, '"' :: rest =>
    if several then
      match rest with
      | '"' :: '"' :: rest => .ok (done.reverse, rest)
      | rest => basicFrom several fuel ('"' :: done) rest
    else .ok (done.reverse, rest)
  | fuel + 1, done, '\\' :: rest =>
    match escape several rest with
    | .error e => .error e
    | .ok (chars, rest) => basicFrom several fuel (chars.reverse ++ done) rest
  | fuel + 1, done, c :: rest =>
    if isIllegal c && !(several && c == '\n') then .error .malformed
    else basicFrom several fuel (c :: done) rest

def basic (several : Bool) (text : List Char) : Read (List Char) :=
  basicFrom several (text.length + 1) [] text

def literal (text : List Char) : Read (List Char) :=
  match Text.cutFirst ['\''] text with
  | none => .error .malformed
  | some (inner, rest) => if inner.any isIllegal then .error .malformed else .ok (inner, rest)

/-- Adds up to two quotes that stand right before the end of a text of several lines. -/
def closingQuotes (quote : Char) (inner : List Char) (rest : List Char) : List Char × List Char :=
  match rest with
  | c :: more =>
    if c == quote then
      match more with
      | c' :: more' => if c' == quote then (inner ++ [quote, quote], more') else (inner ++ [quote], more)
      | [] => (inner ++ [quote], [])
    else (inner, rest)
  | [] => (inner, [])

def basicLines (text : List Char) : Read (List Char) :=
  (basic true (if text.head? == some '\n' then text.drop 1 else text)).map fun (inner, rest) =>
    closingQuotes '"' inner rest

def literalLines (text : List Char) : Read (List Char) :=
  match Text.cutFirst ['\'', '\'', '\''] (if text.head? == some '\n' then text.drop 1 else text) with
  | none => .error .malformed
  | some (inner, rest) =>
    if inner.any isIllegalInLines then .error .malformed else .ok (closingQuotes '\'' inner rest)

/-! ## Numbers -/

def spanDigits (isDigit : Char → Bool) : List Char → List Char × List Char
  | [] => ([], [])
  | '_' :: c :: rest =>
    if isDigit c then
      let (digits, rest) := spanDigits isDigit rest
      (c :: digits, rest)
    else ([], '_' :: c :: rest)
  | c :: rest =>
    if isDigit c then
      let (digits, rest) := spanDigits isDigit rest
      (c :: digits, rest)
    else ([], c :: rest)

def digits (isDigit : Char → Bool) (text : List Char) : List Char × List Char :=
  match text with
  | c :: _ => if isDigit c then spanDigits isDigit text else ([], text)
  | [] => ([], [])

def based? : List Char → Option (Data × List Char)
  | mark :: rest =>
    let read (base : Nat) (isDigit : Char → Bool) : Option (Data × List Char) :=
      match digits isDigit rest with
      | ([], _) => none
      | (found, rest) => some (.int (ofDigits base found), rest)
    if mark == 'x' then read 16 isHexDigit
    else if mark == 'b' then read 2 fun c => c == '0' || c == '1'
    else if mark == 'o' then read 8 fun c => '0' ≤ c && c ≤ '7'
    else none
  | [] => none

def fraction : List Char → List Char × List Char
  | '.' :: rest =>
    match digits Char.isDigit rest with
    | ([], _) => ([], '.' :: rest)
    | found => found
  | text => ([], text)

def exponent? : List Char → Option (Int × List Char)
  | e :: rest =>
    if e == 'e' || e == 'E' then
      let (negative, rest) :=
        match rest with
        | '-' :: rest => (true, rest)
        | '+' :: rest => (false, rest)
        | rest => (false, rest)
      match digits Char.isDigit rest with
      | ([], _) => none
      | (found, rest) => some (Double.signed negative (ofDigits 10 found), rest)
    else none
  | [] => none

def decimal (negative : Bool) (text : List Char) : Read Data :=
  let whole :=
    match text with
    | '0' :: rest => (['0'], rest)
    | text => digits Char.isDigit text
  match whole with
  | ([], _) => .error .malformed
  | (found, rest) =>
    let (places, rest) := fraction rest
    match exponent? rest with
    | some (power, rest) =>
      .ok (.float (Double.ofDecimal negative (ofDigits 10 (found ++ places)) (power - places.length)), rest)
    | none =>
      if places.isEmpty then
        if Fault.maxDigits < found.length then .error (.fault (.longNumber found.length))
        else .ok (.int (Double.signed negative (ofDigits 10 found)), rest)
      else
        .ok (.float (Double.ofDecimal negative (ofDigits 10 (found ++ places)) (-places.length)), rest)

def numberWords : List (List Char × Double) := [
  ("inf".toList, .infinite false), ("nan".toList, .nan),
  ("+inf".toList, .infinite false), ("+nan".toList, .nan),
  ("-inf".toList, .infinite true), ("-nan".toList, .nan)]

def number (text : List Char) : Read Data :=
  match numberWords.find? fun (word, _) => word.isPrefixOf text with
  | some (word, x) => .ok (.float x, text.drop word.length)
  | none =>
    match text with
    | '0' :: rest =>
      match based? rest with
      | some found => .ok found
      | none => decimal false text
    | '-' :: rest => decimal true rest
    | '+' :: rest => decimal false rest
    | text => decimal false text

/-! ## Dates and times -/

def fixedDigits? (count : Nat) (text : List Char) : Option (Nat × List Char) :=
  let found := text.take count
  if found.length == count && found.all Char.isDigit then some (ofDigits 10 found, text.drop count)
  else none

def after? (c : Char) : List Char → Option (List Char)
  | [] => none
  | c' :: rest => if c' == c then some rest else none

/-- A year, month and day written with hyphens, a month from 1 to 12 and a day from 1 to 31. -/
def date? (text : List Char) : Option ((Nat × Nat × Nat) × List Char) := do
  let (year, rest) ← fixedDigits? 4 text
  let rest ← after? '-' rest
  let (month, rest) ← fixedDigits? 2 rest
  let rest ← after? '-' rest
  let (day, rest) ← fixedDigits? 2 rest
  if 1 ≤ month && month ≤ 12 && 1 ≤ day && day ≤ 31 then some ((year, month, day), rest) else none

def hourMinute? (text : List Char) : Option (List Char) := do
  let (hour, rest) ← fixedDigits? 2 text
  let rest ← after? ':' rest
  let (minute, rest) ← fixedDigits? 2 rest
  if hour ≤ 23 && minute ≤ 59 then some rest else none

def time? (text : List Char) : Option (List Char) := do
  let rest ← hourMinute? text
  let rest ← after? ':' rest
  let (second, rest) ← fixedDigits? 2 rest
  if 59 < second then none
  else
    match rest with
    | '.' :: c :: more => if c.isDigit then some (more.dropWhile Char.isDigit) else some rest
    | _ => some rest

def skipZone (text : List Char) : List Char :=
  match text with
  | c :: rest =>
    if c == 'Z' || c == 'z' then rest
    else if c == '+' || c == '-' then (hourMinute? rest).getD text
    else text
  | [] => []

/-- A date, a date with a time, or a time; the answer is an error if the date names no day. -/
def moment? (text : List Char) : Option (Read Data) :=
  let upTo (type : String) (rest : List Char) : Read Data :=
    .ok (.other type (String.ofList (text.take (text.length - rest.length))), rest)
  match date? text with
  | some ((year, month, day), rest) =>
    if !(Day.mk year month day).isValid then some (.error .malformed)
    else
      match rest with
      | mark :: more =>
        match if mark == 'T' || mark == 't' || mark == ' ' then time? more else none with
        | some rest => some (upTo "datetime" (skipZone rest))
        | none => some (upTo "date" rest)
      | [] => some (upTo "date" [])
  | none => (time? text).map (upTo "time")

end CodeCensus.Toml
