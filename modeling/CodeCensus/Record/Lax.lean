import CodeCensus.Data
import CodeCensus.Number.Written
import CodeCensus.Text.Utf8

/-! Lenient reading of single values. A number may be given as a number of another kind or as a text, as long
as nothing is lost; a text may be given as its bytes, a list as other collections of its items. -/

namespace CodeCensus.Lax

abbrev Reader (α : Type) := Data → Option α

def written? : Data → Option (List Char)
  | .text s => some s.toList
  | .bytes content => Text.Utf8.decode? content
  | _ => none

def text : Reader String := fun d => (written? d).map String.ofList

/-! ## Integers from texts -/

/-- A text without its underscores. There has to be one, none at either end, and no two together. -/
def ungrouped? (text : List Char) : Option (List Char) :=
  let parts := Text.fields '_' text
  if parts.length == 1 || parts.any List.isEmpty then none else some parts.flatten

def dropPlus? : List Char → Option (List Char)
  -- no minus sign may follow a plus sign
  | '+' :: '-' :: _ => none
  | '+' :: rest => some rest
  | text => some text

/-- What follows zeros, which may be mixed with underscores, where `last` is the one before: the rest from the
first other digit or a minus sign on, or from the last of them if a point or nothing follows. -/
def dropZeros? (last : Char) : List Char → Option (List Char)
  | [] => some [last]
  | c :: rest =>
    if c == '0' || c == '_' then dropZeros? c rest
    else if c.isDigit || c == '-' then some (c :: rest)
    else if c == '.' then some (last :: c :: rest)
    else none

/-- A text without the zeros at its front, which begins with a digit or a minus sign. -/
def dropLeadingZeros? : List Char → Option (List Char)
  | [] => none
  | c :: rest =>
    if c == '0' then dropZeros? c rest
    else if c.isDigit || c == '-' then some (c :: rest)
    else none

def dropFraction? (text : List Char) : Option (List Char) :=
  match Text.cutFirst ['.'] text with
  | none => some text
  | some (whole, places) => if !places.isEmpty && places.all (· == '0') then some whole else none

/-- The integer that digits write after a minus sign or none. One that does not fit into 64 bits is limited in
length. -/
def intOfDigits? (text : List Char) : Option Int :=
  let (negative, digits) := match text with
    | '-' :: digits => (true, digits)
    | digits => (false, digits)
  let counting := digits.dropWhile (· == '0')
  if digits.isEmpty || !digits.all Char.isDigit || (19 < counting.length && Fault.maxDigits < text.length) then
    none
  else
    let n := Double.signed negative (ofDigits 10 counting)
    if (-Int.pow 2 63 ≤ n && n < Int.pow 2 63) || text.length ≤ Fault.maxDigits then some n else none

/-- The integer that a text writes: white space around it, a plus or minus sign, zeros that do not count, digits
with single underscores between them, and a fraction of zeros. -/
def intOfText (s : List Char) : Option Int := do
  let text ← dropPlus? (Text.trimBy Text.isWhiteSpace s)
  let text ← dropFraction? (← dropLeadingZeros? text)
  intOfDigits? ((ungrouped? text).getD text)

/-! ## Numbers -/

def intOfDouble (x : Double) : Option Int :=
  x.toInt?.bind fun n => if -Int.pow 2 63 < n && n < Int.pow 2 63 then some n else none

def int : Reader Int
  | .int n => some n
  | .bool b => some (if b then 1 else 0)
  | .float x => intOfDouble x
  | d => (written? d).bind intOfText

def natAtLeast (least : Nat) : Reader { n : Nat // least ≤ n } := fun d =>
  (int d).bind fun n => if h : (least : Int) ≤ n then some ⟨n.toNat, by omega⟩ else none

def natFrom (least : Nat) : Reader Nat := fun d => (natAtLeast least d).map Subtype.val

/-- The number that a text writes: white space around it, or single underscores within it but no white space; a
sign, digits, a point and an exponent, or a word for an infinite number or none. -/
def doubleOfText (s : List Char) : Option Double :=
  (Written.plainDouble? (Text.trimBy Text.isWhiteSpace s)).orElse fun _ =>
    (ungrouped? s).bind Written.plainDouble?

def double : Reader Double
  | .int n => Double.ofInt? n
  | .bool b => some (.ofInt (if b then 1 else 0))
  | .float x => some x
  | d => (written? d).bind doubleOfText

def nonNegativeDouble : Reader Double := fun d =>
  (double d).bind fun x => if x.nonNegative then some x else none

def list {α : Type} (item : Reader α) : Reader (List α) := fun d => d.items?.bind fun items => items.mapM item

/-- Sets the value of a name: in place if the name is there, else at the end. -/
def assign {α : Type} (name : String) (value : α) : List (String × α) → List (String × α)
  | [] => [(name, value)]
  | (other, old) :: rest =>
    if other = name then (other, value) :: rest else (other, old) :: assign name value rest

/-- Entries one after the other. Where two keys are read as one name, the later value stays. -/
def table {α : Type} (value : Reader α) : Reader (List (String × α))
  | .table entries => do
    let read ← entries.mapM fun (k, v) => do
      let name ← text k
      let v ← value v
      return (name, v)
    return read.foldl (fun named (name, v) => assign name v named) []
  | _ => none

def nullable {α : Type} (value : Reader α) : Reader (Option α)
  | .null => some none
  | d => (value d).map some

def word {α : Type} (words : List (String × α)) : Reader α := fun d =>
  d.text?.bind fun s => words.lookup s

/-- The entry of a table under either of two spellings of a key; the first spelling wins. -/
def entry (key other : String) (d : Data) : Option Data :=
  (d.get? key).orElse fun _ => d.get? other

def required {α : Type} (value : Reader α) (key other : String) : Reader α := fun d =>
  (entry key other d).bind value

def optional {α : Type} (value : Reader α) (missing : α) (key other : String) : Reader α := fun d =>
  match entry key other d with
  | none => some missing
  | some v => value v

end CodeCensus.Lax
