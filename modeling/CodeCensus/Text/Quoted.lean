import CodeCensus.Data
import CodeCensus.Text.Class

/-! Values as messages quote them: texts between quotes with escapes, lists in brackets, tables in braces. -/

namespace CodeCensus

namespace Text.Quoted

def hex (width n : Nat) : List Char :=
  let digits := Nat.toDigits 16 n
  List.replicate (width - digits.length) '0' ++ digits

def numeric (n : Nat) : List Char :=
  if n < 0x100 then '\\' :: 'x' :: hex 2 n
  else if n < 0x10000 then '\\' :: 'u' :: hex 4 n
  else '\\' :: 'U' :: hex 8 n

def isShown (n : Nat) : Bool := n.isValidChar && isPrintable (Char.ofNat n)

def escape (quote : Char) (n : Nat) : List Char :=
  if n == quote.toNat || n == '\\'.toNat then ['\\', Char.ofNat n]
  else if n == 9 then ['\\', 't']
  else if n == 10 then ['\\', 'n']
  else if n == 13 then ['\\', 'r']
  else if isShown n then [Char.ofNat n]
  else numeric n

/-- The quote around code points: a single one, unless they hold single ones and no double one. -/
def quoteFor (codes : List Nat) : Char :=
  if codes.contains '\''.toNat && !codes.contains '"'.toNat then '"' else '\''

def ofCodes (codes : List Nat) : String :=
  let quote := quoteFor codes
  String.ofList (quote :: codes.flatMap (escape quote) ++ [quote])

def ofText (s : String) : String := ofCodes (s.toList.map Char.toNat)

def escapeByte (quote : Char) (n : Nat) : List Char := if n < 128 then escape quote n else numeric n

def ofBytes (bytes : List UInt8) : String :=
  let codes := bytes.map UInt8.toNat
  let quote := quoteFor codes
  String.ofList ('b' :: quote :: codes.flatMap (escapeByte quote) ++ [quote])

end Text.Quoted

namespace Data

open Text

mutual

def shown : Data → String
  | .null => "None"
  | .bool b => if b then "True" else "False"
  | .int n => toString n
  | .float x => x.toText
  | .text s => Quoted.ofText s
  | .broken codes => Quoted.ofCodes codes
  | .bytes content => Quoted.ofBytes content
  | .moment m => m.shown
  | .other _ written => written
  | .list items => "[" ++ shownItems items ++ "]"
  | .pair k v => "(" ++ shown k ++ ", " ++ shown v ++ ")"
  | .set [] => "set()"
  | .set items => "\x7b" ++ shownItems items ++ "\x7d"
  | .table entries => "\x7b" ++ shownEntries entries ++ "\x7d"
  | .knot .list => "[...]"
  | .knot .table => "\x7b...\x7d"

def shownItems : List Data → String
  | [] => ""
  | [item] => shown item
  | item :: rest => shown item ++ ", " ++ shownItems rest

def shownEntries : List (Data × Data) → String
  | [] => ""
  | [(k, v)] => shown k ++ ": " ++ shown v
  | (k, v) :: rest => shown k ++ ": " ++ shown v ++ ", " ++ shownEntries rest

end

/-- The name of a value's type, as messages give it; that of a moment is preceded by its family's. -/
def typeName : Data → String
  | .null => "NoneType"
  | .bool _ => "bool"
  | .int _ => "int"
  | .float _ => "float"
  | .text _ => "str"
  | .broken _ => "str"
  | .bytes _ => "bytes"
  | .moment m => "datetime." ++ m.typeName
  | .other type _ => type
  | .list _ => "list"
  | .pair _ _ => "tuple"
  | .set _ => "set"
  | .table _ => "dict"
  | .knot .list => "list"
  | .knot .table => "dict"

end Data

end CodeCensus
