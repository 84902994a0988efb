import CodeCensus.Text.Quoted

/-! Writing JSON, on one line or indented by two spaces a level. Characters beyond ASCII are written as they
are. -/

namespace CodeCensus.Json

def fourDigits (n : Nat) : List Char :=
  let digits := Nat.toDigits 16 n
  List.replicate (4 - digits.length) '0' ++ digits

def escape (c : Char) : List Char :=
  match c with
  | '"' => ['\\', '"']
  | '\\' => ['\\', '\\']
  | '\n' => ['\\', 'n']
  | '\r' => ['\\', 'r']
  | '\t' => ['\\', 't']
  | '\x08' => ['\\', 'b']
  | '\x0c' => ['\\', 'f']
  | c => if c.toNat < 0x20 then '\\' :: 'u' :: fourDigits c.toNat else [c]

def quoted (s : String) : String :=
  String.ofList ('"' :: s.toList.flatMap escape ++ ['"'])

def numberText (x : Double) : String :=
  match x with
  | .nan => "null"
  | .infinite _ => "null"
  | x => x.toText

def key : Data → String
  | .text s => quoted s
  | .null => quoted "null"
  | .bool b => quoted (if b then "true" else "false")
  | .int n => quoted (toString n)
  | .float x => quoted x.toText
  | _ => quoted ""

/-- What stands between the items of a list or table: a comma, and in the indented layout a new line. -/
def separator (level : Option Nat) : String :=
  match level with
  | none => ""
  | some n => "\n" ++ String.ofList (List.replicate (2 * n) ' ')

mutual

def write (level : Option Nat) : Data → String
  | .null => "null"
  | .bool b => if b then "true" else "false"
  | .int n => toString n
  | .float x => numberText x
  | .text s => quoted s
  | .broken _ => "null"
  | .bytes content => quoted (Text.Quoted.ofBytes content)
  | .moment m => quoted m.text
  | .other _ text => quoted text
  | .knot _ => "null"
  | .list [] => "[]"
  | .list items =>
    let inner := level.map (· + 1)
    "[" ++ separator inner ++ writeItems inner items ++ separator level ++ "]"
  | .pair k v =>
    let inner := level.map (· + 1)
    "[" ++ separator inner ++ write inner k ++ "," ++ separator inner ++ write inner v ++ separator level ++ "]"
  | .set [] => "[]"
  | .set items =>
    let inner := level.map (· + 1)
    "[" ++ separator inner ++ writeItems inner items ++ separator level ++ "]"
  | .table [] => "\x7b\x7d"
  | .table entries =>
    let inner := level.map (· + 1)
    "\x7b" ++ separator inner ++ writeEntries inner entries ++ separator level ++ "\x7d"

def writeItems (level : Option Nat) : List Data → String
  | [] => ""
  | [item] => write level item
  | item :: rest => write level item ++ "," ++ separator level ++ writeItems level rest

def writeEntries (level : Option Nat) : List (Data × Data) → String
  | [] => ""
  | [(k, v)] => writeEntry level k v
  | (k, v) :: rest => writeEntry level k v ++ "," ++ separator level ++ writeEntries level rest

def writeEntry (level : Option Nat) (k v : Data) : String :=
  key k ++ (if level.isSome then ": " else ":") ++ write level v

end

def compact (v : Data) : String := write none v

def indented (v : Data) : String := write (some 0) v

end CodeCensus.Json
