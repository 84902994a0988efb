import CodeCensus.Calendar
import CodeCensus.Number.Text

/-! Values of documents: what a JSON, TOML or YAML text stands for, and what options and records are read
from. A table keeps the order in which its keys first appeared. -/

namespace CodeCensus

inductive Knot where
  | list
  | table
  deriving DecidableEq, Repr

inductive Data where
  | null
  | bool (b : Bool)
  | int (n : Int)
  | float (x : Double)
  | text (s : String)
  /-- A text with code points that no character has: halves of surrogate pairs. -/
  | broken (codes : List Nat)
  | bytes (content : List UInt8)
  | moment (m : Moment)
  /-- A value of another type, known by the name of the type and a text. -/
  | other (type text : String)
  | list (items : List Data)
  | pair (key value : Data)
  | set (items : List Data)
  | table (entries : List (Data × Data))
  | knot (kind : Knot)

namespace Data

instance : Inhabited Data := ⟨.null⟩

def emptyTable : Data := .table []

def ofCodes (codes : List Nat) : Data :=
  if codes.all fun n => n.isValidChar then .text (String.ofList (codes.map Char.ofNat)) else .broken codes

def texts (items : List String) : Data := .list (items.map .text)

def record (fields : List (String × Data)) : Data :=
  .table (fields.map fun (key, value) => (.text key, value))

/-- A number as an exact value, for keys: truth values count as one and zero, and a float that is an
integer counts as that integer. What is no number is a key like any other. -/
def keyNumber? : Data → Option (Int ⊕ Double)
  | .bool b => some (.inl (if b then 1 else 0))
  | .int n => some (.inl n)
  | .float x =>
    match x.toInt? with
    | some n => some (.inl n)
    | none => some (.inr x)
  | _ => none

def sameKey : Data → Data → Bool
  | .text a, .text b => a == b
  | .null, .null => true
  | .broken a, .broken b => a == b
  | .bytes a, .bytes b => a == b
  | .moment a, .moment b => a.same b
  | .other type a, .other type' b => type == type' && a == b
  | a, b =>
    match a.keyNumber?, b.keyNumber? with
    | some (.inl m), some (.inl n) => m == n
    | some (.inr x), some (.inr y) => x == y
    | _, _ => false

def find? {α : Type} (key : Data) : List (Data × α) → Option α
  | [] => none
  | (k, v) :: rest => if sameKey k key then some v else find? key rest

def put {α : Type} (key : Data) (value : α) : List (Data × α) → List (Data × α)
  -- in place if the key is there, else at the end
  | [] => [(key, value)]
  | (k, v) :: rest => if sameKey k key then (k, value) :: rest else (k, v) :: put key value rest

/-- Entries in the order in which their keys first appear, each with its last value. -/
def collect {α : Type} (entries : List (Data × α)) : List (Data × α) :=
  entries.foldl (fun done (key, value) => put key value done) []

def get? (key : String) : Data → Option Data
  | .table entries => find? (.text key) entries
  | _ => none

def text? : Data → Option String
  | .text s => some s
  | _ => none

def table? : Data → Option (List (Data × Data))
  | .table entries => some entries
  | _ => none

def items? : Data → Option (List Data)
  | .list items => some items
  | .set items => some items
  | .pair key value => some [key, value]
  | _ => none

/-- Whether a value counts as a yes: it is neither missing, nor false, nor zero, nor empty. -/
def isTruthy : Data → Bool
  | .null => false
  | .bool b => b
  | .int n => n != 0
  | .float x => !x.isZero
  | .text s => s != ""
  | .broken codes => !codes.isEmpty
  | .bytes content => !content.isEmpty
  | .moment _ => true
  | .other _ _ => true
  | .list items => !items.isEmpty
  | .pair _ _ => true
  | .set items => !items.isEmpty
  | .table entries => !entries.isEmpty
  | .knot _ => true

end Data

end CodeCensus
