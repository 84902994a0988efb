import CodeCensus.Proofs.Document.Json
import CodeCensus.Proofs.Lookup

/-! JSON as it is written, with all its spellings of texts and numbers and with any layout, and what it stands for. Every
text can be written, and tables of what can be written. -/

namespace CodeCensus

namespace Json

/-! ## Layout -/

def isLayout (c : Char) : Bool := c == ' ' || c == '\t' || c == '\n' || c == '\r'

/-- Blanks between the parts of a document. -/
abbrev Layout := { blanks : List Char // ∀ c ∈ blanks, isLayout c = true }

/-! ## Texts -/

def shortEscapes : List (Char × Char) := [
  ('"', '"'), ('\\', '\\'), ('/', '/'), ('b', '\x08'), ('f', '\x0c'), ('n', '\n'), ('r', '\r'), ('t', '\t')]

/-- A code unit of a text: a character as it is, a letter for it, or four hexadecimal digits. -/
inductive Piece
  | plain (c : Char) (printable : 0x20 ≤ c.toNat) (ne_quote : c ≠ '"') (ne_backslash : c ≠ '\\')
  | escape (letter c : Char) (mem : (letter, c) ∈ shortEscapes)
  | unit (a b c d : Char) (hex : [a, b, c, d].all isHexDigit = true)

def Piece.text : Piece → List Char
  | plain c _ _ _ => [c]
  | escape letter _ _ => ['\\', letter]
  | unit a b c d _ => ['\\', 'u', a, b, c, d]

def Piece.code : Piece → Nat
  | plain c _ _ _ => c.toNat
  | escape _ c _ => c.toNat
  | unit a b c d _ => ofDigits 16 [a, b, c, d]

/-- Code points from code units: a high half and a low half right behind it are one. -/
def joinPairs : List Nat → List Nat
  | high :: low :: rest =>
    if isHighHalf high && isLowHalf low then joinHalves high low :: joinPairs rest
    else high :: joinPairs (low :: rest)
  | codes => codes

theorem joinPairs_cons {n : Nat} (h : isHighHalf n = false) (codes : List Nat) :
    joinPairs (n :: codes) = n :: joinPairs codes := by
  cases codes with
  | nil => rfl
  | cons low rest => rw [joinPairs, h, Bool.false_and, if_neg Bool.false_ne_true]

/-- A text between quotation marks. -/
structure Quoted where
  pieces : List Piece

def Quoted.text (q : Quoted) : List Char := '"' :: (q.pieces.flatMap Piece.text ++ ['"'])

def Quoted.codes (q : Quoted) : List Nat := joinPairs (q.pieces.map Piece.code)

/-! ## Numbers -/

abbrev Digits := { digits : List Char // digits ≠ [] ∧ ∀ c ∈ digits, c.isDigit = true }

/-- A power of ten. -/
structure Power where
  letter : Char
  letter_mem : letter = 'e' ∨ letter = 'E'
  sign : List Char
  sign_mem : sign ∈ [[], ['-'], ['+']]
  digits : Digits

def Power.text (p : Power) : List Char := p.letter :: (p.sign ++ p.digits.1)

def Power.value (p : Power) : Int := Double.signed (p.sign == ['-']) (ofDigits 10 p.digits.1)

structure Numeral where
  negative : Bool
  whole : Digits
  /-- No zero stands in front of another digit. -/
  front : whole.1.head? = some '0' → whole.1 = ['0']
  places : Option Digits
  power : Option Power

namespace Numeral

def sign (n : Numeral) : List Char := if n.negative then ['-'] else []

def placeDigits (n : Numeral) : List Char := (n.places.map Subtype.val).getD []

def placesText (n : Numeral) : List Char := (n.places.map fun digits => '.' :: digits.1).getD []

def powerText (n : Numeral) : List Char := (n.power.map Power.text).getD []

def text (n : Numeral) : List Char := n.sign ++ (n.whole.1 ++ (n.placesText ++ n.powerText))

def isInteger (n : Numeral) : Bool := n.places.isNone && n.power.isNone

def value (n : Numeral) : Data :=
  if n.isInteger then .int (Double.signed n.negative (ofDigits 10 n.whole.1))
  else
    .float (Double.ofDecimal n.negative (ofDigits 10 (n.whole.1 ++ n.placeDigits))
      ((n.power.map Power.value).getD 0 - n.placeDigits.length))

/-- A number is read unless it is an integer with too many digits. -/
def Fits (n : Numeral) : Prop := n.isInteger = true → n.whole.1.length ≤ Fault.maxDigits

end Numeral

/-! ## Values -/

mutual

inductive Tree
  | null
  | bool (b : Bool)
  | nan
  | infinity (negative : Bool)
  | number (n : Numeral)
  | quoted (q : Quoted)
  | emptyList (gap : Layout)
  | list (before : Layout) (items : Items)
  | emptyTable (gap : Layout)
  | table (before : Layout) (members : Members)

/-- The items of a list, up to its end. -/
inductive Items
  | last (item : Tree) (after : Layout)
  | more (item : Tree) (after before : Layout) (rest : Items)

/-- The members of a table, up to its end. -/
inductive Members
  | last (key : Quoted) (afterKey before : Layout) (item : Tree) (after : Layout)
  | more (key : Quoted) (afterKey before : Layout) (item : Tree) (after between : Layout) (rest : Members)

end

mutual

def Tree.text : Tree → List Char
  | .null => "null".toList
  | .bool b => if b then "true".toList else "false".toList
  | .nan => "NaN".toList
  | .infinity negative => if negative then "-Infinity".toList else "Infinity".toList
  | .number n => n.text
  | .quoted q => q.text
  | .emptyList gap => '[' :: (gap.1 ++ [']'])
  | .list before items => '[' :: (before.1 ++ items.text)
  | .emptyTable gap => '{' :: (gap.1 ++ ['}'])
  | .table before members => '{' :: (before.1 ++ members.text)

def Items.text : Items → List Char
  | .last item after => item.text ++ (after.1 ++ [']'])
  | .more item after before rest => item.text ++ (after.1 ++ ',' :: (before.1 ++ rest.text))

def Members.text : Members → List Char
  | .last key afterKey before item after =>
    key.text ++ (afterKey.1 ++ ':' :: (before.1 ++ (item.text ++ (after.1 ++ ['}']))))
  | .more key afterKey before item after between rest =>
    key.text ++ (afterKey.1 ++ ':' :: (before.1 ++ (item.text ++ (after.1 ++ ',' :: (between.1 ++ rest.text)))))

end

mutual

def Tree.value : Tree → Data
  | .null => .null
  | .bool b => .bool b
  | .nan => .float .nan
  | .infinity negative => .float (.infinite negative)
  | .number n => n.value
  | .quoted q => ofCodes q.codes
  | .emptyList _ => .list []
  | .list _ items => .list items.values
  | .emptyTable _ => .table []
  | .table _ members => .table (Data.collect members.entries)

def Items.values : Items → List Data
  | .last item _ => [item.value]
  | .more item _ _ rest => item.value :: rest.values

def Members.entries : Members → List (Data × Data)
  | .last key _ _ item _ => [(ofCodes key.codes, item.value)]
  | .more key _ _ item _ _ rest => (ofCodes key.codes, item.value) :: rest.entries

end

mutual

/-- A value nests no deeper than is read, and no integer in it has too many digits. -/
def Tree.Fits : Nat → Tree → Prop
  | _, .number n => n.Fits
  | depth, .emptyList _ => 0 < depth
  | 0, .list _ _ => False
  | depth + 1, .list _ items => items.Fits depth
  | depth, .emptyTable _ => 0 < depth
  | 0, .table _ _ => False
  | depth + 1, .table _ members => members.Fits depth
  | _, _ => True

def Items.Fits : Nat → Items → Prop
  | depth, .last item _ => item.Fits depth
  | depth, .more item _ _ rest => item.Fits depth ∧ rest.Fits depth

def Members.Fits : Nat → Members → Prop
  | depth, .last _ _ _ item _ => item.Fits depth
  | depth, .more _ _ _ item _ _ rest => item.Fits depth ∧ rest.Fits depth

end

structure Document where
  before : Layout
  tree : Tree
  after : Layout

namespace Document

def text (d : Document) : List Char := d.before.1 ++ (d.tree.text ++ d.after.1)

def value (d : Document) : Data := d.tree.value

def Fits (d : Document) : Prop := d.tree.Fits Fault.maxNesting

end Document

/-! ## Writing texts and tables -/

/-- A character as it is, or with a backslash where it must have one. -/
def Piece.ofChar (c : Char) : Piece :=
  if hquote : c = '"' then .escape '"' '"' (by decide)
  else if hbackslash : c = '\\' then .escape '\\' '\\' (by decide)
  else if hprintable : 0x20 ≤ c.toNat then .plain c hprintable hquote hbackslash
  else .unit '0' '0' (Nat.digitChar (c.toNat / 16)) (Nat.digitChar (c.toNat % 16)) (by
    have hcontrol : ∀ n < 0x20,
        ['0', '0', Nat.digitChar (n / 16), Nat.digitChar (n % 16)].all isHexDigit = true := by
      decide
    exact hcontrol c.toNat (Nat.not_le.mp hprintable))

theorem Piece.code_ofChar (c : Char) : (ofChar c).code = c.toNat := by
  have hcontrol : ∀ n < 0x20, ofDigits 16 ['0', '0', Nat.digitChar (n / 16), Nat.digitChar (n % 16)] = n := by
    decide
  unfold ofChar
  split
  · rename_i hquote
    rw [hquote]
    rfl
  · split
    · rename_i hbackslash
      rw [hbackslash]
      rfl
    · split
      · rfl
      · rename_i hprintable
        exact hcontrol c.toNat (Nat.not_le.mp hprintable)

def Quoted.ofString (s : String) : Quoted := ⟨s.toList.map Piece.ofChar⟩

theorem Quoted.codes_ofString (s : String) : (ofString s).codes = s.toList.map Char.toNat := by
  rw [codes, ofString, List.map_map]
  have hcode : Piece.code ∘ Piece.ofChar = Char.toNat := funext Piece.code_ofChar
  rw [hcode]
  induction s.toList with
  | nil => rfl
  | cons c rest ih =>
    have hhigh : isHighHalf c.toNat = false := (Bool.or_eq_false_iff.mp (isHalf_toNat c)).1
    rw [List.map_cons, joinPairs_cons hhigh, ih]

theorem Quoted.ofCodes_ofString (s : String) : ofCodes (ofString s).codes = .text s := by
  have hany : ((s.toList.map Char.toNat).any fun n => isHighHalf n || isLowHalf n) = false := by
    rw [List.any_eq_false]
    intro n hn
    obtain ⟨c, -, rfl⟩ := List.mem_map.mp hn
    exact Bool.eq_false_iff.mp (isHalf_toNat c)
  have hchars : (s.toList.map Char.toNat).map Char.ofNat = s.toList := by
    rw [List.map_map]
    exact List.map_id'' Char.ofNat_toNat _
  rw [codes_ofString, ofCodes, hany, hchars, String.ofList_toList]
  rfl

def Tree.ofString (s : String) : Tree := .quoted (.ofString s)

theorem Tree.value_ofString (s : String) : (ofString s).value = .text s := Quoted.ofCodes_ofString s

def noGap : Layout := ⟨[], List.forall_mem_nil _⟩

def space : Layout := ⟨[' '], List.forall_mem_singleton.mpr rfl⟩

def Members.ofFields (field : String × Tree) : List (String × Tree) → Members
  | [] => .last (.ofString field.1) noGap space field.2 noGap
  | next :: rest => .more (.ofString field.1) noGap space field.2 noGap space (ofFields next rest)

/-- A table on one line. -/
def Tree.ofFields : List (String × Tree) → Tree
  | [] => .emptyTable noGap
  | field :: rest => .table noGap (.ofFields field rest)

theorem Members.entries_ofFields (field : String × Tree) (rest : List (String × Tree)) :
    (ofFields field rest).entries = (field :: rest).map fun field => (.text field.1, field.2.value) := by
  induction rest generalizing field with
  | nil => rw [ofFields, entries, Quoted.ofCodes_ofString, List.map_singleton]
  | cons next rest ih => rw [ofFields, entries, Quoted.ofCodes_ofString, ih, List.map_cons (l := next :: rest)]

theorem Members.fits_ofFields {depth : Nat} (field : String × Tree) (rest : List (String × Tree)) :
    (ofFields field rest).Fits depth ↔ ∀ f ∈ field :: rest, f.2.Fits depth := by
  induction rest generalizing field with
  | nil => rw [ofFields, Fits, List.forall_mem_singleton]
  | cons next rest ih => rw [ofFields, Fits, ih, List.forall_mem_cons (l := next :: rest)]

namespace Tree

variable {fields : List (String × Tree)}

theorem value_ofFields (h : (fields.map Prod.fst).Nodup) :
    (ofFields fields).value = Data.record (fields.map fun field => (field.1, field.2.value)) := by
  cases fields with
  | nil => rfl
  | cons field rest =>
    have hnodup : (((field :: rest).map fun field => (field.1, field.2.value)).map Prod.fst).Nodup := by
      rw [List.map_map]
      exact h
    have hcollect := Data.collect_of_nodup hnodup
    rw [List.map_map] at hcollect
    rw [ofFields, value, Members.entries_ofFields]
    exact congrArg Data.table (hcollect.trans (List.map_map ..).symm)

theorem get?_ofFields (fields : List (String × Tree)) (h : (fields.map Prod.fst).Nodup) (key : String) :
    (ofFields fields).value.get? key = (fields.lookup key).map Tree.value := by
  rw [value_ofFields h, Data.get?_record, lookup_map_snd]

theorem fits_ofFields {depth : Nat} : (ofFields fields).Fits (depth + 1) ↔ ∀ field ∈ fields, field.2.Fits depth := by
  cases fields with
  | nil => exact iff_of_true (Nat.succ_pos depth) (by simp)
  | cons field rest => exact Members.fits_ofFields field rest

end Tree

end Json

end CodeCensus
