/-! The UTF-8 form of texts, and texts as parts of a URL. Reading goes byte by byte: each byte that begins a character
tells how many bytes follow it and within which bounds the next one has to lie. -/

namespace CodeCensus.Text.Utf8

/-- A character that is not yet complete: how many bytes are missing, the bounds of the next one, and the bits
so far. -/
structure Pending where
  missing : Nat
  low : Nat
  high : Nat
  bits : Nat
  deriving DecidableEq, Repr

/-- What a byte that begins a character of several bytes asks for. The bounds shut out characters written
longer than need be, halves of surrogate pairs, and everything beyond the last character. -/
def lead? (b : Nat) : Option Pending :=
  if b < 0xC2 then none
  else if b < 0xE0 then some ⟨1, 0x80, 0xBF, b - 0xC0⟩
  else if b < 0xF0 then
    some ⟨2, if b == 0xE0 then 0xA0 else 0x80, if b == 0xED then 0x9F else 0xBF, b - 0xE0⟩
  else if b < 0xF5 then
    some ⟨3, if b == 0xF0 then 0x90 else 0x80, if b == 0xF4 then 0x8F else 0xBF, b - 0xF0⟩
  else none

/-- What has been read: the characters, last first, with nothing in the place of each maximal run of bytes that
begins a character but does not complete it, and the character begun. -/
structure State where
  done : List (Option Char)
  pending : Option Pending

def State.start (done : List (Option Char)) (b : Nat) : State :=
  if b < 0x80 then ⟨some (Char.ofNat b) :: done, none⟩
  else
    match lead? b with
    | some p => ⟨done, some p⟩
    | none => ⟨none :: done, none⟩

def State.step (s : State) (byte : UInt8) : State :=
  let b := byte.toNat
  match s.pending with
  | none => start s.done b
  | some p =>
    if p.low ≤ b && b ≤ p.high then
      let bits := p.bits * 64 + (b - 0x80)
      if p.missing ≤ 1 then ⟨some (Char.ofNat bits) :: s.done, none⟩
      else ⟨s.done, some ⟨p.missing - 1, 0x80, 0xBF, bits⟩⟩
    else start (none :: s.done) b

def read (bytes : List UInt8) : List (Option Char) :=
  let s := bytes.foldl State.step ⟨[], none⟩
  (if s.pending.isSome then none :: s.done else s.done).reverse

def replacement : Char := '\uFFFD'

def decode (bytes : List UInt8) : List Char := (read bytes).map fun c => c.getD replacement

def decode? (bytes : List UInt8) : Option (List Char) := (read bytes).mapM id

/-! ## Where reading fails -/

inductive Fault where
  | start (byte position : Nat)
  /-- Bytes that begin a character which the next byte does not continue. -/
  | continuation (byte position count : Nat)
  | unfinished (byte count : Nat)
  deriving DecidableEq, Repr

/-- Looks for the first ill-formed run from a position on, where `pending` is the character begun with the byte
`lead`, of which `count` bytes have been read. -/
def faultFrom (position lead count : Nat) (pending : Option Pending) : List UInt8 → Option Fault
  | [] => pending.map fun _ => .unfinished lead count
  | byte :: rest =>
    let b := byte.toNat
    match pending with
    | none =>
      if b < 0x80 then faultFrom (position + 1) 0 0 none rest
      else
        match lead? b with
        | none => some (.start b position)
        | some p => faultFrom (position + 1) b 1 (some p) rest
    | some p =>
      if p.low ≤ b && b ≤ p.high then
        faultFrom (position + 1) lead (count + 1)
          (if p.missing ≤ 1 then none else some ⟨p.missing - 1, 0x80, 0xBF, 0⟩) rest
      else some (.continuation lead (position - count) count)

def fault? (bytes : List UInt8) : Option Fault := faultFrom 0 0 0 none bytes

def bytesMessage (lead position count : Nat) : String :=
  if count == 1 then
    let digits := Nat.toDigits 16 lead
    "byte 0x" ++ String.ofList (List.replicate (2 - digits.length) '0' ++ digits) ++ " in position " ++
      toString position
  else "bytes in position " ++ toString position ++ "-" ++ toString (position + count - 1)

def Fault.message (f : Fault) : String :=
  "'utf-8' codec can't decode " ++
    match f with
    | .start byte position => bytesMessage byte position 1 ++ ": invalid start byte"
    | .continuation byte position count => bytesMessage byte position count ++ ": invalid continuation byte"
    | .unfinished byte count => bytesMessage byte 0 count ++ ": unexpected end of data"

/-! ## Writing -/

def encode (text : List Char) : List UInt8 := text.flatMap String.utf8EncodeChar

end CodeCensus.Text.Utf8

/-! Percent encoding, as parts of a URL are written: each byte of a character that may not stand for itself is
given by two hexadecimal digits. -/

namespace CodeCensus.Text.Percent

def isUnreserved (c : Char) : Bool := c.isAlphanum || ['_', '.', '-', '~'].contains c

def digit (n : Nat) : Char := (Nat.digitChar n).toUpper

def encodeByte (b : UInt8) : List Char := ['%', digit (b.toNat / 16), digit (b.toNat % 16)]

def encodeChar (safe : List Char) (c : Char) : List Char :=
  if isUnreserved c || safe.contains c then [c] else (String.utf8EncodeChar c).flatMap encodeByte

def encode (safe : List Char) (s : String) : String :=
  String.ofList (s.toList.flatMap (encodeChar safe))

end CodeCensus.Text.Percent
