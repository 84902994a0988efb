/-! Base64, read leniently: characters outside the alphabet count for nothing, and reading stops after the
padding that completes a group of four. -/

namespace CodeCensus.Text.Base64

inductive Refusal where
  | notAscii
  /-- The last group has one character only; `count` are all characters that carry data. -/
  | singleCharacter (count : Nat)
  | padding
  deriving DecidableEq, Repr

def Refusal.message : Refusal → String
  | .notAscii => "string argument should contain only ASCII characters"
  | .singleCharacter count =>
    "Invalid base64-encoded string: number of data characters (" ++ toString count ++
      ") cannot be 1 more than a multiple of 4"
  | .padding => "Incorrect padding"

def value? (c : Char) : Option Nat :=
  let n := c.toNat
  if 'A' ≤ c && c ≤ 'Z' then some (n - 65)
  else if 'a' ≤ c && c ≤ 'z' then some (n - 71)
  else if '0' ≤ c && c ≤ '9' then some (n + 4)
  else if c == '+' then some 62
  else if c == '/' then some 63
  else none

/-- Reads on within a group of four, of which `place` characters have been read; `left` are the bits that have
not gone into a byte, `pads` the padding characters since the last of the group, and `done` the bytes, last
first. -/
def decodeFrom (place left pads : Nat) (done : List UInt8) : List Char → Except Refusal (List UInt8)
  | [] =>
    if place == 0 then .ok done.reverse
    else if place == 1 then .error (.singleCharacter (done.length / 3 * 4 + 1))
    else .error .padding
  | c :: rest =>
    if c == '=' then
      if place < 2 then decodeFrom place left pads done rest
      else if 4 ≤ place + (pads + 1) then .ok done.reverse
      else decodeFrom place left (pads + 1) done rest
    else
      match value? c with
      | none => decodeFrom place left pads done rest
      | some v =>
        match place with
        | 0 => decodeFrom 1 v 0 done rest
        | 1 => decodeFrom 2 (v % 16) 0 (UInt8.ofNat (left * 4 + v / 16) :: done) rest
        | 2 => decodeFrom 3 (v % 4) 0 (UInt8.ofNat (left * 16 + v / 4) :: done) rest
        | _ => decodeFrom 0 0 0 (UInt8.ofNat (left * 64 + v) :: done) rest

def decode (text : List Char) : Except Refusal (List UInt8) :=
  if text.all fun c => c.toNat < 128 then decodeFrom 0 0 0 [] text else .error .notAscii

end CodeCensus.Text.Base64
