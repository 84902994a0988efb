import CodeCensus.Text.Lines
import CodeCensus.Text.Utf8
import CodeCensus.Yaml.Spot

/-! How far a file can be read. Its bytes are made characters in chunks, and its characters are taken in portions,
two at the start and then one whenever the next character is wanted. A fault is met when the portion that it stands
in is taken in, and what precedes that portion has been read by then. -/

namespace CodeCensus.Yaml

open Text

def portion : Nat := 4096

def portionStart (index : Nat) : Nat := if index < 2 * portion then 0 else index / portion * portion

/-! ## Chunks of bytes -/

def leastChunk : Nat := 8192

structure Intake where
  /-- How many characters are complete, where line ends count as one. -/
  chars : Nat := 0
  pending : Option Utf8.Pending := none
  holdsReturn : Bool := false
  lastBytes : Nat := 0
  lastChars : Nat := 0

namespace Intake

/-- How many bytes the next chunk has: as many as the rest of the portion may need, going by the last chunk. -/
def chunkSize (i : Intake) : Nat :=
  let wanted := portion - i.chars % portion
  max leastChunk (if i.lastChars == 0 then 0 else i.lastBytes * wanted / i.lastChars)

def take? (i : Intake) (chunk : List UInt8) : Option Intake :=
  let s := chunk.foldl Utf8.State.step ⟨[], i.pending⟩
  (s.done.mapM id).map fun newest =>
    let text := (if i.holdsReturn then ['\r'] else []) ++ newest.reverse
    let holds := text.getLast? == some '\r'
    let count := (unifyLines (if holds then text.dropLast else text)).length
    { chars := i.chars + count
      pending := s.pending
      holdsReturn := holds
      lastBytes := chunk.length
      lastChars := count }

end Intake

def charsBeforeFault (i : Intake) (bytes : List UInt8) : Nat :=
  match _h : bytes with
  | [] => i.chars
  | _ :: _ =>
    match i.take? (bytes.take i.chunkSize) with
    | none => i.chars
    | some next => charsBeforeFault next (bytes.drop i.chunkSize)
termination_by bytes.length
decreasing_by
  have : leastChunk ≤ i.chunkSize := Nat.le_max_left _ _
  simp only [leastChunk] at this
  simp only [_h, List.length_drop, List.length_cons]
  omega

/-! ## Portions of characters -/

def isAllowed (c : Char) : Bool :=
  let n := c.toNat
  n == 0x09 || n == 0x0A || n == 0x0D || (0x20 ≤ n && n ≤ 0x7E) || n == 0x85 || (0xA0 ≤ n && n ≤ 0xD7FF) ||
    (0xE000 ≤ n && n ≤ 0xFFFD) || 0x10000 ≤ n

/-- A text up to the portion that holds a character which may not stand in it, if there is one, and why it ends
there. -/
def allowedPart (text : List Char) (cut : Option Refusal) : List Char × Option Refusal :=
  match text.findIdx? fun c => !isAllowed c with
  | none => (text, cut)
  | some index => (text.take (portionStart index), some .malformed)

def textOf (bytes : List UInt8) : List Char × Option Refusal :=
  let text := unifyLines (Utf8.decode bytes)
  if (Utf8.fault? bytes).isNone then allowedPart text none
  else allowedPart (text.take (portionStart (charsBeforeFault {} bytes))) (some .notText)

end CodeCensus.Yaml
