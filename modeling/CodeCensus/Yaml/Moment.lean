import CodeCensus.Calendar
import CodeCensus.Pattern.Build
import CodeCensus.Pattern.Search
import CodeCensus.Yaml.Spot

/-! Days, and times on them, as texts write them. A time may tell how far its clock is ahead of universal time. -/

namespace CodeCensus.Yaml

open Pattern

def oneDigit : Pattern := .one Char.isDigit

def twoDigits : Pattern := inOrder [oneDigit, oneDigit]

def digitOrTwo : Pattern := inOrder [oneDigit, opt oneDigit]

def fourDigits : Pattern := inOrder [twoDigits, twoDigits]

def gapInLine : Pattern := some1 fun c => c == ' ' || c == '\t'

inductive MomentPart where
  | year
  | month
  | day
  | hour
  | minute
  | second
  | fraction
  | zone
  | zoneSign
  | zoneHour
  | zoneMinute
  deriving DecidableEq, Repr

def MomentPart.number : MomentPart → Nat
  | .year => 1
  | .month => 2
  | .day => 3
  | .hour => 4
  | .minute => 5
  | .second => 6
  | .fraction => 7
  | .zone => 8
  | .zoneSign => 9
  | .zoneHour => 10
  | .zoneMinute => 11

def part (p : MomentPart) (body : Pattern) : Pattern := .group p.number body

def zonePattern : Pattern :=
  part .zone (.alt "Z" (inOrder [part .zoneSign (.one (among ['-', '+'])), part .zoneHour digitOrTwo,
    optional [":", part .zoneMinute twoDigits]]))

def timePattern : Pattern :=
  inOrder [.alt (.one (among ['T', 't'])) gapInLine, part .hour digitOrTwo, ":", part .minute twoDigits, ":",
    part .second twoDigits, optional [".", part .fraction (.run Char.isDigit)],
    optional [.run (among [' ', '\t']), zonePattern]]

def momentPattern (time : Pattern) : Pattern :=
  inOrder [part .year fourDigits, "-", part .month digitOrTwo, "-", part .day digitOrTwo, time,
    .edge .lastLineEnd]

def datePattern : Pattern :=
  inOrder [fourDigits, "-", twoDigits, "-", twoDigits, .edge .lastLineEnd]

def looksLikeMoment (text : List Char) : Bool :=
  let start := Cursor.start text
  (datePattern.here? start).isSome || ((momentPattern timePattern).here? start).isSome

/-! ## Values -/

def numberOf (m : Match) (p : MomentPart) : Nat := ofDigits 10 (m.groupText p.number)

def microsOf (digits : List Char) : Nat :=
  let kept := digits.take 6
  ofDigits 10 (kept ++ List.replicate (6 - kept.length) '0')

def aheadOf (m : Match) : Option Int :=
  match m.groupText MomentPart.zoneSign.number with
  | [] => if (m.groupText MomentPart.zone.number).isEmpty then none else some 0
  | sign :: _ =>
    let minutes : Int := numberOf m .zoneHour * 60 + numberOf m .zoneMinute
    some (if sign == '-' then -minutes else minutes)

def clockOf (m : Match) : Clock where
  hour := numberOf m .hour
  minute := numberOf m .minute
  second := numberOf m .second
  micros := microsOf (m.groupText MomentPart.fraction.number)
  ahead := aheadOf m

def momentOf (text : List Char) : Except Refusal Moment :=
  match (momentPattern (opt timePattern)).here? (Cursor.start text) with
  | none => .error .notDate
  | some m =>
    let day : Day := ⟨numberOf m .year, numberOf m .month, numberOf m .day⟩
    if !day.isValid then .error .badValue
    else if (m.groupText MomentPart.hour.number).isEmpty then .ok (.day day)
    else
      let clock := clockOf m
      if clock.isValid then .ok (.instant day clock) else .error .badValue

end CodeCensus.Yaml
