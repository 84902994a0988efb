import CodeCensus.Number.Digits

/-! Days of the calendar and times of the day, and two ways to write them: as people write them, and as a value
that quotes its parts. -/

namespace CodeCensus

def twoPlaces (n : Nat) : String := String.ofList (decimalDigits 2 n)

/-! ## Days -/

structure Day where
  year : Nat
  month : Nat
  day : Nat
  deriving DecidableEq, Repr

namespace Day

def isLeapYear (year : Nat) : Bool := year % 4 == 0 && (year % 100 != 0 || year % 400 == 0)

def daysIn (year month : Nat) : Nat :=
  if month == 2 then if isLeapYear year then 29 else 28
  else if [4, 6, 9, 11].contains month then 30
  else 31

def isValid (d : Day) : Bool :=
  1 ≤ d.year && 1 ≤ d.month && d.month ≤ 12 && 1 ≤ d.day && d.day ≤ daysIn d.year d.month

def number (d : Day) : Nat :=
  let before := d.year - 1
  before * 365 + before / 4 - before / 100 + before / 400 +
    ((List.range (d.month - 1)).map fun m => daysIn d.year (m + 1)).foldr (· + ·) 0 + (d.day - 1)

def text (d : Day) : String :=
  String.ofList (decimalDigits 4 d.year) ++ "-" ++ twoPlaces d.month ++ "-" ++ twoPlaces d.day

def parts (d : Day) : List String := [toString d.year, toString d.month, toString d.day]

end Day

/-! ## Times -/

structure Clock where
  hour : Nat
  minute : Nat
  second : Nat
  micros : Nat
  /-- How many minutes the clock is ahead of universal time, if it tells. -/
  ahead : Option Int
  deriving DecidableEq, Repr

namespace Clock

def isValid (c : Clock) : Bool :=
  c.hour < 24 && c.minute < 60 && c.second < 60 &&
    match c.ahead with
    | none => true
    | some minutes => minutes.natAbs < 24 * 60

def zoneText (minutes : Int) : String :=
  (if minutes < 0 then "-" else "+") ++ twoPlaces (minutes.natAbs / 60) ++ ":" ++
    twoPlaces (minutes.natAbs % 60)

def text (c : Clock) : String :=
  twoPlaces c.hour ++ ":" ++ twoPlaces c.minute ++ ":" ++ twoPlaces c.second ++
    (if c.micros == 0 then "" else "." ++ String.ofList (decimalDigits 6 c.micros)) ++
    (c.ahead.map zoneText).getD ""

/-- The quoted form of what a clock is ahead: days, which may be negative, and the seconds that make up for
them. -/
def zoneShown (minutes : Int) : String :=
  if minutes == 0 then "datetime.timezone.utc"
  else
    let seconds := minutes * 60
    let days := Int.fdiv seconds 86400
    "datetime.timezone(datetime.timedelta(" ++ (if days == 0 then "" else "days=" ++ toString days ++ ", ") ++
      "seconds=" ++ toString (Int.fmod seconds 86400) ++ "))"

/-- The numbers of a time; seconds and millionths are left out where nothing but zeros follows. -/
def parts (c : Clock) : List String :=
  [toString c.hour, toString c.minute] ++
    (if c.second == 0 && c.micros == 0 then [] else [toString c.second]) ++
    (if c.micros == 0 then [] else [toString c.micros]) ++
    (c.ahead.map fun minutes => "tzinfo=" ++ zoneShown minutes).toList

end Clock

/-! ## Moments -/

inductive Moment where
  | day (d : Day)
  | instant (d : Day) (c : Clock)
  deriving DecidableEq, Repr

namespace Moment

def typeName : Moment → String
  | .day _ => "date"
  | .instant _ _ => "datetime"

def text : Moment → String
  | .day d => d.text
  | .instant d c => d.text ++ " " ++ c.text

def shown (m : Moment) : String :=
  let parts := match m with
    | .day d => d.parts
    | .instant d c => d.parts ++ c.parts
  "datetime." ++ m.typeName ++ "(" ++ String.intercalate ", " parts ++ ")"

def reading (d : Day) (c : Clock) : Int :=
  (((d.number * 24 + c.hour) * 60 + c.minute) * 60 + c.second : Nat) * 1000000 + (c.micros : Int)

/-- Whether two moments are the same. Clocks that tell how far they are ahead are compared by universal time; one
that does not tell is never the same as one that does. -/
def same : Moment → Moment → Bool
  | .day a, .day b => a == b
  | .instant a c, .instant b c' =>
    match c.ahead, c'.ahead with
    | none, none => a == b && c == c'
    | some m, some m' => reading a c - m * 60000000 == reading b c' - m' * 60000000
    | _, _ => false
  | _, _ => false

end Moment

end CodeCensus
