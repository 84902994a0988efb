import CodeCensus.Files.Glob
import CodeCensus.Text.Trim

/-! Ignore files: one rule a line, each a glob over the paths below the directory of the file. If some rule is
negated, the last rule that matches decides; else any rule that matches does. -/

namespace CodeCensus.Files

open Pattern Text

inductive IgnorePart where
  | star
  | directories
  | anything
  | one
  | slash
  | set (s : CharSet)
  | char (c : Char)
  deriving DecidableEq, Repr

structure IgnoreRule where
  negated : Bool
  directoryOnly : Bool
  anchored : Bool
  parts : List IgnorePart
  deriving DecidableEq, Repr

inductive IgnoreFault where
  | emptyRule
  | badRange (low high : Char) (position : Nat)
  | openSet (position : Nat)
  deriving DecidableEq, Repr

namespace IgnorePart

def setOf? (body : List Char) : Option CharSet :=
  -- slashes never end up in a set
  match body.filter fun c => c != '/' with
  | [] => none
  | '!' :: rest => some ⟨true, CharSet.rangesOf rest⟩
  | rest => some ⟨false, CharSet.rangesOf rest⟩

/-- The pieces of a glob. A bracket that is never closed stands for itself; a set without characters leaves
nothing of the rule. -/
def ofGlob? (glob : List Char) : Option (List IgnorePart) :=
  match glob with
  | [] => some []
  | '*' :: '*' :: '/' :: rest => (ofGlob? rest).map (directories :: ·)
  | '*' :: '*' :: rest => (ofGlob? rest).map (anything :: ·)
  | '*' :: rest => (ofGlob? rest).map (star :: ·)
  | '?' :: rest => (ofGlob? rest).map (one :: ·)
  | '/' :: rest => (ofGlob? rest).map (slash :: ·)
  | '[' :: rest =>
    match h : CharSet.bracketed? rest with
    | none => (ofGlob? rest).map (char '[' :: ·)
    | some (body, after) =>
      have := CharSet.length_of_bracketed? h
      match setOf? body with
      | none => none
      | some s => (ofGlob? after).map (set s :: ·)
  | c :: rest => (ofGlob? rest).map (char c :: ·)
termination_by glob.length
decreasing_by
  all_goals simp_wf
  all_goals omega

def pattern : IgnorePart → Pattern
  | .star => .run (beyond ['/'])
  | .directories => opt (inOrder [.run (beyond ['\n']), "/"])
  | .anything => .run (beyond ['\n'])
  | .one => .one (beyond ['/'])
  | .slash => "/"
  | .set s => .one s.contains
  | .char c => .one (· == c)

end IgnorePart

namespace IgnoreRule

/-- The stars that a run of them stands for: two if it fills the space between two slashes, else one. -/
def starsFor (count : Nat) (afterSlash beforeSlash : Bool) : List Char :=
  if count == 0 then []
  else if 2 ≤ count && afterSlash && beforeSlash then ['*', '*']
  else ['*']

def reduceStars (afterSlash : Bool) (count : Nat) : List Char → List Char
  -- the ends of the glob count as slashes
  | [] => starsFor count afterSlash true
  | '*' :: rest => reduceStars afterSlash (count + 1) rest
  | c :: rest =>
    let here := starsFor count afterSlash (c == '/')
    here ++ c :: reduceStars (c == '/') 0 rest

/-- Drops the spaces at the end of a glob, given from its end. An escaped one stays without its backslash, and
so does every space before it; the first two characters are left alone. -/
def dropSpaces (drop : Bool) (kept : List Char) : List Char → List Char
  | ' ' :: '\\' :: c :: rest => dropSpaces false (' ' :: kept) (c :: rest)
  | ' ' :: d :: c :: rest => dropSpaces drop (if drop then kept else ' ' :: kept) (d :: c :: rest)
  | rest => rest.reverse ++ kept

def withoutSlash : List Char → List Char
  | '/' :: rest => rest
  | glob => glob

def withoutStars : List Char → Bool × List Char
  | '*' :: '*' :: rest => (true, rest)
  | glob => (false, glob)

def unescaped? : List Char → Option (List Char)
  | ['\\'] => none
  | '\\' :: '#' :: rest => some ('#' :: rest)
  | '\\' :: '!' :: rest => some ('!' :: rest)
  | glob => some glob

/-- The glob of a rule without the marks around it, and whether it is about paths from the top only; `none` if
nothing is left at some point. -/
def core? (glob : List Char) : Option (Bool × List Char) := do
  let anchored := glob.dropLast.contains '/'
  let (floating, glob) := withoutStars (withoutSlash glob)
  if glob.isEmpty then none
  let glob := withoutSlash glob
  let last ← glob.getLast?
  let glob := if last == '/' then glob.dropLast else glob
  if glob.isEmpty then none
  let glob ← unescaped? glob
  return (anchored && !floating, dropSpaces true [] glob.reverse)

def ofLine (line : List Char) : Except IgnoreFault (Option IgnoreRule) :=
  if (trim line).isEmpty || line.head? == some '#' then .ok none
  else
    let negated := line.head? == some '!'
    let glob := reduceStars true 0 (if negated then line.drop 1 else line)
    if trimEndBy isBlank glob == ['/'] then .ok none
    else
      let rule := do
        let (anchored, core) ← core? glob
        let parts ← IgnorePart.ofGlob? core
        return {
          negated := negated
          directoryOnly := glob.getLast? == some '/'
          anchored := anchored
          parts := parts }
      match rule with
      | some rule => .ok (some rule)
      | none => .error .emptyRule

def pattern (r : IgnoreRule) : Pattern :=
  let start : Pattern := if r.anchored then .edge .textStart else oneOf [.edge .textStart, "/"]
  let stop : Pattern :=
    if !r.directoryOnly then .edge .lastLineEnd
    else if r.negated then inOrder ["/", .edge .lastLineEnd]
    else oneOf [.edge .lastLineEnd, "/"]
  inOrder (start :: r.parts.map IgnorePart.pattern ++ [stop])

/-! ## Sets that cannot be used -/

def charWidth (c : Char) : Nat := if c == '\\' then 2 else 1

def rangeWidth : Char × Char → Nat
  | (low, high) => if low == high then charWidth low else charWidth low + 1 + charWidth high

def rangeFault? (position : Nat) : List (Char × Char) → Option IgnoreFault
  | [] => none
  | (low, high) :: rest =>
    if high < low then some (.badRange low high position)
    else rangeFault? (position + rangeWidth (low, high)) rest

def setFault? (position : Nat) (s : CharSet) : Option IgnoreFault :=
  if s.negated && s.ranges.isEmpty then some (.openSet position)
  else rangeFault? (position + 1 + s.negated.toNat) s.ranges

def escapedChars : List Char := "()[]\x7b\x7d?*+-|^$\\.&~# \t\n\r\x0b\x0c".toList

def partWidth : IgnorePart → Nat
  | .star => 5
  | .directories => 8
  | .anything => 2
  | .one => 4
  | .slash => 3
  | .set s => 2 + s.negated.toNat + (s.ranges.map rangeWidth).foldr (· + ·) 0
  | .char c => if escapedChars.contains c then 2 else 1

/-- The first set of pieces written from a position on that cannot be used, and why. -/
def partsFault? (position : Nat) : List IgnorePart → Option IgnoreFault
  | [] => none
  | part :: rest =>
    (match part with
      | .set s => setFault? position s
      | _ => none).orElse fun _ => partsFault? (position + partWidth part) rest

def fault? (r : IgnoreRule) : Option IgnoreFault := partsFault? (if r.anchored then 1 else 7) r.parts

def fits (r : IgnoreRule) (path : String) : Except IgnoreFault Bool :=
  match r.fault? with
  | some f => .error f
  | none => .ok (r.pattern.foundIn path.toList)

end IgnoreRule

structure IgnoreFile where
  rules : List IgnoreRule
  deriving DecidableEq, Repr

namespace IgnoreFile

def empty : IgnoreFile := ⟨[]⟩

def ofText (text : List Char) : Except IgnoreFault IgnoreFile := do
  let rules ← (fields '\n' text).mapM IgnoreRule.ofLine
  return ⟨rules.filterMap id⟩

def firstVerdict (path : String) : List IgnoreRule → Except IgnoreFault Bool
  | [] => .ok false
  | rule :: rest => do
    if ← rule.fits path then return !rule.negated
    firstVerdict path rest

def ignores (f : IgnoreFile) (path : String) : Except IgnoreFault Bool :=
  firstVerdict path (if f.rules.any IgnoreRule.negated then f.rules.reverse else f.rules)

end IgnoreFile

def IgnoreFault.message : IgnoreFault → String
  | .emptyRule => "string index out of range"
  | .badRange low high position =>
    "bad character range " ++ shownChar low ++ "-" ++ shownChar high ++ " at position " ++ toString position
  | .openSet position => "unterminated character set at position " ++ toString position
where
  shownChar (c : Char) : String := if c == '\\' then "\\\\" else String.singleton c

end CodeCensus.Files
