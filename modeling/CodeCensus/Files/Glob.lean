import CodeCensus.Pattern.Build
import CodeCensus.Pattern.Search

/-! Globs over names: a star stands for any characters, a question mark for one, brackets for one of a set. A
glob has to match the whole name. -/

namespace CodeCensus.Files

/-- A set in brackets: its ranges, and whether it stands for the characters outside them. A range whose ends
are out of order holds nothing. -/
structure CharSet where
  negated : Bool
  ranges : List (Char × Char)
  deriving DecidableEq, Repr

namespace CharSet

def contains (s : CharSet) (c : Char) : Bool :=
  (s.ranges.any fun (low, high) => low ≤ c && c ≤ high) != s.negated

/-- The ranges that characters in brackets name. A hyphen between two of them makes a range. -/
def rangesOf : List Char → List (Char × Char)
  | low :: '-' :: high :: rest => (low, high) :: rangesOf rest
  | c :: rest => (c, c) :: rangesOf rest
  | [] => []

/-- The characters in brackets after the ranges at their front whose ends are out of order. -/
def dropEmpty : List Char → List Char
  | low :: '-' :: high :: rest => if high < low then dropEmpty rest else low :: '-' :: high :: rest
  | body => body

/-- How many characters at the front belong to a set whatever they are: a closing bracket that comes first, also
after an exclamation mark. -/
def leadLength : List Char → Nat
  | '!' :: ']' :: _ => 2
  | '!' :: _ => 1
  | ']' :: _ => 1
  | _ => 0

/-- The characters of a set after its opening bracket, and the text after its closing one. -/
def bracketed? (text : List Char) : Option (List Char × List Char) :=
  let body := text.drop (leadLength text)
  match body.dropWhile fun c => c != ']' with
  | [] => none
  | _ :: rest => some (text.take (leadLength text) ++ body.takeWhile fun c => c != ']', rest)

theorem length_of_bracketed? {text body rest : List Char} (h : bracketed? text = some (body, rest)) :
    rest.length < text.length := by
  simp only [bracketed?] at h
  split at h
  · simp at h
  · rename_i heq
    obtain ⟨-, rfl⟩ := Prod.mk.inj (Option.some.inj h)
    have hle : ((text.drop (leadLength text)).dropWhile fun c => c != ']').length ≤ _ :=
      (List.dropWhile_suffix _).length_le
    rw [heq, List.length_cons, List.length_drop] at hle
    omega

end CharSet

namespace Glob

open Pattern

/-- The set that characters in brackets name; a leading exclamation mark negates it, also one that leads only
once ranges that hold nothing are left out. A hyphen right after such a mark stands for itself. -/
def setOf : List Char → CharSet
  | '!' :: body => ⟨true, CharSet.rangesOf body⟩
  | body =>
    match CharSet.dropEmpty body with
    | '!' :: '-' :: c :: rest => ⟨true, ('-', '-') :: (c, c) :: CharSet.rangesOf rest⟩
    | '!' :: rest => ⟨true, CharSet.rangesOf rest⟩
    | rest => ⟨false, CharSet.rangesOf rest⟩

def parts (glob : List Char) : List Pattern :=
  -- a bracket that is never closed stands for itself
  match glob with
  | [] => []
  | '*' :: rest => .run anyChar :: parts rest
  | '?' :: rest => .one anyChar :: parts rest
  | '[' :: rest =>
    match h : CharSet.bracketed? rest with
    | none => .one (· == '[') :: parts rest
    | some (body, after) =>
      have := CharSet.length_of_bracketed? h
      .one (setOf body).contains :: parts after
  | c :: rest => .one (· == c) :: parts rest
termination_by glob.length
decreasing_by
  all_goals simp_wf
  all_goals omega

def fits (glob name : List Char) : Bool :=
  ((inOrder (parts glob ++ [.edge .textEnd])).here? (Cursor.start name)).isSome

end Glob

end CodeCensus.Files
