import CodeCensus.Fault
import Mathlib.Data.List.Infix

/-! What the readers of documents have in common. What one of them leaves unread is an end of its text, and
if it gives up for another reason than the syntax, the reason stands in the text: a number with too many
digits, or too many brackets and braces that open. -/

namespace CodeCensus

def isOpening (c : Char) : Bool := c == '[' || c == '{'

/-- A text holds the reason of a fault: a run of more digits than are read, underscores between them
allowed, or more openings than `depth`. -/
inductive Fault.LiesIn (depth : Nat) (text : List Char) : Fault → Prop
  | longNumber {run : List Char} (within : run <:+: text)
    (digits : ∀ c ∈ run, c.isDigit = true ∨ c = '_') (long : Fault.maxDigits < run.countP Char.isDigit) :
    LiesIn depth text (.longNumber (run.countP Char.isDigit))
  | deepNesting (what : Nesting) (deep : depth < text.countP isOpening) :
    LiesIn depth text (.deepNesting what)

/-- A refusal that a text accounts for. Bad syntax may have any reason. -/
def Refusal.IsDue (depth : Nat) (text : List Char) : Refusal → Prop
  | .malformed => True
  | .fault f => f.LiesIn depth text

/-- What is read is as wanted, or else the text accounts for the refusal. -/
def Meets {α : Type} (wanted : α → Prop) (depth : Nat) (text : List Char) : Except Refusal α → Prop
  | .ok a => wanted a
  | .error e => e.IsDue depth text

/-- A value as wanted is read from the front of a text and an end of the text left. -/
def Reads {α : Type} (wanted : α → Prop) (depth : Nat) (text : List Char) (r : Read α) : Prop :=
  Meets (fun found => wanted found.1 ∧ found.2 <:+ text) depth text r

section

variable {α β : Type} {wanted : α → Prop} {depth depth' : Nat} {text text' : List Char}

theorem countP_le_of_suffix {p : Char → Bool} (h : text' <:+ text) : text'.countP p ≤ text.countP p :=
  h.sublist.countP_le

theorem Fault.LiesIn.mono {f : Fault} (h : f.LiesIn depth' text') (hsuffix : text' <:+ text)
    (hdepth : depth' < text'.countP isOpening → depth < text.countP isOpening) : f.LiesIn depth text := by
  cases h with
  | longNumber within digits long => exact .longNumber (within.trans hsuffix.isInfix) digits long
  | deepNesting what deep => exact .deepNesting what (hdepth deep)

theorem Refusal.IsDue.mono {e : Refusal} (h : e.IsDue depth' text') (hsuffix : text' <:+ text)
    (hdepth : depth' < text'.countP isOpening → depth < text.countP isOpening) : e.IsDue depth text := by
  cases e with
  | malformed => trivial
  | fault f => exact Fault.LiesIn.mono h hsuffix hdepth

/-- What holds from a later place in a text on holds in the whole text. -/
theorem Refusal.IsDue.of_suffix {e : Refusal} (h : e.IsDue depth text') (hsuffix : text' <:+ text) :
    e.IsDue depth text :=
  h.mono hsuffix fun hdeep => hdeep.trans_le (countP_le_of_suffix hsuffix)

/-- What lies one level deeper lies behind one more opening. -/
theorem Refusal.IsDue.of_opening {e : Refusal} {c : Char} (h : e.IsDue depth text')
    (hsuffix : text' <:+ text) (hc : isOpening c = true) : e.IsDue (depth + 1) (c :: text) := by
  refine h.mono (hsuffix.trans (List.suffix_cons c text)) fun hdeep => ?_
  have hle := countP_le_of_suffix (p := isOpening) hsuffix
  rw [List.countP_cons_of_pos hc]
  omega

theorem Meets.isDue {r : Except Refusal α} {e : Refusal} (h : Meets wanted depth text r) (hr : r = .error e) :
    e.IsDue depth text := by
  rw [hr] at h
  exact h

theorem Meets.of_eq_ok {r : Except Refusal α} {a : α} (h : Meets wanted depth text r) (hr : r = .ok a) :
    wanted a := by
  rw [hr] at h
  exact h

theorem Reads.isDue {r : Read α} {e : Refusal} (h : Reads wanted depth text r) (hr : r = .error e) :
    e.IsDue depth text := Meets.isDue h hr

theorem Reads.of_eq_ok {r : Read α} {a : α} {rest : List Char} (h : Reads wanted depth text r)
    (hr : r = .ok (a, rest)) : wanted a ∧ rest <:+ text := by
  rw [hr] at h
  exact h

theorem Meets.imp {wanted' : α → Prop} {r : Except Refusal α} (h : Meets wanted depth text r)
    (hwanted : ∀ a, wanted a → wanted' a) : Meets wanted' depth text r := by
  cases r with
  | error e => exact h
  | ok a => exact hwanted a h

theorem Meets.of_suffix {r : Except Refusal α} (h : Meets wanted depth text' r) (hsuffix : text' <:+ text) :
    Meets wanted depth text r := by
  cases r with
  | error e => exact Refusal.IsDue.of_suffix h hsuffix
  | ok a => exact h

theorem Reads.of_suffix {r : Read α} (h : Reads wanted depth text' r) (hsuffix : text' <:+ text) :
    Reads wanted depth text r :=
  (Meets.of_suffix h hsuffix).imp fun _ hfound => ⟨hfound.1, hfound.2.trans hsuffix⟩

theorem Reads.of_opening {r : Read α} {c : Char} (h : Reads wanted depth text' r) (hsuffix : text' <:+ text)
    (hc : isOpening c = true) : Reads wanted (depth + 1) (c :: text) r := by
  cases r with
  | error e => exact Refusal.IsDue.of_opening h hsuffix hc
  | ok found => exact ⟨h.1, h.2.trans (hsuffix.trans (List.suffix_cons c text))⟩

theorem Reads.imp {wanted' : α → Prop} {r : Read α} (h : Reads wanted depth text r)
    (hwanted : ∀ a, wanted a → wanted' a) : Reads wanted' depth text r :=
  Meets.imp h fun found hfound => ⟨hwanted found.1 hfound.1, hfound.2⟩

theorem Reads.map {r : Read α} {wanted' : β → Prop} {f : α × List Char → β × List Char}
    (h : Reads wanted depth text r) (hf : ∀ a rest, wanted a → wanted' (f (a, rest)).1)
    (hrest : ∀ found, (f found).2 <:+ found.2) : Reads wanted' depth text (r.map f) := by
  cases r with
  | error e => exact h
  | ok found => exact ⟨hf found.1 found.2 h.1, (hrest found).trans h.2⟩

end

end CodeCensus
