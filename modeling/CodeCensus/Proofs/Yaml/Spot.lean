import CodeCensus.Fault
import CodeCensus.Yaml.Spot
import Mathlib.Data.List.Infix

/-! How the readers of YAML go through a text. What one of them leaves unread is an end of what it was given,
known as far as that was; and a refusal for another reason than the syntax has its reason in the text, or in why
the text cannot be read beyond its end. -/

namespace CodeCensus.Yaml

/-- A text holds the reason of a refusal: a number of a version with too many digits, or an escape with the code
of no character. -/
inductive Refusal.LiesIn (text : List Char) : Refusal → Prop
  | version {run : List Char} (within : run <:+: text) (digits : ∀ c ∈ run, c.isDigit = true)
    (long : Fault.maxDigits < run.length) : LiesIn text .badValue
  | escape {digits : List Char} (within : '\\' :: 'U' :: digits <:+: text) (eight : digits.length = 8)
    (hex : ∀ c ∈ digits, isHexDigit c = true) (beyond : 0x110000 ≤ ofDigits 16 digits) :
    LiesIn text (if 0x80000000 ≤ ofDigits 16 digits then .hugeCode else .badValue)

theorem Refusal.LiesIn.of_part {e : Refusal} {text text' : List Char} (h : e.LiesIn text')
    (hpart : text' <:+: text) : e.LiesIn text := by
  cases h with
  | version within digits long => exact .version (within.trans hpart) digits long
  | escape within eight hex beyond => exact .escape (within.trans hpart) eight hex beyond

/-! ## Spots further on -/

structure Spot.Leads (s s' : Spot) : Prop where
  rest : s'.rest <:+ s.rest
  cut : s'.cut = s.cut

section

variable {s s' s'' : Spot}

namespace Spot

theorem Leads.refl (s : Spot) : s.Leads s := ⟨List.suffix_refl _, rfl⟩

theorem Leads.trans (h : s.Leads s') (h' : s'.Leads s'') : s.Leads s'' :=
  ⟨h'.rest.trans h.rest, h'.cut.trans h.cut⟩

theorem rest_next (s : Spot) : s.next.rest = s.rest.tail := by
  obtain ⟨rest, index, line, column, cut, length, h⟩ := s
  cases rest <;> rfl

theorem cut_next (s : Spot) : s.next.cut = s.cut := by
  obtain ⟨rest, index, line, column, cut, length, h⟩ := s
  cases rest <;> rfl

theorem leads_next (s : Spot) : s.Leads s.next :=
  ⟨s.rest_next ▸ List.tail_suffix _, s.cut_next⟩

theorem leads_skip (count : Nat) (s : Spot) : s.Leads (s.skip count) := by
  induction count generalizing s with
  | zero => exact .refl s
  | succ count ih => exact s.leads_next.trans (ih s.next)

theorem leads_take (p : Char → Bool) (s : Spot) : s.Leads (s.take p).2 := leads_skip _ s

theorem leads_drop (p : Char → Bool) (s : Spot) : s.Leads (s.drop p) := leads_take p s

theorem leads_dropSpacesTo (column steps : Nat) (s : Spot) : s.Leads (s.dropSpacesTo column steps) := by
  induction steps generalizing s with
  | zero => exact .refl s
  | succ steps ih =>
    rw [dropSpacesTo]
    split
    · exact s.leads_next.trans (ih s.next)
    · exact .refl s

theorem leads_of_break? {c : Char} (h : s.break? = some (c, s')) : s.Leads s' := by
  unfold break? at h
  split at h
  · cases h
  · split at h
    · cases h
      exact s.leads_next
    · cases h

theorem leads_dropComment (s : Spot) : s.Leads s.dropComment := by
  rw [dropComment]
  split
  · exact s.leads_drop _
  · exact .refl s

end Spot

/-! ## Refusals that are due -/

/-- A refusal that a spot accounts for. Bad syntax may have any reason. -/
def Refusal.IsDue (s : Spot) (e : Refusal) : Prop := e = .malformed ∨ s.cut = some e ∨ e.LiesIn s.rest

theorem Refusal.isDue_malformed (s : Spot) : Refusal.malformed.IsDue s := .inl rfl

theorem Refusal.isDue_fault (s : Spot) : s.fault.IsDue s := by
  rw [Spot.fault]
  split
  · cases hcut : s.cut with
    | none => exact isDue_malformed s
    | some e => exact .inr (.inl hcut)
  · exact isDue_malformed s

theorem Refusal.IsDue.of_leads {e : Refusal} (h : e.IsDue s') (hs : s.Leads s') : e.IsDue s := by
  rcases h with h | h | h
  · exact .inl h
  · exact .inr (.inl (hs.cut ▸ h))
  · exact .inr (.inr (h.of_part hs.rest.isInfix))

/-- What a spot gives is as wanted, or else the spot accounts for the refusal. -/
def Meets {α : Type} (wanted : α → Prop) (s : Spot) : Except Refusal α → Prop
  | .ok a => wanted a
  | .error e => e.IsDue s

/-- What is read at a spot is as wanted and leaves a spot further on. -/
def Reads {α : Type} (wanted : α → Prop) (s : Spot) (r : Except Refusal (α × Spot)) : Prop :=
  Meets (fun found => wanted found.1 ∧ s.Leads found.2) s r

section

variable {α β : Type} {wanted : α → Prop} {wanted' : β → Prop}

theorem Meets.bind {x : Except Refusal α} {f : α → Except Refusal β} (hx : Meets wanted s x)
    (hf : ∀ a, wanted a → Meets wanted' s (f a)) : Meets wanted' s (x >>= f) := by
  cases x with
  | ok a => exact hf a hx
  | error e => exact hx

theorem Meets.imp {wanted' : α → Prop} {x : Except Refusal α} (hx : Meets wanted s x)
    (hwanted : ∀ a, wanted a → wanted' a) : Meets wanted' s x := by
  cases x with
  | ok a => exact hwanted a hx
  | error e => exact hx

theorem Meets.map {x : Except Refusal α} {f : α → β} (hx : Meets wanted s x)
    (hf : ∀ a, wanted a → wanted' (f a)) : Meets wanted' s (x.map f) := by
  cases x with
  | ok a => exact hf a hx
  | error e => exact hx

theorem Meets.ite {c : Prop} [Decidable c] {x y : Except Refusal α} (hx : Meets wanted s x)
    (hy : Meets wanted s y) : Meets wanted s (if c then x else y) := by
  split
  · exact hx
  · exact hy

theorem Meets.of_leads {x : Except Refusal α} (hx : Meets wanted s' x) (hs : s.Leads s') :
    Meets wanted s x := by
  cases x with
  | ok a => exact hx
  | error e => exact Refusal.IsDue.of_leads hx hs

theorem Reads.of_leads {x : Except Refusal (α × Spot)} (hx : Reads wanted s' x) (hs : s.Leads s') :
    Reads wanted s x := by
  cases x with
  | ok found => exact ⟨hx.1, hs.trans hx.2⟩
  | error e => exact Refusal.IsDue.of_leads hx hs

theorem Reads.map {x : Except Refusal (α × Spot)} {f : α × Spot → β × Spot} (hx : Reads wanted s x)
    (hf : ∀ a s', wanted a → wanted' (f (a, s')).1 ∧ s'.Leads (f (a, s')).2) :
    Reads wanted' s (x.map f) := by
  refine Meets.map hx fun ⟨a, s'⟩ ⟨ha, hs'⟩ => ?_
  obtain ⟨hwanted, hleads⟩ := hf a s' ha
  exact ⟨hwanted, hs'.trans hleads⟩

end

theorem meets_check (s : Spot) : Meets (fun _ => s.isEnd = true → s.cut = none) s s.check := by
  unfold Spot.check
  split
  · rename_i hcut
    exact .inr (.inl hcut)
  · rename_i hno
    intro hend
    rw [Spot.isEnd, List.isEmpty_iff] at hend
    cases hcut : s.cut with
    | none => rfl
    | some e => exact absurd hcut (hno e hend)

theorem meets_finishLine (s : Spot) : Meets s.Leads s s.finishLine := by
  have hleads : s.Leads (s.drop (· == ' ')).dropComment := (s.leads_drop _).trans (Spot.leads_dropComment _)
  unfold Spot.finishLine
  dsimp only
  split
  · rename_i c s' hbreak
    exact hleads.trans (Spot.leads_of_break? hbreak)
  · split
    · exact hleads
    · exact (Refusal.isDue_fault _).of_leads hleads

/-- The code at a spot is that of digits which stand there. -/
theorem reads_hexCode (width : Nat) (s : Spot) :
    Reads (fun code => ∃ digits, digits <+: s.rest ∧ digits.length = width ∧
      (∀ c ∈ digits, isHexDigit c = true) ∧ code = ofDigits 16 digits) s (s.hexCode width) := by
  unfold Spot.hexCode
  dsimp only
  split
  · exact Refusal.isDue_malformed s
  · rename_i hdigits
    split
    · exact (Refusal.isDue_fault _).of_leads (s.leads_skip _)
    · rename_i hwidth
      refine ⟨⟨s.rest.take width, List.take_prefix _ _, ?_, ?_, rfl⟩, s.leads_skip _⟩
      · exact Nat.le_antisymm (List.length_take_le _ _) (Nat.not_lt.mp hwidth)
      · simpa using hdigits

end

end CodeCensus.Yaml
