import CodeCensus.Proofs.Pattern.Places
import CodeCensus.Proofs.Text.Class
import CodeCensus.Proofs.Text.Returns

/-! Places in a text and in the text without its carriage returns. Each place of the one answers to a place of the
other, on the same line and after the same characters; between a carriage return and its line feed lies a place
that answers to the one before both. -/

namespace CodeCensus

namespace Text

/-- The place in a text without carriage returns that a place in the text answers to. -/
def place (text : List Char) (a : Nat) : Nat := (bare (text.take a)).length

variable {text : List Char} {a e k : Nat} {c : Char} {p : Char → Bool}

theorem bare_take_append_drop (text : List Char) (a : Nat) : bare text = bare (text.take a) ++ bare (text.drop a) := by
  rw [← bare_append, List.take_append_drop]

theorem take_place (text : List Char) (a : Nat) : (bare text).take (place text a) = bare (text.take a) := by
  rw [bare_take_append_drop text a, place, List.take_left]

theorem drop_place (text : List Char) (a : Nat) : (bare text).drop (place text a) = bare (text.drop a) := by
  rw [bare_take_append_drop text a, place, List.drop_left]

theorem place_add (text : List Char) (a n : Nat) :
    place text (a + n) = place text a + (bare ((text.drop a).take n)).length := by
  rw [place, List.take_add, bare_append, List.length_append, place]

theorem place_mono (h : a ≤ e) : place text a ≤ place text e := by
  obtain ⟨n, rfl⟩ := Nat.exists_eq_add_of_le h
  rw [place_add]
  exact Nat.le_add_right _ _

theorem place_succ_of_ne (h : text[a]? = some c) (hc : c ≠ '\r') : place text (a + 1) = place text a + 1 := by
  rw [place_add, drop_of_getElem? h, List.take_succ_cons, List.take_zero, bare_cons hc]
  rfl

theorem place_succ_of_return (h : text[a]? = some '\r') : place text (a + 1) = place text a := by
  rw [place_add, drop_of_getElem? h, List.take_succ_cons, List.take_zero]
  rfl

theorem place_succ_of_none (h : text[a]? = none) : place text (a + 1) = place text a := by
  rw [place_add, List.drop_eq_nil_of_le (List.getElem?_eq_none_iff.mp h), List.take_nil]
  rfl

theorem getElem?_place (text : List Char) (a : Nat) : (bare text)[place text a]? = (bare (text.drop a)).head? := by
  rw [← drop_place, List.head?_drop]

theorem getElem?_place_of_ne (h : text[a]? = some c) (hc : c ≠ '\r') : (bare text)[place text a]? = some c := by
  rw [getElem?_place, drop_of_getElem? h, bare_cons hc, List.head?_cons]

theorem getElem?_place_of_none (h : text[a]? = none) : (bare text)[place text a]? = none := by
  rw [getElem?_place, List.drop_eq_nil_of_le (List.getElem?_eq_none_iff.mp h)]
  rfl

/-- The place of a carriage return answers to that of the line feed after it. -/
theorem ReturnsEndLines.getElem?_place_of_return (h : ReturnsEndLines text) (ha : text[a]? = some '\r') :
    (bare text)[place text a]? = text[a + 1]? := by
  rw [← place_succ_of_return ha]
  cases hnext : text[a + 1]? with
  | none => exact getElem?_place_of_none hnext
  | some c =>
    obtain rfl := h.next ha hnext
    exact getElem?_place_of_ne hnext (by decide)

theorem holdsAt_iff_of_getElem? {text' : List Char} {i j : Nat} (h : text[i]? = text'[j]?) :
    HoldsAt text p i ↔ HoldsAt text' p j := by
  rw [HoldsAt, HoldsAt, h]

theorem holdsAt_place_of_ne (h : text[a]? = some c) (hc : c ≠ '\r') :
    HoldsAt (bare text) p (place text a) ↔ HoldsAt text p a :=
  holdsAt_iff_of_getElem? ((getElem?_place_of_ne h hc).trans h.symm)

theorem not_holdsAt_of_none (h : text[a]? = none) : ¬ HoldsAt text p a := by
  rintro ⟨c, hc, -⟩
  rw [h] at hc
  cases hc

theorem holdsAt_of_getElem? (h : text[a]? = some c) : HoldsAt text p a ↔ p c = true := by
  refine ⟨fun hp => hp.eq_true h, fun hp => ⟨c, h, hp⟩⟩

/-- A class that takes no line feed without taking carriage returns holds no more often in the text without them. -/
theorem ReturnsEndLines.holdsAt_of_place (h : ReturnsEndLines text) (hp : p '\n' = true → p '\r' = true)
    (ha : HoldsAt (bare text) p (place text a)) : HoldsAt text p a := by
  cases hat : text[a]? with
  | none => exact absurd ha (not_holdsAt_of_none (getElem?_place_of_none hat))
  | some c =>
    by_cases hc : c = '\r'
    · subst hc
      obtain ⟨d, hd, hpd⟩ := ha
      rw [h.getElem?_place_of_return hat] at hd
      exact (holdsAt_of_getElem? hat).mpr (hp (h.next hat hd ▸ hpd))
    · exact (holdsAt_place_of_ne hat hc).mp ha

/-- Every place before a character that is no carriage return is answered. -/
theorem exists_place_eq (h : k < place text a) : ∃ b c, b < a ∧ place text b = k ∧ text[b]? = some c ∧ c ≠ '\r' := by
  induction a with
  | zero => cases h
  | succ a ih =>
    have hlower (hk : k < place text a) : ∃ b c, b < a + 1 ∧ place text b = k ∧ text[b]? = some c ∧ c ≠ '\r' := by
      obtain ⟨b, c, hb, hrest⟩ := ih hk
      exact ⟨b, c, Nat.lt_succ_of_lt hb, hrest⟩
    cases hat : text[a]? with
    | none => exact hlower (place_succ_of_none hat ▸ h)
    | some c =>
      by_cases hc : c = '\r'
      · subst hc
        exact hlower (place_succ_of_return hat ▸ h)
      · rw [place_succ_of_ne hat hc] at h
        rcases Nat.lt_succ_iff_lt_or_eq.mp h with hk | rfl
        · exact hlower hk
        · exact ⟨a, c, Nat.lt_succ_self a, rfl, hat, hc⟩

theorem place_length (text : List Char) : place text text.length = (bare text).length := by
  rw [place, List.take_length]

theorem place_eq_length (h : text.length ≤ a) : place text a = (bare text).length := by
  rw [place, List.take_of_length_le h]

end Text

namespace Cursor

open Text

variable {text : List Char} {a e : Nat}

theorem line_place (text : List Char) (a : Nat) : (on (bare text) (place text a)).line = (on text a).line := by
  change ((bare text).take (place text a)).count '\n' + 1 = (text.take a).count '\n' + 1
  rw [take_place, count_bare (by decide)]

theorem rest_place (text : List Char) (a : Nat) :
    (on (bare text) (place text a)).rest = bare (on text a).rest := drop_place text a

/-- Between answering places stands the same text, without its carriage returns. -/
theorem upTo_place (h : a ≤ e) :
    (on (bare text) (place text a)).upTo (on (bare text) (place text e)) = bare ((on text a).upTo (on text e)) := by
  obtain ⟨n, rfl⟩ := Nat.exists_eq_add_of_le h
  have hrest : (on text a).upTo (on text (a + n)) = (text.drop a).take n := by
    rw [upTo, on_rest, on_pos, on_pos, Nat.add_sub_cancel_left]
  have hsplit : bare (text.drop a) = bare ((text.drop a).take n) ++ bare ((text.drop a).drop n) :=
    bare_take_append_drop _ n
  rw [hrest, upTo, on_rest, on_pos, on_pos, place_add, Nat.add_sub_cancel_left, drop_place, hsplit, List.take_left]

theorem before_place (h : (text.take a).getLast? ≠ some '\r') :
    (on (bare text) (place text a)).before = (on text a).before := by
  change ((bare text).take (place text a)).getLast?.getD '\n' = (text.take a).getLast?.getD '\n'
  rw [take_place]
  rcases List.eq_nil_or_concat (text.take a) with hnil | ⟨front, c, hlast⟩
  · rw [hnil]
    rfl
  · rw [hlast, List.concat_eq_append, List.getLast?_concat] at h
    have hc : c ≠ '\r' := fun heq => h (congrArg some heq)
    rw [hlast, List.concat_eq_append, bare_append, bare_cons hc, bare_nil, List.getLast?_concat, List.getLast?_concat]

/-- After a carriage return comes the end of a line. -/
theorem lineEnd_of_getLast? (h : ReturnsEndLines text) (hlast : (text.take a).getLast? = some '\r') :
    Edge.lineEnd.holds (on text a) = true := by
  cases a with
  | zero => cases hlast
  | succ a =>
    cases hat : text[a + 1]? with
    | none =>
      have hnil : text.drop (a + 1) = [] := List.drop_eq_nil_of_le (List.getElem?_eq_none_iff.mp hat)
      rw [Edge.holds, on_rest, hnil]
      rfl
    | some c =>
      have hlt : a < text.length := by
        have := (List.getElem?_eq_some_iff.mp hat).1
        omega
      rw [List.take_succ_eq_append_getElem hlt, List.getLast?_concat] at hlast
      have hreturn : text[a]? = some '\r' := by rw [List.getElem?_eq_getElem hlt, hlast]
      rw [Edge.holds, on_rest, List.head?_drop, hat, h.next hreturn hat]
      exact Bool.or_true _

theorem lineEnd_iff : Edge.lineEnd.holds (on text a) = true ↔ ∀ c, text[a]? = some c → c = '\n' := by
  rw [Edge.holds, on_rest, List.head?_drop, Bool.or_eq_true, List.isEmpty_iff, beq_iff_eq]
  cases hat : text[a]? with
  | none => simpa using List.getElem?_eq_none_iff.mp hat
  | some c =>
    have hlt := (List.getElem?_eq_some_iff.mp hat).1
    simp [List.drop_eq_nil_iff, hlt]

end Cursor

/-- Whether an edge of words or the start of a line is looked for. -/
def Edge.isLocal : Edge → Bool
  | .word | .lineStart => true
  | _ => false

open Text Cursor in
/-- Where no carriage return precedes, the edges of words and the starts of lines are the same. -/
theorem Edge.holds_place {text : List Char} {a : Nat} {e : Edge} (he : e.isLocal = true) (h : ReturnsEndLines text)
    (hlast : (text.take a).getLast? ≠ some '\r') :
    e.holds (on (bare text) (place text a)) = e.holds (on text a) := by
  have hbefore := before_place hlast
  cases e with
  | textStart | textEnd | lastLineEnd | lineEnd => cases he
  | lineStart => rw [Edge.holds, Edge.holds, hbefore]
  | word =>
    have hfeed : isWord '\n' = false := by decide
    have hreturn : isWord '\r' = false := by decide
    have hnext : (bare text)[place text a]?.any isWord = text[a]?.any isWord := by
      cases hat : text[a]? with
      | none => rw [getElem?_place_of_none hat]
      | some c =>
        by_cases hc : c = '\r'
        · subst hc
          rw [h.getElem?_place_of_return hat, Option.any_some, hreturn]
          cases hat' : text[a + 1]? with
          | none => rfl
          | some d => rw [h.next hat hat', Option.any_some, hfeed]
        · rw [getElem?_place_of_ne hat hc]
    rw [Edge.holds, Edge.holds, hbefore, on_rest, on_rest, List.head?_drop, List.head?_drop, hnext]

end CodeCensus
