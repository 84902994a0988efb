import CodeCensus.Text.Class

/-! How the classes of characters lie to one another: no blank is a small letter or a character of
words. -/

namespace CodeCensus.Text

theorem forall_of_any_eq_false {p : Char → Bool} {text : List Char} (h : text.any p = false) : ∀ c ∈ text, p c = false :=
  fun c hc => Bool.eq_false_iff.mpr (List.any_eq_false.mp h c hc)

theorem isLower_iff {c : Char} : c.isLower = true ↔ 97 ≤ c.toNat ∧ c.toNat ≤ 122 := by
  change (decide (97 ≤ c.val) && decide (c.val ≤ 122)) = true ↔ _
  rw [Bool.and_eq_true, decide_eq_true_iff, decide_eq_true_iff]
  exact Iff.rfl

theorem toNat_lt_of_isAlphanum {c : Char} (h : c.isAlphanum = true) : c.toNat < 128 := by
  change ((decide (65 ≤ c.toNat ∧ c.toNat ≤ 90) || c.isLower) || (decide (48 ≤ c.toNat) && decide (c.toNat ≤ 57))) = true at h
  rw [Bool.or_eq_true, Bool.or_eq_true, Bool.and_eq_true, isLower_iff, decide_eq_true_iff, decide_eq_true_iff,
    decide_eq_true_iff] at h
  omega

theorem not_isBlank_of_isLower {c : Char} (h : c.isLower = true) : isBlank c = false := by
  have hc := isLower_iff.mp h
  unfold isBlank
  simp only [show c.toNat < 128 by omega, if_true, Bool.or_eq_false_iff, Bool.and_eq_false_iff,
    decide_eq_false_iff_not, beq_eq_false_iff_ne]
  omega

theorem ne_of_isLower {c d : Char} (h : c.isLower = true) (hd : d.isLower = false) : c ≠ d := by
  rintro rfl
  simp [h] at hd

theorem ne_of_isBlank {c d : Char} (h : isBlank c = true) (hd : isBlank d = false) : c ≠ d := by
  rintro rfl
  simp [h] at hd

theorem not_isWord_of_isBlank_of_lt {n : Nat} (hn : n < 128) :
    isBlank (Char.ofNat n) = true → isWord (Char.ofNat n) = false := by
  have hall : ∀ n < 128, isBlank (Char.ofNat n) = true → isWord (Char.ofNat n) = false := by
    decide +kernel
  exact hall n hn

/-- The spaces of different widths are not in the table of word characters. -/
theorem not_inRanges_space {n : Nat} (hlo : 0x2000 ≤ n) (hhi : n ≤ 0x200A) :
    inRanges wordRanges n = false := by
  have hall : (List.range' 0x2000 11).all (fun n => !inRanges wordRanges n) = true := by
    decide +kernel
  have := List.all_eq_true.mp hall n (by simp; omega)
  simpa using this

theorem not_isWord_of_isBlank {c : Char} (h : isBlank c = true) : isWord c = false := by
  by_cases hc : c.toNat < 128
  · have := not_isWord_of_isBlank_of_lt hc
    rw [Char.ofNat_toNat] at this
    exact this h
  · unfold isBlank at h
    unfold isWord
    simp only [hc, if_false, Bool.or_eq_true, Bool.and_eq_true, decide_eq_true_iff,
      beq_iff_eq] at h ⊢
    rcases h with (((((((h | h) | h) | hspace) | h) | h) | h) | h) | h
    all_goals first | exact not_inRanges_space hspace.1 hspace.2 | (rw [h]; decide +kernel)

theorem not_isBlank_of_isWord {c : Char} (h : isWord c = true) : isBlank c = false :=
  Bool.eq_false_iff.mpr fun hblank => by simp [not_isWord_of_isBlank hblank] at h

theorem beq_of_isWord {mark c : Char} (hmark : isWord mark = false) (hc : isWord c = true) : (c == mark) = false :=
  beq_eq_false_iff_ne.mpr fun heq => by simp [heq, hmark] at hc

end CodeCensus.Text
