import CodeCensus.Proofs.Text.Lines
import CodeCensus.Proofs.Text.Utf8
import CodeCensus.Text.Class
import CodeCensus.Text.Trim
import Mathlib.Data.List.Infix

/-! Texts with backslashes in place of their slashes. Neither of the two is a letter, so that letter case does
not tell the texts apart, nor do words that hold no separator. -/

namespace CodeCensus.Text

def backslash (c : Char) : Char := if c = '/' then '\\' else c

def backslashed (text : List Char) : List Char := text.map backslash

/-! ## Lower case -/

theorem ofNat_ne_slash {n : Nat} (h : n ≠ 47) : Char.ofNat n ≠ '/' := by
  intro hslash
  have hcode : (Char.ofNat n).toNat = 47 := congrArg Char.toNat hslash
  rw [Utf8.toNat_ofNat] at hcode
  split at hcode
  · exact h hcode
  · cases hcode

theorem lowerChar_ne_slash {c : Char} (h : c ≠ '/') : lowerChar c ≠ '/' := by
  have hascii : ∀ n < 128, Char.ofNat n ≠ '/' → lowerChar (Char.ofNat n) ≠ '/' := by decide +kernel
  have hruns : lowerRuns.all fun run => (47 : Int) < run.1 + run.2.2.2 := by decide +kernel
  by_cases hc : c.toNat < 128
  · have := hascii c.toNat hc
    rw [Char.ofNat_toNat] at this
    exact this h
  · simp only [lowerChar, hc, if_false]
    split
    · exact h
    · rename_i first last step offset hfind
      split
      · have hrun := Array.all_eq_true'.mp hruns _ (Array.mem_of_find?_eq_some hfind)
        have hfirst := Array.find?_some hfind
        simp only [Bool.and_eq_true, decide_eq_true_iff] at hrun hfirst
        exact ofNat_ne_slash (by omega)
      · exact h

/-- Both separators are their own small form, are not cased, and are not passed over where a cased letter is looked for. -/
theorem separator_spec : ∀ c ∈ ['/', '\\'], lowerChar c = c ∧ inRanges caseIgnorableRanges c.toNat = false ∧
    inRanges casedRanges c.toNat = false := by
  refine List.forall_mem_cons.mpr ⟨?_, List.forall_mem_singleton.mpr ?_⟩ <;> decide +kernel

theorem lowerChar_backslash (c : Char) : lowerChar (backslash c) = backslash (lowerChar c) := by
  by_cases hc : c = '/'
  · rw [hc, (separator_spec '/' List.mem_cons_self).1]
    exact (separator_spec '\\' (by simp)).1
  · rw [backslash, backslash, if_neg hc, if_neg (lowerChar_ne_slash hc)]

theorem meetsCased_backslashed (text : List Char) : meetsCased (backslashed text) = meetsCased text := by
  have hignored (c : Char) :
      inRanges caseIgnorableRanges (backslash c).toNat = inRanges caseIgnorableRanges c.toNat := by
    by_cases hc : c = '/'
    · rw [hc, (separator_spec '/' List.mem_cons_self).2.1]
      exact (separator_spec '\\' (by simp)).2.1
    · rw [backslash, if_neg hc]
  have hcased (c : Char) : inRanges casedRanges (backslash c).toNat = inRanges casedRanges c.toNat := by
    by_cases hc : c = '/'
    · rw [hc, (separator_spec '/' List.mem_cons_self).2.2]
      exact (separator_spec '\\' (by simp)).2.2
    · rw [backslash, if_neg hc]
  induction text with
  | nil => rfl
  | cons c rest ih =>
    rw [meetsCased, meetsCased, backslashed, List.map_cons, List.dropWhile_cons, List.dropWhile_cons, hignored]
    cases inRanges caseIgnorableRanges c.toNat with
    | true => exact ih
    | false => exact hcased c

theorem lowerAfter_backslashed (before text : List Char) :
    lowerAfter (backslashed before) (backslashed text) = backslashed (lowerAfter before text) := by
  induction text generalizing before with
  | nil => rfl
  | cons c rest ih =>
    have htail : lowerAfter (backslash c :: backslashed before) (backslashed rest) =
        backslashed (lowerAfter (c :: before) rest) := ih (c :: before)
    have hsigma : backslash c = 'Σ' ↔ c = 'Σ' := by
      by_cases hc : c = '/'
      · rw [hc]
        decide
      · rw [backslash, if_neg hc]
    have hdotted : backslash c = 'İ' ↔ c = 'İ' := by
      by_cases hc : c = '/'
      · rw [hc]
        decide
      · rw [backslash, if_neg hc]
    change lowerAfter (backslashed before) (backslash c :: backslashed rest) = _
    rw [lowerAfter, lowerAfter, htail, meetsCased_backslashed, meetsCased_backslashed, lowerChar_backslash]
    simp only [beq_iff_eq, hsigma, hdotted]
    by_cases hc : c = 'Σ'
    · rw [if_pos hc, if_pos hc]
      cases meetsCased before && !meetsCased rest <;> rfl
    · rw [if_neg hc, if_neg hc]
      by_cases hc' : c = 'İ'
      · rw [if_pos hc', if_pos hc']
        rfl
      · rw [if_neg hc', if_neg hc']
        rfl

theorem lower_backslashed (text : List Char) : lower (backslashed text) = backslashed (lower text) :=
  lowerAfter_backslashed [] text

/-! ## Words -/

theorem cutFirstAfter_isSome {needle seen text : List Char} :
    (cutFirstAfter needle seen text).isSome = true ↔ needle <:+: text := by
  induction text generalizing seen with
  | nil =>
    rw [cutFirstAfter, List.infix_nil]
    cases needle with
    | nil => simp
    | cons c needle => simp
  | cons c rest ih =>
    rw [cutFirstAfter, List.infix_cons_iff, ← List.isPrefixOf_iff_prefix]
    cases needle.isPrefixOf (c :: rest) with
    | true => simp
    | false => simpa using ih

/-- What comes after the first occurrence does not matter. -/
theorem cutFirstAfter_append {needle seen text before after : List Char} (hne : needle ≠ [])
    (h : cutFirstAfter needle seen text = some (before, after)) (rest : List Char) :
    cutFirstAfter needle seen (text ++ rest) = some (before, after ++ rest) := by
  induction text generalizing seen with
  | nil =>
    rw [cutFirstAfter, if_neg (by simpa using hne)] at h
    cases h
  | cons c text ih =>
    have hlong : needle <+: c :: text → needle <+: c :: (text ++ rest) := fun hshort =>
      hshort.trans (List.prefix_append (c :: text) rest)
    rw [cutFirstAfter] at h
    rw [List.cons_append, cutFirstAfter]
    split at h
    · rename_i hstart
      have hstart := List.isPrefixOf_iff_prefix.mp hstart
      obtain ⟨rfl, rfl⟩ := Prod.mk.inj (Option.some.inj h)
      rw [if_pos (List.isPrefixOf_iff_prefix.mpr (hlong hstart)), ← List.cons_append,
        List.drop_append_of_le_length hstart.length_le]
    · rename_i hstart
      have hwithin : needle <:+: text := cutFirstAfter_isSome.mp (by rw [h]; rfl)
      have hshort : needle <+: c :: (text ++ rest) → needle <+: c :: text := fun hlonger =>
        List.prefix_of_prefix_length_le hlonger (List.prefix_append (c :: text) rest)
          (hwithin.length_le.trans (Nat.le_succ _))
      rw [if_neg fun hlonger => hstart (List.isPrefixOf_iff_prefix.mpr
        (hshort (List.isPrefixOf_iff_prefix.mp hlonger)))]
      exact ih h

theorem occurs_iff_infix {needle text : List Char} : occurs needle text = true ↔ needle <:+: text :=
  cutFirstAfter_isSome

theorem backslashed_of_not_mem {text : List Char} (h : '/' ∉ text) : backslashed text = text := by
  have hmap : text.map backslash = text.map id := by
    refine List.map_congr_left fun c hc => if_neg ?_
    rintro rfl
    exact h hc
  exact hmap.trans (List.map_id text)

theorem slash_not_mem_backslashed (text : List Char) : '/' ∉ backslashed text := by
  intro hmem
  obtain ⟨c, -, hc⟩ := List.mem_map.mp hmem
  rw [backslash] at hc
  split at hc
  · cases hc
  · rename_i hne
    exact hne hc

/-- A text that turns into one without backslashes had no slash to turn. -/
theorem eq_of_backslashed_eq {text needle : List Char} (hback : '\\' ∉ needle) (h : backslashed text = needle) :
    text = needle := by
  rw [← h]
  refine (backslashed_of_not_mem fun hslash => hback ?_).symm
  rw [← h]
  exact List.mem_map.mpr ⟨'/', hslash, rfl⟩

theorem isPrefixOf_backslashed {needle : List Char} (hslash : '/' ∉ needle) (hback : '\\' ∉ needle)
    (text : List Char) : needle.isPrefixOf (backslashed text) = needle.isPrefixOf text := by
  rw [Bool.eq_iff_iff, List.isPrefixOf_iff_prefix, List.isPrefixOf_iff_prefix]
  constructor
  · intro hprefix
    obtain ⟨front, hfront, hneedle⟩ := List.prefix_map_iff.mp hprefix
    rwa [← eq_of_backslashed_eq hback hneedle.symm]
  · intro hprefix
    rw [← backslashed_of_not_mem hslash]
    exact hprefix.map backslash

theorem occurs_backslashed {needle : List Char} (hslash : '/' ∉ needle) (hback : '\\' ∉ needle)
    (text : List Char) : occurs needle (backslashed text) = occurs needle text := by
  rw [Bool.eq_iff_iff, occurs_iff_infix, occurs_iff_infix]
  constructor
  · rintro ⟨before, after, happend⟩
    obtain ⟨front, back, rfl, hfront, -⟩ := List.map_eq_append_iff.mp happend.symm
    obtain ⟨start, middle, rfl, -, hmiddle⟩ := List.map_eq_append_iff.mp hfront
    rw [eq_of_backslashed_eq hback hmiddle]
    exact ⟨start, back, rfl⟩
  · intro hinfix
    rw [← backslashed_of_not_mem hslash]
    exact hinfix.map backslash

end CodeCensus.Text
