import CodeCensus.Number.Double
import Mathlib.Algebra.Order.Field.Power
import Mathlib.Data.Rat.Cast.Order
import Mathlib.Tactic.FieldSimp
import Mathlib.Tactic.Linarith
import Mathlib.Tactic.NormNum
import Mathlib.Tactic.Positivity
import Mathlib.Tactic.Ring

/-! A quotient of two numbers is rounded to a double nearest to it, and it has a finite one unless it
is beyond the greatest of them. -/

namespace CodeCensus

/-- The rounded quotient is off by half a unit at most. -/
theorem abs_roundDiv_sub_le (num : Nat) {den : Nat} (hden : 0 < den) :
    |(roundDiv num den : ℚ) - num / den| ≤ 1 / 2 := by
  have hd : (0 : ℚ) < den := by exact_mod_cast hden
  have hnum : (num : ℚ) = den * (num / den : ℕ) + (num % den : ℕ) := by
    exact_mod_cast (Nat.div_add_mod num den).symm
  have hquot : (num : ℚ) / den = (num / den : ℕ) + (num % den : ℕ) / den := by
    rw [div_eq_iff hd.ne', add_mul, div_mul_cancel₀ _ hd.ne', mul_comm]
    exact hnum
  have hlow : (0 : ℚ) ≤ (num % den : ℕ) / den := by positivity
  have hhigh : ((num % den : ℕ) : ℚ) / den < 1 := by
    rw [div_lt_one hd]
    exact_mod_cast Nat.mod_lt num hden
  rw [hquot, abs_le]
  -- the remainder tells on which side of the middle the quotient lies
  rw [roundDiv]
  split
  · rename_i hless
    have hhalf : ((num % den : ℕ) : ℚ) / den < 1 / 2 := by
      rw [div_lt_div_iff₀ hd two_pos]
      exact_mod_cast (by omega : num % den * 2 < 1 * den)
    constructor <;> linarith
  · rename_i hless
    have hhalf : 1 / 2 ≤ ((num % den : ℕ) : ℚ) / den := by
      rw [div_le_div_iff₀ two_pos hd]
      exact_mod_cast (by omega : 1 * den ≤ num % den * 2)
    split
    · push_cast
      constructor <;> linarith
    · rename_i hmore
      have hhalf' : ((num % den : ℕ) : ℚ) / den ≤ 1 / 2 := by
        rw [div_le_div_iff₀ hd two_pos]
        exact_mod_cast (by omega : num % den * 2 ≤ 1 * den)
      split
      · constructor <;> linarith
      · push_cast
        constructor <;> linarith

theorem roundDiv_le {num den n : Nat} (hden : 0 < den) (h : num ≤ n * den) : roundDiv num den ≤ n := by
  have hd : (0 : ℚ) < den := by exact_mod_cast hden
  have hquot : (num : ℚ) / den ≤ n := by
    rw [div_le_iff₀ hd]
    exact_mod_cast h
  have herror := abs_le.mp (abs_roundDiv_sub_le num hden)
  have hlt : (roundDiv num den : ℚ) < n + 1 := by linarith [herror.2]
  exact Nat.lt_succ_iff.mp (by exact_mod_cast hlt)

/-- No integer is nearer than one that is off by half a unit at most. -/
theorem abs_sub_le_of_half {x : ℚ} {n : ℤ} (h : |(n : ℚ) - x| ≤ 1 / 2) (k : ℤ) :
    |(n : ℚ) - x| ≤ |(k : ℚ) - x| := by
  by_cases hk : n = k
  · rw [hk]
  · have hone : (1 : ℤ) ≤ |n - k| := Int.one_le_abs (sub_ne_zero.mpr hk)
    have hgap : (1 : ℚ) ≤ |(n : ℚ) - k| := by exact_mod_cast hone
    have htriangle := abs_sub_le (n : ℚ) x k
    rw [abs_sub_comm x] at htriangle
    linarith

namespace Double

/-! ## Scaling -/

theorem scaled_pos (num : Nat) {den : Nat} (hden : 0 < den) (e : Int) : 0 < (scaled num den e).2 := by
  rw [scaled]
  split
  · exact hden
  · exact Nat.mul_pos hden (Nat.pow_pos two_pos)

theorem scaled_eq (num den : Nat) (e : Int) :
    ((scaled num den e).1 : ℚ) / (scaled num den e).2 = num / den / 2 ^ e := by
  have htwo : (2 : ℚ) ≠ 0 := two_ne_zero
  rw [scaled]
  split
  · rename_i hneg
    have he : ((-e).toNat : ℤ) = -e := Int.toNat_of_nonneg (by omega)
    have hpow : (2 : ℚ) ^ (-e).toNat = 2 ^ (-e) := (zpow_natCast 2 _).symm.trans (by rw [he])
    change ((num * 2 ^ (-e).toNat : ℕ) : ℚ) / den = _
    push_cast
    rw [hpow, zpow_neg, div_eq_mul_inv (_ / _), mul_div_right_comm]
  · rename_i hneg
    have he : (e.toNat : ℤ) = e := Int.toNat_of_nonneg (by omega)
    have hpow : (2 : ℚ) ^ e.toNat = 2 ^ e := (zpow_natCast 2 _).symm.trans (by rw [he])
    change (num : ℚ) / ((den * 2 ^ e.toNat : ℕ) : ℚ) = _
    push_cast
    rw [hpow, div_div]

theorem two_zpow_pos (e : ℤ) : (0 : ℚ) < 2 ^ e := zpow_pos two_pos e

theorem two_zpow_eq (e : ℤ) : (2 : ℚ) ^ e = 2 * 2 ^ (e - 1) := by
  rw [← zpow_one_add₀ two_ne_zero, add_sub_cancel]

theorem scaled_lt_iff (num : Nat) {den : Nat} (hden : 0 < den) (e : Int) (n : Nat) :
    (scaled num den e).1 < (scaled num den e).2 * n ↔ (num : ℚ) / den < n * 2 ^ e := by
  have hpos : (0 : ℚ) < (scaled num den e).2 := by exact_mod_cast scaled_pos num hden e
  rw [← div_lt_iff₀ (two_zpow_pos e), ← scaled_eq, div_lt_iff₀ hpos, mul_comm (n : ℚ)]
  exact_mod_cast Iff.rfl

/-! ## The exponent of a quotient -/

theorem log2_bounds {n : Nat} (h : 0 < n) :
    (2 : ℚ) ^ (Nat.log2 n : ℤ) ≤ n ∧ (n : ℚ) < 2 ^ ((Nat.log2 n : ℤ) + 1) := by
  constructor
  · rw [zpow_natCast]
    exact_mod_cast Nat.log2_self_le h.ne'
  · have hlt := Nat.lt_log2_self (n := n)
    rw [show ((Nat.log2 n : ℤ) + 1) = ((Nat.log2 n + 1 : ℕ) : ℤ) by push_cast; ring, zpow_natCast]
    exact_mod_cast hlt

/-- The logarithms of the two numbers tell the quotient up to a factor of two. -/
theorem quotient_bounds {num den : Nat} (hnum : 0 < num) (hden : 0 < den) :
    (2 : ℚ) ^ (51 : ℕ) * 2 ^ ((Nat.log2 num : ℤ) - Nat.log2 den - 52) < num / den ∧
      (num : ℚ) / den < 2 ^ (53 : ℕ) * 2 ^ ((Nat.log2 num : ℤ) - Nat.log2 den - 52) := by
  have hd : (0 : ℚ) < den := by exact_mod_cast hden
  obtain ⟨hnumlow, hnumhigh⟩ := log2_bounds hnum
  obtain ⟨hdenlow, hdenhigh⟩ := log2_bounds hden
  have hlow := two_zpow_pos ((Nat.log2 num : ℤ) - Nat.log2 den - 52)
  have hleft : (2 : ℚ) ^ (51 : ℕ) * 2 ^ ((Nat.log2 num : ℤ) - Nat.log2 den - 52) *
      2 ^ ((Nat.log2 den : ℤ) + 1) = 2 ^ (Nat.log2 num : ℤ) := by
    rw [← zpow_natCast, ← zpow_add₀ two_ne_zero, ← zpow_add₀ two_ne_zero]
    congr 1
    push_cast
    ring
  have hright : (2 : ℚ) ^ (53 : ℕ) * 2 ^ ((Nat.log2 num : ℤ) - Nat.log2 den - 52) *
      2 ^ (Nat.log2 den : ℤ) = 2 ^ ((Nat.log2 num : ℤ) + 1) := by
    rw [← zpow_natCast, ← zpow_add₀ two_ne_zero, ← zpow_add₀ two_ne_zero]
    congr 1
    push_cast
    ring
  constructor
  · rw [lt_div_iff₀ hd]
    calc (2 : ℚ) ^ (51 : ℕ) * 2 ^ ((Nat.log2 num : ℤ) - Nat.log2 den - 52) * den
        < 2 ^ (51 : ℕ) * 2 ^ ((Nat.log2 num : ℤ) - Nat.log2 den - 52) *
            2 ^ ((Nat.log2 den : ℤ) + 1) := by gcongr
      _ = 2 ^ (Nat.log2 num : ℤ) := hleft
      _ ≤ num := hnumlow
  · rw [div_lt_iff₀ hd]
    calc (num : ℚ) < 2 ^ ((Nat.log2 num : ℤ) + 1) := hnumhigh
      _ = 2 ^ (53 : ℕ) * 2 ^ ((Nat.log2 num : ℤ) - Nat.log2 den - 52) * 2 ^ (Nat.log2 den : ℤ) :=
          hright.symm
      _ ≤ 2 ^ (53 : ℕ) * 2 ^ ((Nat.log2 num : ℤ) - Nat.log2 den - 52) * den := by gcongr

/-- Without regard to the least exponent, a quotient takes just 53 bits. -/
theorem exists_exponentFor_eq_max {num den : Nat} (hnum : 0 < num) (hden : 0 < den) :
    ∃ raw, exponentFor num den = max raw minExponent ∧
      (2 : ℚ) ^ (52 : ℕ) * 2 ^ raw ≤ num / den ∧ (num : ℚ) / den < 2 ^ (53 : ℕ) * 2 ^ raw := by
  obtain ⟨hlow, hhigh⟩ := quotient_bounds hnum hden
  generalize hguess : (Nat.log2 num : ℤ) - Nat.log2 den - 52 = guess at hlow hhigh
  have hcompare : (scaled num den guess).1 < (scaled num den guess).2 * 2 ^ 52 ↔
      (num : ℚ) / den < 2 ^ (52 : ℕ) * 2 ^ guess := by
    have hiff := scaled_lt_iff num hden guess (2 ^ 52)
    rwa [Nat.cast_pow, Nat.cast_ofNat] at hiff
  have hdefinition : exponentFor num den =
      max (if (scaled num den guess).1 < (scaled num den guess).2 * 2 ^ 52 then guess - 1
        else guess) minExponent := by
    rw [← hguess]
    rfl
  by_cases hsmall : (num : ℚ) / den < 2 ^ (52 : ℕ) * 2 ^ guess
  · refine ⟨guess - 1, ?_, ?_, ?_⟩
    · rw [hdefinition, if_pos (hcompare.mpr hsmall)]
    · have hhalf : (2 : ℚ) ^ (52 : ℕ) * 2 ^ (guess - 1) = 2 ^ (51 : ℕ) * 2 ^ guess := by
        rw [two_zpow_eq guess]
        ring
      rw [hhalf]
      exact hlow.le
    · have hdouble : (2 : ℚ) ^ (53 : ℕ) * 2 ^ (guess - 1) = 2 ^ (52 : ℕ) * 2 ^ guess := by
        rw [two_zpow_eq guess]
        ring
      rw [hdouble]
      exact hsmall
  · refine ⟨guess, ?_, le_of_not_gt hsmall, hhigh⟩
    rw [hdefinition, if_neg fun h => hsmall (hcompare.mp h)]

/-- A quotient takes 53 bits at its exponent, or less at the least exponent. -/
theorem exponentFor_spec {num den : Nat} (hnum : 0 < num) (hden : 0 < den) :
    minExponent ≤ exponentFor num den ∧
    (num : ℚ) / den < 2 ^ (53 : ℕ) * 2 ^ exponentFor num den ∧
    (exponentFor num den = minExponent ∨
      (2 : ℚ) ^ (52 : ℕ) * 2 ^ exponentFor num den ≤ num / den) := by
  obtain ⟨raw, hmax, hlow, hhigh⟩ := exists_exponentFor_eq_max hnum hden
  rw [hmax]
  refine ⟨le_max_right _ _, ?_, ?_⟩
  · have hmono : (2 : ℚ) ^ raw ≤ 2 ^ max raw minExponent :=
      zpow_le_zpow_right₀ one_le_two (le_max_left _ _)
    calc (num : ℚ) / den < 2 ^ (53 : ℕ) * 2 ^ raw := hhigh
      _ ≤ 2 ^ (53 : ℕ) * 2 ^ max raw minExponent := by gcongr
  · rcases le_total raw minExponent with hle | hle
    · exact .inl (max_eq_right hle)
    · rw [max_eq_left hle]
      exact .inr hlow

/-! ## Rounding -/

/-- A double is what a number that is not negative rounds to: no number with a mantissa of 53 bits is
nearer, or the number lies half a unit beyond the greatest double or farther. -/
def Rounds : Double → ℚ → Prop
  | .nan, _ => False
  | .infinite negative, x => negative = false ∧ ((2 : ℚ) ^ 53 - 1 / 2) * 2 ^ maxExponent ≤ x
  | .finite negative m e, x =>
    (m < 2 ^ 53 ∧ minExponent ≤ e ∧ e ≤ maxExponent) ∧
      ∀ (m' e' : ℤ), |m'| < 2 ^ 53 → minExponent ≤ e' →
        |(signed negative m : ℚ) * 2 ^ e - x| ≤ |(m' : ℚ) * 2 ^ e' - x|

/-- A mantissa that is off by half a unit at most is nearest among all numbers of 53 bits, if the
number rounded fills these bits or the exponent is the least one. -/
theorem nearest_of_half {x : ℚ} {m e : ℤ} (hm : |(m : ℚ) - x / 2 ^ e| ≤ 1 / 2)
    (he : e = minExponent ∨ (2 : ℚ) ^ (52 : ℕ) * 2 ^ e ≤ x) {m' e' : ℤ} (hm' : |m'| < 2 ^ 53)
    (he' : minExponent ≤ e') : |(m : ℚ) * 2 ^ e - x| ≤ |(m' : ℚ) * 2 ^ e' - x| := by
  have hpos := two_zpow_pos e
  -- on the grid of the exponent the mantissa is nearest
  have hgrid (k : ℤ) : |(m : ℚ) * 2 ^ e - x| ≤ |(k : ℚ) * 2 ^ e - x| := by
    have hnear := abs_sub_le_of_half hm k
    have hscale (n : ℤ) : |(n : ℚ) * 2 ^ e - x| = |(n : ℚ) - x / 2 ^ e| * 2 ^ e := by
      rw [← abs_of_pos hpos, ← abs_mul, abs_of_pos hpos, sub_mul, div_mul_cancel₀ _ hpos.ne']
    rw [hscale, hscale]
    exact mul_le_mul_of_nonneg_right hnear hpos.le
  rcases le_or_gt e e' with hle | hlt
  · have hmultiple : (m' : ℚ) * 2 ^ e' = ((m' * 2 ^ (e' - e).toNat : ℤ) : ℚ) * 2 ^ e := by
      have hdiff : ((e' - e).toNat : ℤ) = e' - e := Int.toNat_of_nonneg (by omega)
      push_cast
      rw [mul_assoc, ← zpow_natCast, hdiff, ← zpow_add₀ two_ne_zero, sub_add_cancel]
    rw [hmultiple]
    exact hgrid _
  · -- a number with a lesser exponent lies below the least one that fills the bits
    have hfull : (2 : ℚ) ^ (52 : ℕ) * 2 ^ e ≤ x := by
      rcases he with rfl | hfull
      · exact absurd hlt (not_lt.mpr he')
      · exact hfull
    have hbelow : (m' : ℚ) * 2 ^ e' ≤ 2 ^ (52 : ℕ) * 2 ^ e := by
      have hm'' : (m' : ℚ) ≤ 2 ^ (53 : ℕ) := by exact_mod_cast (le_of_abs_le hm'.le)
      have hstep : (2 : ℚ) ^ e' ≤ 2 ^ (e - 1) := zpow_le_zpow_right₀ one_le_two (by omega)
      calc (m' : ℚ) * 2 ^ e' ≤ 2 ^ (53 : ℕ) * 2 ^ e' :=
            mul_le_mul_of_nonneg_right hm'' (two_zpow_pos e').le
        _ ≤ 2 ^ (53 : ℕ) * 2 ^ (e - 1) := by gcongr
        _ = 2 ^ (52 : ℕ) * 2 ^ e := by rw [two_zpow_eq e]; ring
    have hedge := hgrid (2 ^ 52)
    push_cast at hedge
    refine hedge.trans ?_
    rw [abs_of_nonpos (by linarith), abs_of_nonpos (by linarith)]
    linarith

/-- The mantissa that a quotient has at its exponent, which may need one bit more. -/
def mantissaFor (num den : Nat) : Nat :=
  roundDiv (scaled num den (exponentFor num den)).1 (scaled num den (exponentFor num den)).2

theorem mantissaFor_le {num den : Nat} (hnum : 0 < num) (hden : 0 < den) :
    mantissaFor num den ≤ 2 ^ 53 := by
  apply roundDiv_le (scaled_pos num hden _)
  have hlt := (scaled_lt_iff num hden (exponentFor num den) (2 ^ 53)).mpr (by
    rw [Nat.cast_pow, Nat.cast_ofNat]
    exact (exponentFor_spec hnum hden).2.1)
  rw [Nat.mul_comm]
  exact hlt.le

theorem ofRatio_of_carry (negative : Bool) {num den : Nat} (hnum : 0 < num)
    (h : mantissaFor num den = 2 ^ 53) :
    ofRatio negative num den =
      if maxExponent < exponentFor num den + 1 then .infinite negative
      else .finite negative (2 ^ 52) (exponentFor num den + 1) := by
  have hne : ¬ (num == 0) = true := by simpa using hnum.ne'
  have hcarry : (mantissaFor num den == Nat.pow 2 53) = true := by rw [Nat.pow_eq, h, beq_self_eq_true]
  rw [← Nat.pow_eq]
  unfold mantissaFor at hcarry
  revert hcarry
  delta ofRatio
  rw [if_neg hne]
  extract_lets e
  change (roundDiv (scaled num den e).1 (scaled num den e).2 == Nat.pow 2 53) = true → _
  cases scaled num den e with
  | mk n d =>
    intro hcarry
    dsimp only at hcarry ⊢
    rw [if_pos hcarry]

theorem ofRatio_of_lt_carry (negative : Bool) {num den : Nat} (hnum : 0 < num)
    (h : mantissaFor num den < 2 ^ 53) :
    ofRatio negative num den =
      if maxExponent < exponentFor num den then .infinite negative
      else .finite negative (mantissaFor num den) (exponentFor num den) := by
  have hne : ¬ (num == 0) = true := by simpa using hnum.ne'
  have hcarry : ¬ (mantissaFor num den == Nat.pow 2 53) = true := by
    rw [Nat.pow_eq, beq_iff_eq]
    exact h.ne
  unfold mantissaFor at hcarry ⊢
  revert hcarry
  delta ofRatio
  rw [if_neg hne]
  extract_lets e
  change ¬ (roundDiv (scaled num den e).1 (scaled num den e).2 == Nat.pow 2 53) = true → _ =
    if maxExponent < e then Double.infinite negative
    else Double.finite negative (roundDiv (scaled num den e).1 (scaled num den e).2) e
  cases scaled num den e with
  | mk n d =>
    intro hcarry
    dsimp only at hcarry ⊢
    rw [if_neg hcarry]

theorem abs_mantissaFor_sub_le (num : Nat) {den : Nat} (hden : 0 < den) :
    |(mantissaFor num den : ℚ) - num / den / 2 ^ exponentFor num den| ≤ 1 / 2 := by
  have herror := abs_roundDiv_sub_le (scaled num den (exponentFor num den)).1
    (scaled_pos num hden (exponentFor num den))
  rwa [scaled_eq, ← mantissaFor] at herror

theorem zero_rounds (den : Nat) : (ofRatio false 0 den).Rounds (0 / den) := by
  have hzero : ofRatio false 0 den = .finite false 0 minExponent := rfl
  rw [hzero, zero_div]
  refine ⟨⟨by decide, le_refl _, by decide⟩, fun m' e' _ _ => ?_⟩
  have hleft : ((signed false 0 : ℤ) : ℚ) * 2 ^ minExponent - 0 = 0 := by simp [signed]
  rw [hleft, abs_zero]
  exact abs_nonneg _

theorem ofRatio_rounds_of_lt_carry {num den : Nat} (hnum : 0 < num) (hden : 0 < den)
    (h : mantissaFor num den < 2 ^ 53) : (ofRatio false num den).Rounds (num / den) := by
  obtain ⟨hmin, -, hlow⟩ := exponentFor_spec hnum hden
  have herror := abs_mantissaFor_sub_le num hden
  rw [ofRatio_of_lt_carry false hnum h]
  split
  · rename_i hover
    have hfull := hlow.resolve_left fun hleast => absurd (hleast ▸ hover) (by decide)
    have hstep : (2 : ℚ) ^ (maxExponent + 1) ≤ 2 ^ exponentFor num den :=
      zpow_le_zpow_right₀ one_le_two (by omega)
    rw [two_zpow_eq, add_sub_cancel_right] at hstep
    refine ⟨rfl, ?_⟩
    calc ((2 : ℚ) ^ 53 - 1 / 2) * 2 ^ maxExponent ≤ 2 ^ 53 * 2 ^ maxExponent := by
          apply mul_le_mul_of_nonneg_right _ (two_zpow_pos maxExponent).le
          linarith
      _ = 2 ^ 52 * (2 * 2 ^ maxExponent) := by ring
      _ ≤ 2 ^ 52 * 2 ^ exponentFor num den := by gcongr
      _ ≤ num / den := hfull
  · rename_i hover
    refine ⟨⟨h, hmin, not_lt.mp hover⟩, fun m' e' hm' he' => ?_⟩
    exact nearest_of_half (m := (mantissaFor num den : ℤ)) (by exact_mod_cast herror) hlow hm' he'

/-- A carry changes how a number is written and not the number. -/
theorem ofRatio_rounds_of_carry {num den : Nat} (hnum : 0 < num) (hden : 0 < den)
    (h : mantissaFor num den = 2 ^ 53) : (ofRatio false num den).Rounds (num / den) := by
  obtain ⟨hmin, -, hlow⟩ := exponentFor_spec hnum hden
  have herror := abs_mantissaFor_sub_le num hden
  have hcast : (mantissaFor num den : ℚ) = 2 ^ 53 := by rw [h, Nat.cast_pow, Nat.cast_ofNat]
  rw [ofRatio_of_carry false hnum h]
  split
  · rename_i hover
    have hquot : ((mantissaFor num den : ℚ) - 1 / 2) * 2 ^ exponentFor num den ≤ num / den := by
      rw [← le_div_iff₀ (two_zpow_pos _)]
      linarith [(abs_le.mp herror).2]
    have hstep : (2 : ℚ) ^ maxExponent ≤ 2 ^ exponentFor num den :=
      zpow_le_zpow_right₀ one_le_two (by omega)
    rw [hcast] at hquot
    refine ⟨rfl, le_trans ?_ hquot⟩
    apply mul_le_mul_of_nonneg_left hstep
    norm_num
  · rename_i hover
    refine ⟨⟨by decide, by omega, not_lt.mp hover⟩, fun m' e' hm' he' => ?_⟩
    have hvalue : ((signed false (2 ^ 52) : ℤ) : ℚ) * 2 ^ (exponentFor num den + 1) =
        ((mantissaFor num den : ℤ) : ℚ) * 2 ^ exponentFor num den := by
      have hsigned : signed false (2 ^ 52) = ((2 ^ 52 : ℕ) : ℤ) := rfl
      rw [hsigned, zpow_add_one₀ two_ne_zero, Int.cast_natCast, Int.cast_natCast, hcast,
        Nat.cast_pow, Nat.cast_ofNat]
      ring
    rw [hvalue]
    exact nearest_of_half (by exact_mod_cast herror) hlow hm' he'

/-- A quotient is rounded to the double nearest to it. -/
theorem ofRatio_rounds (num : Nat) {den : Nat} (hden : 0 < den) :
    (ofRatio false num den).Rounds (num / den) := by
  rcases Nat.eq_zero_or_pos num with rfl | hnum
  · rw [Nat.cast_zero]
    exact zero_rounds den
  rcases Nat.lt_or_ge (mantissaFor num den) (2 ^ 53) with hlt | hge
  · exact ofRatio_rounds_of_lt_carry hnum hden hlt
  · exact ofRatio_rounds_of_carry hnum hden (le_antisymm (mantissaFor_le hnum hden) hge)

/-- A quotient below half of what doubles reach has a finite double. -/
theorem ofRatio_of_lt (negative : Bool) {num den : Nat} (hden : 0 < den)
    (h : (num : ℚ) / den < 2 ^ 52 * 2 ^ maxExponent) :
    ∃ m e, ofRatio negative num den = .finite negative m e := by
  rcases Nat.eq_zero_or_pos num with rfl | hnum
  · exact ⟨0, minExponent, rfl⟩
  have hexponent : exponentFor num den < maxExponent := by
    rcases (exponentFor_spec hnum hden).2.2 with hmin | hfull
    · rw [hmin]
      decide
    · have hpow := lt_of_mul_lt_mul_left (hfull.trans_lt h) (by positivity)
      exact (zpow_lt_zpow_iff_right₀ one_lt_two).mp hpow
  rcases Nat.lt_or_ge (mantissaFor num den) (2 ^ 53) with hlt | hge
  · refine ⟨mantissaFor num den, exponentFor num den, ?_⟩
    rw [ofRatio_of_lt_carry negative hnum hlt, if_neg (by omega)]
  · have hcarry : mantissaFor num den = 2 ^ 53 := le_antisymm (mantissaFor_le hnum hden) hge
    refine ⟨2 ^ 52, exponentFor num den + 1, ?_⟩
    rw [ofRatio_of_carry negative hnum hcarry, if_neg (by omega)]

theorem quotient?_of_lt {num den : Nat} (hden : 0 < den) (h : (num : ℚ) / den < 2 ^ 52 * 2 ^ maxExponent) :
    ∃ m e, ofRatio false num den = .finite false m e ∧ quotient? num den = some (.finite false m e) := by
  obtain ⟨m, e, hfinite⟩ := ofRatio_of_lt false hden h
  have hsign : (decide ((num : Int) < 0) != decide ((den : Int) < 0)) = false := by
    rw [decide_eq_false (by omega), decide_eq_false (by omega)]
    rfl
  refine ⟨m, e, hfinite, ?_⟩
  rw [quotient?, hsign, Int.natAbs_natCast, Int.natAbs_natCast, hfinite]

/-! ## Signs -/

theorem ofRatio_sign (negative : Bool) (num den : Nat) :
    ofRatio negative num den = .infinite negative ∨
      ∃ m e, ofRatio negative num den = .finite negative m e := by
  delta ofRatio
  split
  · exact .inr ⟨_, _, rfl⟩
  · extract_lets e
    cases scaled num den e with
    | mk n d =>
      dsimp only
      generalize (if (roundDiv n d == Nat.pow 2 53) = true then (Nat.pow 2 52, e + 1)
        else (roundDiv n d, e)) = written
      split
      · exact .inl rfl
      · exact .inr ⟨_, _, rfl⟩

theorem truncate_ofRatio_nonneg (num den : Nat) : 0 ≤ (ofRatio false num den).truncate := by
  rcases ofRatio_sign false num den with h | ⟨m, e, h⟩
  · rw [h]
    exact le_refl 0
  · rw [h]
    exact Int.natCast_nonneg _

/-- The sum of two numbers that are not negative is computed exactly at the lesser of the two exponents and
then rounded. -/
theorem add_of_nonneg (m m' : Nat) (e e' : Int) :
    (finite false m e).add (finite false m' e') =
      ofRatio false
        (scaled (m * 2 ^ (e - min e e').toNat + m' * 2 ^ (e' - min e e').toNat) 1 (-min e e')).1
        (scaled (m * 2 ^ (e - min e e').toNat + m' * 2 ^ (e' - min e e').toNat) 1 (-min e e')).2 := by
  have htotal : signed false (m * Nat.pow 2 (e - min e e').toNat) + signed false (m' * Nat.pow 2 (e' - min e e').toNat) =
      ((m * 2 ^ (e - min e e').toNat + m' * 2 ^ (e' - min e e').toNat : Nat) : Int) := rfl
  delta add
  dsimp only
  rw [htotal]
  generalize m * 2 ^ (e - min e e').toNat + m' * 2 ^ (e' - min e e').toNat = total
  have hsign : (if ((total : Int) == 0) = true then false && false else decide ((total : Int) < 0)) = false := by
    split
    · rfl
    · exact decide_eq_false (not_lt.mpr (Int.natCast_nonneg total))
  rw [hsign, Int.natAbs_natCast]

/-- The sum of two numbers that are not negative is not negative. -/
theorem truncate_add_nonneg (m m' : Nat) (e e' : Int) :
    0 ≤ ((finite false m e).add (finite false m' e')).truncate := by
  rw [add_of_nonneg]
  exact truncate_ofRatio_nonneg _ _

end Double

end CodeCensus
