import CodeCensus.Proofs.Number.Rounding
import Mathlib.Data.Rat.Floor

/-! How far a rounded number can be from the exact one, and what is left of it once its fraction is cut off.
Rounding does not pass a number that is itself a double, and it is off by no more than one unit of the last place;
so what is cut off a rounded number is cut off the exact one, if that is not too close below an integer. -/

namespace CodeCensus.Double

/-- The number that a finite double stands for. -/
def value : Double → ℚ
  | .finite negative m e => signed negative m * 2 ^ e
  | _ => 0

theorem value_half : half.value = 1 / 2 := by
  have hmantissa : ((signed false (Nat.pow 2 52) : ℤ) : ℚ) = 2 ^ (52 : ℤ) := by
    change ((2 ^ 52 : ℕ) : ℚ) = _
    norm_num
  rw [half, value, hmantissa, ← zpow_add₀ two_ne_zero]
  norm_num

/-! ## Sums -/

/-- The sum of two doubles that are not negative is the exact sum rounded. -/
theorem add_rounds (m m' : Nat) (e e' : Int) :
    ((finite false m e).add (finite false m' e')).Rounds
      ((finite false m e).value + (finite false m' e').value) := by
  have hshift (k : Nat) {f : Int} (hf : min e e' ≤ f) :
      ((k * 2 ^ (f - min e e').toNat : ℕ) : ℚ) * 2 ^ min e e' = (signed false k : ℤ) * 2 ^ f := by
    have hdiff : ((f - min e e').toNat : ℤ) = f - min e e' := Int.toNat_of_nonneg (by omega)
    have hsigned : ((signed false k : ℤ) : ℚ) = k := rfl
    rw [Nat.cast_mul, Nat.cast_pow, Nat.cast_ofNat, mul_assoc, ← zpow_natCast, hdiff, ← zpow_add₀ two_ne_zero,
      sub_add_cancel, hsigned]
  rw [add_of_nonneg]
  have hrounds := ofRatio_rounds
    (scaled (m * 2 ^ (e - min e e').toNat + m' * 2 ^ (e' - min e e').toNat) 1 (-min e e')).1
    (scaled_pos (m * 2 ^ (e - min e e').toNat + m' * 2 ^ (e' - min e e').toNat) one_pos (-min e e'))
  rw [scaled_eq, Nat.cast_one, div_one, zpow_neg, div_inv_eq_mul, Nat.cast_add, add_mul,
    hshift m (min_le_left e e'), hshift m' (min_le_right e e')] at hrounds
  exact hrounds

theorem add_half_rounds (m : Nat) (e : Int) :
    ((finite false m e).add half).Rounds ((finite false m e).value + 1 / 2) := by
  have hrounds := add_rounds m (Nat.pow 2 52) e (-53)
  rwa [← half, value_half] at hrounds

/-! ## Distances -/

section Rounds

variable {d : Double} {x : ℚ}

/-- No number with a mantissa of 53 bits is nearer than the rounded one, far from where doubles end. -/
theorem Rounds.abs_value_sub_le (h : d.Rounds x) (hx : x < 2 ^ 52 * 2 ^ maxExponent) {m e : ℤ}
    (hm : |m| < 2 ^ 53) (he : minExponent ≤ e) : |d.value - x| ≤ |(m : ℚ) * 2 ^ e - x| := by
  match d, h with
  | .finite negative m' e', ⟨_, hnearest⟩ => exact hnearest m e hm he
  | .infinite negative, ⟨_, hover⟩ =>
    have hpos := two_zpow_pos maxExponent
    have hle : (2 : ℚ) ^ 52 * 2 ^ maxExponent ≤ (2 ^ 53 - 1 / 2) * 2 ^ maxExponent :=
      mul_le_mul_of_nonneg_right (by norm_num) hpos.le
    exact absurd (hle.trans hover) (not_le.mpr hx)

/-- Rounding does not bring a number below a double that it is not below itself. -/
theorem Rounds.le_value (h : d.Rounds x) (hx : x < 2 ^ 52 * 2 ^ maxExponent) {m e : ℤ}
    (hm : |m| < 2 ^ 53) (he : minExponent ≤ e) (hle : (m : ℚ) * 2 ^ e ≤ x) : (m : ℚ) * 2 ^ e ≤ d.value := by
  have hnearest := h.abs_value_sub_le hx hm he
  rw [abs_of_nonpos (sub_nonpos.mpr hle)] at hnearest
  linarith [neg_abs_le (d.value - x)]

theorem Rounds.int_le_value (h : d.Rounds x) (hx : x < 2 ^ 52 * 2 ^ maxExponent) {k : ℤ} (hk : |k| < 2 ^ 53)
    (hle : (k : ℚ) ≤ x) : (k : ℚ) ≤ d.value := by
  have hvalue : (k : ℚ) * 2 ^ (0 : ℤ) = k := by rw [zpow_zero, mul_one]
  rw [← hvalue] at hle ⊢
  exact h.le_value hx hk (by decide) hle

theorem Rounds.half_le_value (h : d.Rounds x) (hx : x < 2 ^ 52 * 2 ^ maxExponent) {k : ℤ}
    (hk : |2 * k - 1| < 2 ^ 53) (hle : (k : ℚ) - 1 / 2 ≤ x) : (k : ℚ) - 1 / 2 ≤ d.value := by
  have hvalue : ((2 * k - 1 : ℤ) : ℚ) * 2 ^ (-1 : ℤ) = k - 1 / 2 := by
    push_cast
    ring
  rw [← hvalue] at hle ⊢
  exact h.le_value hx hk (by decide) hle

/-- A number that is not negative is off by one unit of the last place at most. -/
theorem Rounds.abs_value_sub_le_unit (h : d.Rounds x) (hx : x < 2 ^ 52 * 2 ^ maxExponent) (hnonneg : 0 ≤ x)
    {e : ℤ} (he : minExponent ≤ e) (hlt : x < 2 ^ 53 * 2 ^ e) : |d.value - x| ≤ 2 ^ e := by
  have hpos := two_zpow_pos e
  have hquot : x = x / 2 ^ e * 2 ^ e := (div_mul_cancel₀ x hpos.ne').symm
  have hfloor : (⌊x / 2 ^ e⌋ : ℚ) ≤ x / 2 ^ e := Int.floor_le _
  have hfloor' : x / 2 ^ e < ⌊x / 2 ^ e⌋ + 1 := Int.lt_floor_add_one _
  have hmantissa : |⌊x / 2 ^ e⌋| < 2 ^ 53 := by
    have hbelow : x / 2 ^ e < 2 ^ 53 := (div_lt_iff₀ hpos).mpr hlt
    rw [abs_of_nonneg (Int.floor_nonneg.mpr (div_nonneg hnonneg hpos.le)), Int.floor_lt]
    exact_mod_cast hbelow
  refine (h.abs_value_sub_le hx hmantissa he).trans ?_
  rw [abs_le]
  constructor <;> nlinarith

end Rounds

/-! ## Truncation -/

/-- To cut off the fraction of a number that is not negative is to take its floor. -/
theorem truncate_eq_floor {d : Double} (h : 0 ≤ d.value) : d.truncate = ⌊d.value⌋ := by
  match d with
  | .nan => exact Int.floor_zero.symm
  | .infinite negative => exact Int.floor_zero.symm
  | .finite negative m e =>
    have hdiv : (((scaled m 1 (-e)).1 / (scaled m 1 (-e)).2 : ℕ) : ℤ) = ⌊(m : ℚ) * 2 ^ e⌋ := by
      have hfloor := Rat.floor_natCast_div_natCast (scaled m 1 (-e)).1 (scaled m 1 (-e)).2
      rw [scaled_eq, Nat.cast_one, div_one, zpow_neg, div_inv_eq_mul] at hfloor
      exact hfloor.symm
    have htruncate : (finite negative m e).truncate =
        signed negative ((scaled m 1 (-e)).1 / (scaled m 1 (-e)).2) := rfl
    cases negative with
    | false =>
      rw [htruncate]
      exact hdiv
    | true =>
      -- the only number with a minus sign that is not negative is zero
      have hvalue : (finite true m e).value = -((m : ℚ) * 2 ^ e) := by
        rw [value, signed, if_pos rfl, Int.cast_neg, Int.cast_natCast, neg_mul]
      have hzero : (m : ℚ) * 2 ^ e = 0 := by
        have hpos : (0 : ℚ) ≤ m * 2 ^ e := mul_nonneg (Nat.cast_nonneg m) (two_zpow_pos e).le
        rw [hvalue] at h
        linarith
      rw [hzero, Int.floor_zero] at hdiv
      rw [htruncate, hvalue, hzero, neg_zero, Int.floor_zero, signed, if_pos rfl, hdiv, neg_zero]

/-- A half added to a rounded number and the fraction cut off rounds the exact number to the nearest integer, a
half up, if there is room for both errors below the next half. `u` is the last place of numbers of this size. -/
theorem truncate_add_half {m : Nat} {e u k : ℤ} {x : ℚ} (h : (finite false m e).Rounds x) (hnonneg : 0 ≤ x)
    (hu : minExponent ≤ u) (hu' : u ≤ -2) (hx : x + 1 ≤ 2 ^ 53 * 2 ^ u) (hk : (k : ℚ) ≤ x + 1 / 2)
    (hgap : x + 1 / 2 + 2 * 2 ^ u < k + 1) : ((finite false m e).add half).truncate = k := by
  have hunit := two_zpow_pos u
  have hquarter : (2 : ℚ) ^ u ≤ 1 / 4 := (zpow_le_zpow_right₀ one_le_two hu').trans_eq (by norm_num)
  have hrange {y : ℚ} (hy : y ≤ 2 ^ 53 * 2 ^ u) : y < 2 ^ 52 * 2 ^ maxExponent := by
    have hone : (1 : ℚ) ≤ 2 ^ maxExponent := one_le_zpow₀ one_le_two (by decide)
    linarith
  have hk0 : 0 ≤ k := by
    have hlt : (-1 : ℚ) < k := by linarith
    have hlt' : -1 < k := by exact_mod_cast hlt
    omega
  have hk52 : 2 * k < 2 ^ 52 := by
    have hlt : (2 * k : ℚ) < 2 ^ 52 := by linarith
    exact_mod_cast hlt
  -- neither rounding passes below the half, or the integer, that the number has reached
  have hquotient : (k : ℚ) - 1 / 2 ≤ (finite false m e).value :=
    h.half_le_value (hrange (by linarith)) (by rw [abs_lt]; omega) (by linarith)
  have herror := abs_le.mp (h.abs_value_sub_le_unit (hrange (by linarith)) hnonneg hu (by linarith))
  have hsum := add_half_rounds m e
  have hk0' : (0 : ℚ) ≤ k := by exact_mod_cast hk0
  have hsumRange : (finite false m e).value + 1 / 2 < 2 ^ 53 * 2 ^ u := by linarith
  have hlow : (k : ℚ) ≤ ((finite false m e).add half).value :=
    hsum.int_le_value (hrange hsumRange.le) (by rw [abs_lt]; omega) (by linarith)
  have herror' := abs_le.mp (hsum.abs_value_sub_le_unit (hrange hsumRange.le) (by linarith) hu hsumRange)
  rw [truncate_eq_floor (hk0'.trans hlow), Int.floor_eq_iff]
  exact ⟨hlow, by linarith⟩

end CodeCensus.Double
