import CodeCensus.Proofs.Census.Statistics
import CodeCensus.Proofs.Number.Truncation

/-! The percentage of tests is that of exact numbers, although it is computed with doubles: the quotient and the
sum are rounded, but up to 2^40 files no share comes so near to a half that the two errors could reach it. -/

namespace CodeCensus

/-- The percentage as an exact number, rounded to the nearest integer, a half up. -/
def exactPercent (tests total : Int) : Int := ⌊(200 * tests + total : ℚ) / (2 * total)⌋

section exactPercent

variable {tests more total : Int}

/-- The share with a half added, in percent. -/
theorem share_add_half (tests : Int) (hpos : 1 ≤ total) :
    (200 * tests + total : ℚ) / (2 * total) = 100 * tests / total + 1 / 2 := by
  have htotal : (0 : ℚ) < total := by exact_mod_cast hpos
  field_simp
  ring

theorem exactPercent_mono (hpos : 1 ≤ total) (h : tests ≤ more) : exactPercent tests total ≤ exactPercent more total := by
  have htotal : (0 : ℚ) < 2 * total := by exact_mod_cast (by omega : 0 < 2 * total)
  have hmore : (200 * tests + total : ℚ) ≤ 200 * more + total := by
    exact_mod_cast (by omega : 200 * tests + total ≤ 200 * more + total)
  exact Int.floor_mono ((div_le_div_iff_of_pos_right htotal).mpr hmore)

theorem exactPercent_zero (hpos : 1 ≤ total) : exactPercent 0 total = 0 := by
  rw [exactPercent, share_add_half 0 hpos, Int.cast_zero, mul_zero, zero_div]
  norm_num

theorem exactPercent_self (hpos : 1 ≤ total) : exactPercent total total = 100 := by
  have htotal : (0 : ℚ) < total := by exact_mod_cast hpos
  rw [exactPercent, share_add_half total hpos, mul_div_cancel_right₀ _ htotal.ne']
  norm_num

/-- Between a share and the next half above it there is room for one part in twice the number of all. -/
theorem exactPercent_bounds (tests : Int) (hpos : 1 ≤ total) :
    (exactPercent tests total : ℚ) ≤ 100 * tests / total + 1 / 2 ∧
      (100 * tests / total + 1 / 2 + 1 / (2 * total) : ℚ) ≤ exactPercent tests total + 1 := by
  have htotal : (0 : ℚ) < 2 * total := by exact_mod_cast (by omega : 0 < 2 * total)
  have hlt := Int.lt_floor_add_one ((200 * tests + total : ℚ) / (2 * total))
  rw [← exactPercent, div_lt_iff₀ htotal] at hlt
  have hnext : 200 * tests + total + 1 ≤ (exactPercent tests total + 1) * (2 * total) :=
    Int.add_one_le_of_lt (by exact_mod_cast hlt)
  rw [← share_add_half tests hpos]
  refine ⟨Int.floor_le _, ?_⟩
  rw [← add_div, div_le_iff₀ htotal]
  exact_mod_cast hnext

end exactPercent

/-- How doubles make a percentage: the share is rounded, its sum with a half is rounded, and the fraction of that is
cut off. -/
structure PercentOf (tests total percent : Int) (quotient : Double) : Prop where
  divided : Double.quotient? (100 * tests) total = some quotient
  division : quotient.Rounds (100 * tests / total)
  addition : (quotient.add .half).Rounds (quotient.value + 1 / 2)
  truncation : percent = (quotient.add .half).truncate

/-- Up to 2^40 files the quotient and the sum may both be rounded and the percentage is exact. -/
theorem exists_percentOf_exactPercent {tests total : Nat} (hpos : 1 ≤ total) (hmax : total ≤ 2 ^ 40)
    (h : tests ≤ total) : ∃ quotient, PercentOf tests total (exactPercent tests total) quotient := by
  have htotal : (0 : ℚ) < total := by exact_mod_cast hpos
  have hpos' : (1 : Int) ≤ total := by exact_mod_cast hpos
  obtain ⟨m, e, hfinite, hdivided⟩ := quotient?_of_le hpos h
  have hrounds := Double.ofRatio_rounds (100 * tests) hpos
  obtain ⟨hfloor, hroom⟩ := exactPercent_bounds tests hpos'
  rw [hfinite, Nat.cast_mul, Nat.cast_ofNat] at hrounds
  rw [Int.cast_natCast, Int.cast_natCast] at hfloor hroom
  refine ⟨.finite false m e, hdivided, hrounds, Double.add_half_rounds m e, ?_⟩
  have hsize : (100 * tests : ℚ) / total + 1 ≤ 2 ^ 53 * 2 ^ (-46 : ℤ) := by
    have hle : (100 * tests : ℚ) / total ≤ 100 := by
      rw [div_le_iff₀ htotal]
      exact_mod_cast Nat.mul_le_mul_left 100 h
    calc (100 * tests : ℚ) / total + 1 ≤ 100 + 1 := by gcongr
      _ ≤ 2 ^ 53 * 2 ^ (-46 : ℤ) := by norm_num
  have hgap : 2 * (2 : ℚ) ^ (-46 : ℤ) < 1 / (2 * total) := by
    have hmax' : (total : ℚ) ≤ 2 ^ 40 := by exact_mod_cast hmax
    rw [lt_div_iff₀ (by linarith)]
    calc 2 * (2 : ℚ) ^ (-46 : ℤ) * (2 * total) ≤ 2 * (2 : ℚ) ^ (-46 : ℤ) * (2 * 2 ^ 40) := by gcongr
      _ < 1 := by norm_num
  exact (Double.truncate_add_half hrounds (by positivity) (by decide) (by decide) hsize hfloor
    (by linarith)).symm

/-- For up to 2^40 files, the percentage of tests that is computed with doubles is the exact one with a half
rounded up. It is one of 0 to 100, does not fall where more files are tests, and is 100 where all are. -/
theorem coveragePercent?_halfUp {total : Int} (hpos : 1 ≤ total) (hmax : total ≤ 2 ^ 40) :
    (∀ tests, 0 ≤ tests → tests ≤ total → ∃ percent quotient, PercentOf tests total percent quotient ∧
      coveragePercent? tests total = some percent ∧
      percent = ⌊(200 * tests + total : ℚ) / (2 * total)⌋ ∧ 0 ≤ percent ∧ percent ≤ 100) ∧
    (∀ fewer more, 0 ≤ fewer → fewer ≤ more → more ≤ total → ∃ percent percent',
      coveragePercent? fewer total = some percent ∧ coveragePercent? more total = some percent' ∧
        percent ≤ percent') ∧
    coveragePercent? total total = some 100 := by
  have hle {tests : Int} (h : tests ≤ total) : exactPercent tests total ≤ 100 :=
    (exactPercent_mono hpos h).trans_eq (exactPercent_self hpos)
  have hpercent {tests : Int} (hnonneg : 0 ≤ tests) (h : tests ≤ total) :
      ∃ quotient, PercentOf tests total (exactPercent tests total) quotient := by
    lift total to ℕ using by omega
    lift tests to ℕ using hnonneg
    exact exists_percentOf_exactPercent (by exact_mod_cast hpos) (by exact_mod_cast hmax) (by exact_mod_cast h)
  have hexact {tests : Int} (hnonneg : 0 ≤ tests) (h : tests ≤ total) :
      coveragePercent? tests total = some (exactPercent tests total) := by
    obtain ⟨quotient, hquotient⟩ := hpercent hnonneg h
    rw [coveragePercent?_of_quotient? (by omega) hquotient.divided, ← hquotient.truncation, min_eq_right (hle h)]
  refine ⟨fun tests hnonneg h => ?_, fun fewer more hnonneg h h' => ?_, ?_⟩
  · obtain ⟨quotient, hquotient⟩ := hpercent hnonneg h
    exact ⟨exactPercent tests total, quotient, hquotient, hexact hnonneg h, rfl,
      (exactPercent_zero hpos).ge.trans (exactPercent_mono hpos hnonneg), hle h⟩
  · exact ⟨exactPercent fewer total, exactPercent more total, hexact hnonneg (h.trans h'),
      hexact (hnonneg.trans h) h', exactPercent_mono hpos h⟩
  · rw [hexact (by omega) le_rfl, exactPercent_self hpos]

/-- Of 2^40 files, 2^37 are 12.5 percent, and one less is still below the half. -/
theorem coveragePercent?_halfUp_mostFiles :
    (1 : Int) ≤ 2 ^ 40 ∧ (2 ^ 40 : Int) ≤ 2 ^ 40 ∧ coveragePercent? (2 ^ 37) (2 ^ 40) = some 13 ∧
      coveragePercent? (2 ^ 37 - 1) (2 ^ 40) = some 12 ∧ coveragePercent? (2 ^ 40) (2 ^ 40) = some 100 := by
  have hpos : (1 : Int) ≤ 2 ^ 40 := by decide
  obtain ⟨hhalfUp, -, hall⟩ := coveragePercent?_halfUp hpos le_rfl
  obtain ⟨half, -, -, hhalf, hfloor, -⟩ := hhalfUp (2 ^ 37) (by decide) (by decide)
  obtain ⟨below, -, -, hbelow, hfloor', -⟩ := hhalfUp (2 ^ 37 - 1) (by decide) (by decide)
  have hthirteen : half = 13 := hfloor.trans (by norm_num)
  have htwelve : below = 12 := hfloor'.trans (by norm_num)
  exact ⟨hpos, le_rfl, hthirteen ▸ hhalf, htwelve ▸ hbelow, hall⟩

end CodeCensus
