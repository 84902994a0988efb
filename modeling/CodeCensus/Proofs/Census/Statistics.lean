import CodeCensus.Census.Basic
import CodeCensus.Census.Tally
import CodeCensus.Proofs.Number.Rounding

/-! The figures of a census. Tallies of neighbouring runs of files add up to the tally of both, the order of the names
included. The others are no sums: the percentage of tests, and the greatest, the least and the average complexity. -/

namespace CodeCensus

/-! ## Counts -/

theorem addCount_addCount (name : String) (m n : Int) (counts : List (String × Int)) :
    addCount name n (addCount name m counts) = addCount name (m + n) counts := by
  induction counts with
  | nil => simp [addCount]
  | cons entry rest ih =>
    obtain ⟨other, k⟩ := entry
    by_cases h : other = name
    · simp [addCount, h, Int.add_assoc]
    · simp [addCount, h, ih]

theorem addCount_comm {name : String} {counts : List (String × Int)}
    (h : name ∈ counts.map Prod.fst) (n : Int) (other : String) (k : Int) :
    addCount other k (addCount name n counts) = addCount name n (addCount other k counts) := by
  by_cases hne : other = name
  · rw [hne, addCount_addCount, addCount_addCount, Int.add_comm]
  · induction counts with
    | nil => simp at h
    | cons entry rest ih =>
      obtain ⟨first, c⟩ := entry
      by_cases hfirst : first = name
      · have hother : ¬ first = other := fun e => hne (e.symm.trans hfirst)
        simp [addCount, hfirst, Ne.symm hne]
      · have hrest : name ∈ rest.map Prod.fst := by
          rcases List.mem_cons.mp h with h | h
          · exact absurd h.symm hfirst
          · exact h
        by_cases hfirst' : first = other
        · simp [addCount, hfirst', hne]
        · simp [addCount, hfirst, hfirst', ih hrest]

theorem mem_names_addCount (name : String) (n : Int) (counts : List (String × Int)) :
    name ∈ (addCount name n counts).map Prod.fst := by
  rw [names_addCount]
  split
  · assumption
  · simp

theorem mem_names_addCount_of_mem {name : String} {counts : List (String × Int)}
    (h : name ∈ counts.map Prod.fst) (other : String) (k : Int) :
    name ∈ (addCount other k counts).map Prod.fst := by
  rw [names_addCount]
  split
  · exact h
  · exact List.mem_append_left _ h

/-- All counts of a list added to others. -/
def addCounts (counts : List (String × Int)) (added : List (String × Int)) : List (String × Int) :=
  added.foldl (fun counts (name, n) => addCount name n counts) counts

theorem addCounts_addCount {name : String} {counts : List (String × Int)}
    (h : name ∈ counts.map Prod.fst) (n : Int) (added : List (String × Int)) :
    addCounts (addCount name n counts) added = addCount name n (addCounts counts added) := by
  induction added generalizing counts with
  | nil => rfl
  | cons entry added ih =>
    obtain ⟨other, k⟩ := entry
    calc addCounts (addCount name n counts) ((other, k) :: added)
        = addCounts (addCount other k (addCount name n counts)) added := rfl
      _ = addCounts (addCount name n (addCount other k counts)) added := by rw [addCount_comm h]
      _ = addCount name n (addCounts (addCount other k counts) added) :=
          ih (mem_names_addCount_of_mem h other k)

/-- Adding to a list and then the list is adding the list and then to its sum. -/
theorem addCounts_of_addCount (counts added : List (String × Int)) (name : String) (n : Int) :
    addCounts counts (addCount name n added) = addCount name n (addCounts counts added) := by
  induction added generalizing counts with
  | nil => rfl
  | cons entry added ih =>
    obtain ⟨other, k⟩ := entry
    by_cases h : other = name
    · subst h
      have hadd : addCount other n ((other, k) :: added) = (other, k + n) :: added := by
        simp [addCount]
      calc addCounts counts (addCount other n ((other, k) :: added))
          = addCounts (addCount other (k + n) counts) added := by rw [hadd]; rfl
        _ = addCounts (addCount other n (addCount other k counts)) added := by
            rw [addCount_addCount]
        _ = addCount other n (addCounts (addCount other k counts) added) :=
          addCounts_addCount (mem_names_addCount other k counts) n added
    · have hadd : addCount name n ((other, k) :: added) = (other, k) :: addCount name n added := by
        simp [addCount, h]
      rw [hadd]
      exact ih (addCount other k counts)

/-! ## Histograms and tallies -/

namespace Histogram

theorem ext {h h' : Histogram} (e : h.counts = h'.counts) : h = h' := by
  obtain ⟨_, _⟩ := h
  obtain ⟨_, _⟩ := h'
  obtain rfl : _ = _ := e
  rfl

theorem counts_merge (h other : Histogram) :
    (h.merge other).counts = addCounts h.counts other.counts := by
  have hfold (added : List (String × Int)) (h : Histogram) :
      (added.foldl (fun h (name, n) => h.add name n) h).counts = addCounts h.counts added := by
    induction added generalizing h with
    | nil => rfl
    | cons entry added ih => exact ih (h.add entry.1 entry.2)
  exact hfold other.counts h

theorem merge_addTo (h other : Histogram) (name? : Option String) (n : Int) :
    h.merge (other.addTo name? n) = (h.merge other).addTo name? n := by
  cases name? with
  | none => rfl
  | some name =>
    have hmerge := counts_merge h other
    refine ext ((counts_merge h (other.add name n)).trans ?_)
    change addCounts h.counts (addCount name n other.counts) =
      addCount name n (h.merge other).counts
    rw [hmerge, addCounts_of_addCount]

end Histogram

namespace Tally

theorem languagesOf_append (a b : List SourceFile) :
    languagesOf (a ++ b) = (languagesOf a).merge (languagesOf b) := by
  have hfold (added : List SourceFile) (h other : Histogram) :
      added.foldl (fun h f => h.addTo (Language.displayName? f.path) f.lines) (h.merge other) =
        h.merge
          (added.foldl (fun h f => h.addTo (Language.displayName? f.path) f.lines) other) := by
    induction added generalizing other with
    | nil => rfl
    | cons f added ih =>
      rw [List.foldl_cons, List.foldl_cons, ← Histogram.merge_addTo]
      exact ih _
  rw [languagesOf, List.foldl_append]
  exact hfold b (languagesOf a) .empty

/-- The tally of two runs of files is the first tally merged with the second. -/
theorem merge_ofFiles (a b : List SourceFile) :
    (ofFiles a).merge (ofFiles b) = ofFiles (a ++ b) := by
  have hlines (n : Nat) (lines : List Nat) :
      lines.foldr (· + ·) n = lines.foldr (· + ·) 0 + n := by
    induction lines with
    | nil => exact (Nat.zero_add n).symm
    | cons count lines ih => rw [List.foldr_cons, List.foldr_cons, ih, Nat.add_assoc]
  simp [merge, ofFiles, languagesOf_append, hlines (List.foldr _ _ _)]

end Tally

/-- Where no more files are tests than there are files, the share of tests has a double. -/
theorem quotient?_of_le {tests total : Nat} (hpos : 0 < total) (h : tests ≤ total) :
    ∃ m e, Double.ofRatio false (100 * tests) total = .finite false m e ∧
      Double.quotient? (100 * tests) total = some (.finite false m e) := by
  have hquotient : ((100 * tests : ℕ) : ℚ) / total < 2 ^ 52 * 2 ^ Double.maxExponent := by
    have htotal : (0 : ℚ) < total := by exact_mod_cast hpos
    have hle : ((100 * tests : ℕ) : ℚ) ≤ 100 * total := by exact_mod_cast Nat.mul_le_mul_left 100 h
    have hone : (1 : ℚ) ≤ 2 ^ Double.maxExponent := one_le_zpow₀ one_le_two (by decide)
    rw [div_lt_iff₀ htotal]
    nlinarith
  obtain ⟨m, e, hfinite, hdivided⟩ := Double.quotient?_of_lt hpos hquotient
  rw [Nat.cast_mul, Nat.cast_ofNat] at hdivided
  exact ⟨m, e, hfinite, hdivided⟩

theorem coveragePercent?_of_quotient? {tests total : Int} {quotient : Double} (hpos : 0 < total)
    (h : Double.quotient? (100 * tests) total = some quotient) :
    coveragePercent? tests total = some (min 100 (quotient.add .half).truncate) := by
  rw [coveragePercent?, if_neg (not_le.mpr hpos), h, Option.map_some]

/-- Where no more files are tests than there are files, the coverage is a percentage. -/
theorem exists_coveragePercent? {tests total : Nat} (h : tests ≤ total) :
    ∃ n : Nat, coveragePercent? tests total = some (n : Int) ∧ n ≤ 100 := by
  rcases Nat.eq_zero_or_pos total with rfl | hpos
  · exact ⟨0, rfl, by decide⟩
  obtain ⟨m, e, -, hdivided⟩ := quotient?_of_le hpos h
  have hcoverage := coveragePercent?_of_quotient? (by exact_mod_cast hpos) hdivided
  have hnonneg : 0 ≤ min 100 ((Double.finite false m e).add .half).truncate :=
    le_min (by decide) (Double.truncate_add_nonneg _ _ _ _)
  obtain ⟨n, hn⟩ := Int.eq_ofNat_of_zero_le hnonneg
  refine ⟨n, by rw [hcoverage, hn], ?_⟩
  have hle : min 100 ((Double.finite false m e).add .half).truncate ≤ 100 := min_le_left _ _
  omega

/-! ## Complexity -/

theorem sum_le_length_mul {scores : List Nat} {n : Nat} (h : ∀ score ∈ scores, score ≤ n) :
    scores.sum ≤ scores.length * n := by
  have hle := List.sum_le_card_nsmul scores n h
  rwa [nsmul_eq_mul, Nat.cast_id] at hle

theorem length_mul_le_sum {scores : List Nat} {n : Nat} (h : ∀ score ∈ scores, n ≤ score) :
    scores.length * n ≤ scores.sum := by
  have hle := List.card_nsmul_le_sum scores n h
  rwa [nsmul_eq_mul, Nat.cast_id] at hle

/-- What a summary tells of the scores of all files that have one. Where none has, its figures are
zero; the average is the double nearest to the exact quotient, which lies between the other two. -/
structure ComplexitySummary.Describes (c : ComplexitySummary) (scores : List Nat) : Prop where
  nothing : scores = [] → c.average = .zero ∧ c.max = 0 ∧ c.min = 0
  max : scores ≠ [] → (∃ score ∈ scores, c.max = score) ∧ ∀ score ∈ scores, (score : Int) ≤ c.max
  min : scores ≠ [] → (∃ score ∈ scores, c.min = score) ∧ ∀ score ∈ scores, c.min ≤ (score : Int)
  average : scores ≠ [] → ∃ exact : ℚ, scores.length * exact = scores.sum ∧
    c.min ≤ exact ∧ exact ≤ c.max ∧ c.average.Rounds exact

namespace Census

theorem max_complexityOf {files : List SourceFile} (h : scores files ≠ []) :
    ∃ greatest ∈ scores files, (complexityOf files).max = greatest ∧
      ∀ score ∈ scores files, score ≤ greatest := by
  have hsome : (scores files).max?.isSome := by rwa [List.isSome_max?_iff]
  obtain ⟨greatest, hgreatest⟩ := Option.isSome_iff_exists.mp hsome
  obtain ⟨hmem, hle⟩ := List.max?_eq_some_iff.mp hgreatest
  refine ⟨greatest, hmem, ?_, hle⟩
  change (((scores files).max?.getD 0 : Nat) : Int) = greatest
  rw [hgreatest, Option.getD_some]

theorem min_complexityOf {files : List SourceFile} (h : scores files ≠ []) :
    ∃ least ∈ scores files, (complexityOf files).min = least ∧
      ∀ score ∈ scores files, least ≤ score := by
  have hsome : (scores files).min?.isSome := by rwa [List.isSome_min?_iff]
  obtain ⟨least, hleast⟩ := Option.isSome_iff_exists.mp hsome
  obtain ⟨hmem, hle⟩ := List.min?_eq_some_iff.mp hleast
  refine ⟨least, hmem, ?_, hle⟩
  change (((scores files).min?.getD 0 : Nat) : Int) = least
  rw [hleast, Option.getD_some]

theorem average_complexityOf {files : List SourceFile} (h : scores files ≠ []) :
    (complexityOf files).average = .ofRatio false (scores files).sum (scores files).length := by
  have hempty : ¬ (scores files).isEmpty = true := by rwa [List.isEmpty_iff]
  exact if_neg hempty

theorem complexityOf_describes (files : List SourceFile) :
    (complexityOf files).Describes (scores files) where
  nothing h := by
    have hempty : (scores files).isEmpty = true := List.isEmpty_iff.mpr h
    refine ⟨if_pos hempty, ?_, ?_⟩
    · change (((scores files).max?.getD 0 : Nat) : Int) = 0
      rw [h]
      rfl
    · change (((scores files).min?.getD 0 : Nat) : Int) = 0
      rw [h]
      rfl
  max h := by
    obtain ⟨greatest, hmem, hmax, hle⟩ := max_complexityOf h
    rw [hmax]
    exact ⟨⟨greatest, hmem, rfl⟩, fun score hscore => by exact_mod_cast hle score hscore⟩
  min h := by
    obtain ⟨least, hmem, hmin, hle⟩ := min_complexityOf h
    rw [hmin]
    exact ⟨⟨least, hmem, rfl⟩, fun score hscore => by exact_mod_cast hle score hscore⟩
  average h := by
    obtain ⟨greatest, -, hmax, hgreatest⟩ := max_complexityOf h
    obtain ⟨least, -, hmin, hleast⟩ := min_complexityOf h
    have hlength : 0 < (scores files).length := List.length_pos_iff.mpr h
    have hcount : (0 : ℚ) < (scores files).length := by exact_mod_cast hlength
    refine ⟨(scores files).sum / (scores files).length, ?_, ?_, ?_, ?_⟩
    · exact mul_div_cancel₀ _ hcount.ne'
    · have hle := (Nat.cast_le (α := ℚ)).mpr (length_mul_le_sum hleast)
      rw [Nat.cast_mul] at hle
      rwa [hmin, Int.cast_natCast, le_div_iff₀ hcount, mul_comm]
    · have hle := (Nat.cast_le (α := ℚ)).mpr (sum_le_length_mul hgreatest)
      rw [Nat.cast_mul] at hle
      rwa [hmax, Int.cast_natCast, div_le_iff₀ hcount, mul_comm]
    · rw [average_complexityOf h]
      exact Double.ofRatio_rounds _ hlength

/-! ## Figures that could be missing -/

/-- The quotient of two numbers as a double; there is none by zero, nor beyond the greatest double. -/
def divided? (num den : Nat) : Option Double := if den = 0 then none else Double.quotient? num den

def average? (scores : List Nat) : Option Double :=
  if scores.isEmpty then some .zero else divided? scores.sum scores.length

/-- A figure that a census accepts as its coverage. -/
def percentage? (n : Int) : Option Nat := if 0 ≤ n ∧ n ≤ 100 then some n.toNat else none

/-- The census of a tally, computed so that a figure without a value leaves no census. -/
def ofTally? (t : Tally) (entries : List Entry) : Option Census := do
  let average ← average? (scores t.files)
  let testCoverage ← (coveragePercent? t.testFiles t.files.length).bind percentage?
  return { ofTally t entries with
    complexity := { complexityOf t.files with average }
    testCoverage }

/-- Scores below the greatest double have an average. -/
theorem average?_eq_some {files : List SourceFile}
    (h : ∀ score ∈ scores files, (score : ℚ) < 2 ^ 52 * 2 ^ Double.maxExponent) :
    average? (scores files) = some (complexityOf files).average := by
  by_cases hempty : scores files = []
  · have hzero : (complexityOf files).average = .zero := (complexityOf_describes files).nothing hempty |>.1
    rw [hzero, hempty]
    rfl
  have hlength : 0 < (scores files).length := List.length_pos_iff.mpr hempty
  have hquotient : ((scores files).sum : ℚ) / (scores files).length <
      2 ^ 52 * 2 ^ Double.maxExponent := by
    obtain ⟨greatest, hmem, -, hgreatest⟩ := max_complexityOf hempty
    have hle := (Nat.cast_le (α := ℚ)).mpr (sum_le_length_mul hgreatest)
    rw [Nat.cast_mul, mul_comm] at hle
    have hcount : (0 : ℚ) < (scores files).length := by exact_mod_cast hlength
    exact lt_of_le_of_lt ((div_le_iff₀ hcount).mpr hle) (h greatest hmem)
  obtain ⟨m, e, hfinite, hdivided⟩ := Double.quotient?_of_lt hlength hquotient
  rw [average_complexityOf hempty, hfinite, average?, if_neg (by rwa [List.isEmpty_iff]), divided?,
    if_neg hlength.ne', hdivided]

theorem ofTally?_eq_some {t : Tally} {tests : Nat} (htests : t.testFiles = tests) (hle : tests ≤ t.files.length)
    (hscores : ∀ score ∈ scores t.files, (score : ℚ) < 2 ^ 52 * 2 ^ Double.maxExponent)
    (entries : List Entry) : ofTally? t entries = some (ofTally t entries) := by
  obtain ⟨n, hn, hpercentage⟩ := exists_coveragePercent? hle
  rw [← htests] at hn
  have haverage := average?_eq_some hscores
  have hpercent : percentage? n = some n := by
    rw [percentage?, if_pos ⟨Int.natCast_nonneg n, by omega⟩, Int.toNat_natCast]
  have hcoverage : (ofTally t entries).testCoverage = n := by
    change ((coveragePercent? t.testFiles t.files.length).getD 0).toNat = n
    rw [hn]
    rfl
  rw [ofTally?, haverage, hn, Option.bind_some, hpercent, ← hcoverage]
  rfl

end Census

end CodeCensus
