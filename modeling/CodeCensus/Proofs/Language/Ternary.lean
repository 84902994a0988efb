import CodeCensus.Proofs.Language.Branching

/-! Question marks that open no ternary. The pattern of a ternary looks at the character after a question mark
only, so that it passes over the operators `?.` and `?:`, and over the first mark of `??`, but not over the second
one. -/

namespace CodeCensus

open Text Pattern

namespace BranchSet

/-- Whether every question mark belongs to one of the operators `??`, `?.` and `?:`, read from the left. -/
def marksOperatorsOnly : List Char → Bool
  | [] => true
  | [c] => c != '?'
  | c :: d :: rest =>
    if c == '?' then among ['?', '.', ':'] d && marksOperatorsOnly rest else marksOperatorsOnly (d :: rest)

/-- Whether what follows a question mark makes it open a ternary: a character that makes no operator of it, and a
colon later on the line. -/
def leadsToColon : List Char → Bool
  | [] => false
  | c :: rest => beyond ['?', '.', ':', '\n'] c && (rest.takeWhile (· != '\n')).contains ':'

theorem beyond_iff {c : Char} :
    beyond ['?', '.', ':', '\n'] c = true ↔ among ['?', '.', ':'] c = false ∧ beyond ['\n'] c = true := by
  simp [among, beyond, and_assoc]

theorem spans_ternaryMark_iff {text : List Char} {i : Nat} :
    (∃ j, ternaryMark.Spans text i j) ↔ ∃ rest, text.drop i = '?' :: rest ∧ leadsToColon rest = true := by
  rw [ternaryMark_eq]
  constructor
  · rintro ⟨_, _, ⟨hquestion, rfl⟩, _, ⟨habsent, rfl⟩, k, ⟨hik, hline⟩, hcolon, rfl⟩
    have hnext : ¬ HoldsAt text (among ['?', '.', ':']) (i + 1) := fun h => habsent ⟨_, h, rfl⟩
    have hlt : i + 1 < k := by
      rcases Nat.eq_or_lt_of_le hik with rfl | hlt
      · exact absurd (hcolon.imp (class_of_beq rfl)) hnext
      · exact hlt
    obtain ⟨mark, hmark, hismark⟩ := hquestion
    obtain ⟨c, hc, hbreak⟩ := hline (i + 1) (Nat.le_refl _) hlt
    obtain ⟨colon, hk, hiscolon⟩ := hcolon
    obtain rfl : mark = '?' := by simpa using hismark
    obtain rfl : colon = ':' := by simpa using hiscolon
    have hopen : among ['?', '.', ':'] c = false := Bool.eq_false_iff.mpr fun h => hnext ⟨c, hc, h⟩
    have hfar : ':' ∈ (text.drop (i + 2)).takeWhile (· != '\n') := by
      refine mem_takeWhile_iff.mpr ⟨k - (i + 2), ?_, fun l hl => holdsAt_drop.mpr ?_⟩
      · rw [List.getElem?_drop, Nat.add_sub_cancel' hlt, hk]
      · rcases Nat.eq_or_lt_of_le (show i + 2 + l ≤ k by omega) with hlast | hbefore
        · exact hlast ▸ ⟨':', hk, by decide⟩
        · exact (hline _ (by omega) hbefore).imp fun d hd => by simpa [beyond] using hd
    refine ⟨text.drop (i + 1), drop_of_getElem? hmark, ?_⟩
    rw [drop_of_getElem? hc, leadsToColon, Bool.and_eq_true, beyond_iff, List.contains_iff_mem]
    exact ⟨⟨hopen, hbreak⟩, hfar⟩
  · rintro ⟨rest, hdrop, hrest⟩
    cases rest with
    | nil => simp [leadsToColon] at hrest
    | cons c rest =>
      have hat {p : Char → Bool} {k : Nat} : HoldsAt text p (i + k) ↔ HoldsAt ('?' :: c :: rest) p k := by
        rw [← hdrop, holdsAt_drop]
      rw [leadsToColon, Bool.and_eq_true, beyond_iff, List.contains_iff_mem, mem_takeWhile_iff] at hrest
      obtain ⟨⟨hopen, hbreak⟩, n, hcolon, hline⟩ := hrest
      have hquestion : HoldsAt text (· == '?') (i + 0) := hat.mpr (holdsAt_cons_zero.mpr rfl)
      have habsent : ¬ ∃ m, (Pattern.one (among ['?', '.', ':'])).Spans text (i + 1) m := by
        rintro ⟨m, hmark, -⟩
        have := holdsAt_cons_zero.mp (holdsAt_cons_succ.mp (hat.mp hmark))
        simp [hopen] at this
      have hnext : HoldsAt text (beyond ['\n']) (i + 1) :=
        hat.mpr (holdsAt_cons_succ.mpr (holdsAt_cons_zero.mpr hbreak))
      have hbetween : Throughout text (beyond ['\n']) (i + 2) (i + (n + 2)) := by
        intro k hik hkn
        obtain ⟨l, rfl⟩ := Nat.exists_eq_add_of_le hik
        rw [Nat.add_assoc, Nat.add_comm 2 l]
        refine hat.mpr (holdsAt_cons_succ.mpr (holdsAt_cons_succ.mpr ?_))
        exact (hline l (by omega)).imp fun d hd => by simpa [beyond] using hd
      have hend : HoldsAt text (· == ':') (i + (n + 2)) :=
        hat.mpr (holdsAt_cons_succ.mpr (holdsAt_cons_succ.mpr ⟨':', hcolon, rfl⟩))
      exact ⟨_, i + 1, ⟨hquestion, rfl⟩, i + 1, ⟨habsent, rfl⟩, i + (n + 2),
        ⟨by omega, .cons hnext hbetween⟩, hend, rfl⟩

theorem marksOperatorsOnly_mark_cons {rest : List Char} (h : leadsToColon rest = true) :
    marksOperatorsOnly ('?' :: rest) = false := by
  cases rest with
  | nil => cases h
  | cons d rest =>
    rw [leadsToColon, Bool.and_eq_true, beyond_iff] at h
    simp [marksOperatorsOnly, h.1.1]

/-- In a text of operators only, a question mark that opens a ternary is the second mark of `??`. -/
theorem exists_eq_concat {front rest : List Char} (h : marksOperatorsOnly (front ++ '?' :: rest) = true)
    (hrest : leadsToColon rest = true) : ∃ front', front = front' ++ ['?'] := by
  have hmark := marksOperatorsOnly_mark_cons hrest
  -- the text is read as its front is, two characters at a time where an operator stands
  fun_induction marksOperatorsOnly front with
  | case1 =>
    rw [List.nil_append, hmark] at h
    cases h
  | case2 c =>
    by_cases hc : c = '?'
    · exact ⟨[], by rw [hc, List.nil_append]⟩
    · rw [List.singleton_append, marksOperatorsOnly, if_neg (by simpa using hc), hmark] at h
      cases h
  | case3 c d more hc ih =>
    rw [List.cons_append, List.cons_append, marksOperatorsOnly, if_pos hc, Bool.and_eq_true] at h
    obtain ⟨front', rfl⟩ := ih h.2
    exact ⟨c :: d :: front', rfl⟩
  | case4 c d more hc ih =>
    rw [List.cons_append, List.cons_append, marksOperatorsOnly, if_neg hc] at h
    obtain ⟨front', hfront⟩ := ih h
    exact ⟨c :: front', by rw [hfront, List.cons_append]⟩

/-- Some `??` of a text is followed by what would make a question mark open a ternary. -/
def OpensAfterCoalescing (text : List Char) : Prop :=
  ∃ front rest, text = front ++ '?' :: '?' :: rest ∧ leadsToColon rest = true

theorem exists_spans_iff {text : List Char} (h : marksOperatorsOnly text = true) :
    (∃ i j, ternaryMark.Spans text i j) ↔ OpensAfterCoalescing text := by
  constructor
  · rintro ⟨i, hi⟩
    obtain ⟨rest, hdrop, hrest⟩ := spans_ternaryMark_iff.mp hi
    have htext : text = text.take i ++ '?' :: rest := by rw [← hdrop, List.take_append_drop]
    obtain ⟨front, hfront⟩ := exists_eq_concat (htext ▸ h) hrest
    refine ⟨front, rest, ?_, hrest⟩
    rw [htext, hfront, List.append_assoc, List.singleton_append]
  · rintro ⟨front, rest, rfl, hrest⟩
    have hsplit : front ++ '?' :: '?' :: rest = (front ++ ['?']) ++ '?' :: rest :=
      List.append_cons front '?' ('?' :: rest)
    refine ⟨(front ++ ['?']).length, spans_ternaryMark_iff.mpr ⟨rest, ?_, hrest⟩⟩
    rw [hsplit, List.drop_left]

/-- In a text in which all question marks belong to operators, those that are taken to open a ternary are second
marks of `??`. So nothing matches, and the score is the least one, if and only if no `??` leads to a colon. -/
theorem branchScore_ternary_eq_one_iff {text : List Char} (h : marksOperatorsOnly text = true) :
    (ternaryMark.all text = [] ↔ ¬ OpensAfterCoalescing text) ∧
      (branchScore ternary.patterns text = 1 ↔ ¬ OpensAfterCoalescing text) := by
  have hcount : ternaryMark.count text = 0 ↔ ¬ OpensAfterCoalescing text := by
    rw [count_eq_zero_iff rfl, ← exists_spans_iff h]
    simp only [not_exists]
  have hscore : branchScore ternary.patterns text = 1 + ternaryMark.count text := rfl
  constructor
  · rw [← hcount, count, List.length_eq_zero_iff]
  · rw [hscore, ← hcount]
    omega

theorem branchScore_ternary_eq_one_iff_objectLiteral :
    marksOperatorsOnly "(\x7ba: x ?? y, b: z\x7d)".toList = true ∧
      branchScore ternary.patterns "(\x7ba: x ?? y, b: z\x7d)".toList ≠ 1 := by
  have hmarks : marksOperatorsOnly "(\x7ba: x ?? y, b: z\x7d)".toList = true := by decide
  have hopens : OpensAfterCoalescing "(\x7ba: x ?? y, b: z\x7d)".toList :=
    ⟨"(\x7ba: x ".toList, " y, b: z\x7d)".toList, by decide, by decide⟩
  exact ⟨hmarks, fun hscore => (branchScore_ternary_eq_one_iff hmarks).2.mp hscore hopens⟩

/-- The second mark of `??` and the colon after the next key make a match. -/
theorem branchScore_ne_one_coalescing :
    ¬ ∀ text, marksOperatorsOnly text = true → branchScore ternary.patterns text = 1 := by
  intro h
  have hscore := h "(\x7ba: x ?? y, b: z\x7d)".toList (by decide)
  exact absurd hscore (by decide +kernel)

end BranchSet

end CodeCensus
