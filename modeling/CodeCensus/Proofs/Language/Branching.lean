import CodeCensus.Language.Branching
import CodeCensus.Proofs.Pattern.Counting
import CodeCensus.Proofs.Text.Class

/-! The patterns that score code lose no match when a text is embedded in another. -/

namespace CodeCensus

open Text Cursor Pattern

namespace Pattern

def IsKeyword (s : String) : Prop := s.toList ≠ [] ∧ s.toList.all Char.isLower = true

instance (s : String) : Decidable (IsKeyword s) := inferInstanceAs (Decidable (_ ∧ _))

namespace IsKeyword

variable {s : String}

theorem tame (h : IsKeyword s) : (Pattern.text s).Tame := by
  refine .text h.1 fun hbreak => ?_
  exact absurd (List.all_eq_true.mp h.2 _ hbreak) (by decide)

theorem within (h : IsKeyword s) {c : Char → Bool}
    (hc : ∀ x : Char, x.isLower = true → c x = true) : (Pattern.text s).Within c :=
  within_text (List.all_eq_true.mpr fun x hx => hc x (List.all_eq_true.mp h.2 x hx))

theorem exists_cons (h : IsKeyword s) : ∃ c cs, s.toList = c :: cs := List.exists_cons_of_ne_nil h.1

theorem consuming (h : IsKeyword s) : (Pattern.text s).opening.mayBeEmpty = false := by
  obtain ⟨c, cs, hs⟩ := h.exists_cons
  rw [Pattern.text, hs]
  cases cs <;> rfl

theorem closes (h : IsKeyword s) {c : Char → Bool}
    (hc : ∀ x : Char, x.isLower = true → c x = true) : (Pattern.text s).Closes c :=
  closes_text h.1 (List.all_eq_true.mpr fun x hx => hc x (List.all_eq_true.mp h.2 x hx))

end IsKeyword

def Lossless (p : Pattern) : Prop := ∃ core lined, Steady p core lined

end Pattern

namespace BranchSet

variable {keyword : String}

/-- A keyword, blanks and a mark. -/
theorem lossless_keywordMark (h : IsKeyword keyword) {mark : Char} (hblank : isBlank mark = false)
    (hlower : mark.isLower = false) :
    (inOrder [wordEdge, keyword, blanks, .one (· == mark)]).Lossless := by
  have hfeed : mark ≠ '\n' := ne_lineFeed_of_not_isBlank hblank
  have htame : (inOrder [wordEdge, keyword, blanks, .one (· == mark)]).Tame :=
    .seq .edge (.seq h.tame (.seq .blanks (.one (by simpa using hfeed.symm))))
  have hends : (inOrder [wordEdge, keyword, blanks, .one (· == mark)]).EndsAt (· == mark) := by
    refine ⟨trivial, h.within fun x hx => ?_, fun x hx => ?_, fun x hx => hx⟩
    · simpa using ne_of_isLower hx hlower
    · simpa using ne_of_isBlank hx hblank
  have hconsuming :
      (inOrder [wordEdge, keyword, blanks, .one (· == mark)]).opening.mayBeEmpty = false :=
    mayBeEmpty_seq_right (mayBeEmpty_seq_left h.consuming)
  exact ⟨_, _, .of_endsAt htame hconsuming hends fun x hx => by simp_all⟩

theorem lossless_elseIf : (inOrder [wordEdge, "else", blanks1, "if", blanks, "("]).Lossless := by
  have helse : IsKeyword "else" := by decide
  have hif : IsKeyword "if" := by decide
  have htame : (inOrder [wordEdge, "else", blanks1, "if", blanks, "("]).Tame :=
    .seq .edge (.seq helse.tame (.seq .blanks1 (.seq hif.tame (.seq .blanks (.one rfl)))))
  have hends : (inOrder [wordEdge, "else", blanks1, "if", blanks, "("]).EndsAt (· == '(') := by
    have hlower : ∀ x : Char, x.isLower = true → (!(x == '(')) = true :=
      fun x hx => by simpa using ne_of_isLower hx rfl
    have hblank : ∀ x, isBlank x = true → (!(x == '(')) = true :=
      fun x hx => by simpa using ne_of_isBlank hx rfl
    exact ⟨trivial, helse.within hlower, ⟨hblank, hblank⟩, hif.within hlower, hblank,
      fun x hx => hx⟩
  have hconsuming :
      (inOrder [wordEdge, "else", blanks1, "if", blanks, "("]).opening.mayBeEmpty = false :=
    mayBeEmpty_seq_right (mayBeEmpty_seq_left helse.consuming)
  exact ⟨_, _, .of_endsAt htame hconsuming hends (by simp)⟩

theorem lossless_caseLabel : caseLabel.Lossless := by
  have hcase : IsKeyword "case" := by decide
  have htame : caseLabel.Tame :=
    .seq .edge (.seq hcase.tame (.seq .blanks1 (.seq (.run rfl) (.one rfl))))
  have hends : caseLabel.EndsAt (· == ':') := by
    have hblank : ∀ x, isBlank x = true → (!(x == ':')) = true :=
      fun x hx => by simpa using ne_of_isBlank hx rfl
    refine ⟨trivial, hcase.within fun x hx => ?_, ⟨hblank, hblank⟩, fun x hx => ?_, fun x hx => hx⟩
    · simpa using ne_of_isLower hx rfl
    · simp [beyond] at hx
      simpa using hx.1
  have hconsuming : caseLabel.opening.mayBeEmpty = false :=
    mayBeEmpty_seq_right (mayBeEmpty_seq_left hcase.consuming)
  exact ⟨_, _, .of_endsAt htame hconsuming hends (by simp)⟩

theorem lossless_wholeWord (h : IsKeyword keyword) : (wholeWord keyword).Lossless := by
  have htame : (wholeWord keyword).Tame := .seq .edge (.seq h.tame .edge)
  have hkeyword : (Pattern.text keyword).Closes (· != '\n') :=
    h.closes fun x hx => by simpa using ne_of_isLower hx rfl
  have hcloses : (wholeWord keyword).Closes (· != '\n') := hkeyword
  have hwidth : (wholeWord keyword).width? = some (0 + (keyword.toList.length + 0)) := by
    simp [wholeWord, inOrder, width?, wordEdge]
  exact ⟨_, _, .of_tame htame (mayBeEmpty_seq_right (mayBeEmpty_seq_left h.consuming)) hcloses
    (Orderly.of_width hwidth)⟩

theorem lossless_logicalMark : logicalMark.Lossless := by
  have htame : logicalMark.Tame := .alt (.seq (.one rfl) (.one rfl)) (.seq (.one rfl) (.one rfl))
  have hcloses : logicalMark.Closes (· != '\n') :=
    ⟨closes_text (by decide) rfl, closes_text (by decide) rfl⟩
  have hwidth : logicalMark.width? = some 2 := rfl
  exact ⟨_, _, .of_tame htame rfl hcloses (Orderly.of_width hwidth)⟩

theorem endsAt_logicalWord : logicalWord.EndsAt (among ['d', 'r']) := by
  have hand : (Pattern.text "and").EndsAt (among ['d', 'r']) :=
    ⟨class_of_beq rfl, class_of_beq rfl, class_of_beq rfl⟩
  have hor : (Pattern.text "or").EndsAt (among ['d', 'r']) := ⟨class_of_beq rfl, class_of_beq rfl⟩
  exact ⟨trivial, hand, hor⟩

theorem tame_logicalWord : logicalWord.Tame := by
  have hand : IsKeyword "and" := by decide
  have hor : IsKeyword "or" := by decide
  exact .seq .edge (.seq (.alt hand.tame hor.tame) .edge)

theorem lossless_logicalWord : logicalWord.Lossless :=
  ⟨_, _, .of_endsAt tame_logicalWord rfl endsAt_logicalWord fun x hx => by
    rintro rfl
    exact absurd hx (by decide)⟩

theorem orderly_logical : (oneOf ["&&", "||", logicalWord]).Orderly := by
  have hword : logicalWord.Orderly := Orderly.of_endsAt endsAt_logicalWord
  have hwithin {c : Char → Bool} (h : "and".toList.all c = true) (h' : "or".toList.all c = true) :
      logicalWord.Within c := ⟨trivial, ⟨within_text h, within_text h'⟩, trivial⟩
  have hbars : (Pattern.alt "||" logicalWord).Orderly := by
    refine Orderly.alt (c := (· == '|')) (d := Char.isLower)
      (Orderly.of_width (n := 2) rfl) hword rfl rfl (within_text rfl) (hwithin rfl rfl)
      fun x hx => ?_
    obtain rfl : x = '|' := by simpa using hx
    rfl
  change (Pattern.alt "&&" (.alt "||" logicalWord)).Orderly
  refine Orderly.alt (c := (· == '&')) (d := fun x => x == '|' || x.isLower)
    (Orderly.of_width (n := 2) rfl) hbars rfl rfl (within_text rfl)
    ⟨within_text rfl, hwithin rfl rfl⟩ fun x hx => ?_
  obtain rfl : x = '&' := by simpa using hx
  rfl

theorem lossless_logical : (oneOf ["&&", "||", logicalWord]).Lossless := by
  have htame : (oneOf ["&&", "||", logicalWord]).Tame :=
    .alt (.seq (.one rfl) (.one rfl)) (.alt (.seq (.one rfl) (.one rfl)) tame_logicalWord)
  have hcloses : (oneOf ["&&", "||", logicalWord]).Closes (· != '\n') :=
    ⟨closes_text (by decide) rfl, closes_text (by decide) rfl, closes_text (by decide) rfl,
      closes_text (by decide) rfl⟩
  exact ⟨_, _, .of_tame htame rfl hcloses orderly_logical⟩

/-! ## Up to the last mark of a line -/

/-- A head of a keyword, something that covers blanks and then the rest of a line, and a mark. -/
theorem lossless_keywordLine (h : IsKeyword keyword) (gap : List Pattern) {mark : Char}
    (hblank : isBlank mark = false) (hlower : mark.isLower = false) (htame : ∀ p ∈ gap, p.Tame)
    (hgap : ∀ {text : List Char} {i j : Nat}, (inOrder gap).Spans text i j →
      ∃ m, i ≤ m ∧ m ≤ j ∧ Throughout text isBlank i m ∧ Throughout text (beyond ['\n']) m j) :
    (inOrder ([wordEdge, ↑keyword] ++ gap ++
      [.run (beyond ['\n']), .one (· == mark)])).Lossless := by
  have hfeed : mark ≠ '\n' := ne_lineFeed_of_not_isBlank hblank
  refine ⟨_, _, .of_lineWide hblank (.inOrder (by simp) fun p hp => ?_) fun {text i j} hij => ?_⟩
  · simp only [List.mem_append, List.mem_cons, List.not_mem_nil, or_false] at hp
    rcases hp with ((rfl | rfl) | hp) | (rfl | rfl)
    · exact .edge
    · exact h.tame
    · exact htame p hp
    · exact .run rfl
    · exact .one (by simpa using hfeed.symm)
  · obtain ⟨k, hik, l, hrun, hmark, rfl⟩ := spans_inOrder_append.mp hij
    obtain ⟨a, ⟨_, ⟨-, rfl⟩, hhead⟩, hak⟩ := spans_inOrder_append.mp hik
    obtain ⟨m, ham, hmk, hblanks, hrest⟩ := hgap hak
    have hkl : k ≤ l := hrun.1
    refine ⟨a, m, hhead.lt h.consuming, ham, by omega, ?_, hblanks, ?_, hmark⟩
    · refine Within.throughout (h.within fun x hx => ?_) hhead
      simpa [not_isBlank_of_isLower hx] using ne_of_isLower hx hlower
    · intro n hmn hnl
      exact ((hrest.trans hrun.2) n hmn hnl).imp fun c hc => by simpa [beyond] using hc

theorem throughout_of_blanks1 {text : List Char} {i j : Nat} (h : blanks1.Spans text i j) :
    Throughout text isBlank i j :=
  Within.throughout (p := blanks1) ⟨fun _ hx => hx, fun _ hx => hx⟩ h

theorem lossless_keywordTo (h : IsKeyword keyword) {mark : Char} (hblank : isBlank mark = false)
    (hlower : mark.isLower = false) :
    (inOrder [wordEdge, keyword, blanks1, .run (beyond ['\n']), .one (· == mark)]).Lossless :=
  lossless_keywordLine h [blanks1] hblank hlower (by simpa using .blanks1) fun {_ _ j} hij =>
    ⟨j, hij.le, Nat.le_refl j, throughout_of_blanks1 hij, .empty (Nat.le_refl j)⟩

theorem lossless_bareKeywordTo (h : IsKeyword keyword) {mark : Char} (hblank : isBlank mark = false)
    (hlower : mark.isLower = false) :
    (inOrder [wordEdge, keyword, wordEdge, .run (beyond ['\n']), .one (· == mark)]).Lossless :=
  lossless_keywordLine h [wordEdge] hblank hlower (by simpa using .edge) fun {_ _ j} hij =>
    ⟨j, hij.le, Nat.le_refl j, .empty (Nat.le_of_eq hij.2), .empty (Nat.le_refl j)⟩

theorem lossless_except :
    (inOrder [wordEdge, "except", blanks1, .one isWord, .run (beyond ['\n']), ":"]).Lossless := by
  have hexcept : IsKeyword "except" := by decide
  have hmark : isBlank ':' = false := rfl
  refine lossless_keywordLine hexcept [blanks1, .one isWord] hmark rfl
    (by simpa using ⟨.blanks1, .one (by decide)⟩) fun {text i j} hij => ?_
  obtain ⟨m, hblanks, hword, rfl⟩ := hij
  refine ⟨m, hblanks.le, Nat.le_succ m, throughout_of_blanks1 hblanks,
    .cons (hword.imp fun x hx => ?_) (.empty (Nat.le_refl _))⟩
  have hfeed : x ≠ '\n' := by
    rintro rfl
    exact absurd hx (by decide)
  simpa [beyond] using hfeed

/-! ## Ternaries -/

/-- A question mark and the next colon of its line, with something between them that opens no
operator. -/
def ternaryCore : Pattern :=
  inOrder [
    .one (· == '?'), .one (beyond ['?', '.', ':', '\n']), .run (beyond ['\n', ':']), .one (· == ':')]

theorem ternaryMark_eq :
    ternaryMark = .seq (.one (· == '?')) (.seq (.absent (.one (among ['?', '.', ':'])))
      (.seq (.lazyRun (beyond ['\n'])) (.one (· == ':')))) := rfl

theorem spans_ternaryCore {text : List Char} {m : Match} {i j : Nat}
    (h : ternaryMark.Finds text m i j) : ternaryCore.Spans text i j := by
  obtain ⟨hhere, -, hstop⟩ := h
  rw [here?, ternaryMark_eq, matchAt] at hhere
  obtain ⟨_, g, ⟨hquestion, rfl⟩, hhere⟩ := (Pattern.one (· == '?')).matchAt_sound hhere
  rw [matchAt] at hhere
  obtain ⟨_, g', ⟨habsent, rfl⟩, hhere⟩ :=
    (Pattern.absent (.one (among ['?', '.', ':']))).matchAt_sound hhere
  -- the lazy run stops at the nearest colon, so none stands before it
  obtain ⟨k, hik, hline, hcolon, hfirst⟩ := firstReached_eq_some hhere
  have hk : HoldsAt text (· == ':') k := holds_of_matchAt_one hcolon
  have hnone : ∀ l, i + 1 ≤ l → l < k → ¬ HoldsAt text (· == ':') l := by
    intro l hil hlk hl
    have := (matchAt_one_of_holds hl).symm.trans (hfirst l hil hlk)
    exact absurd this (by simp)
  have hnext : ¬ HoldsAt text (among ['?', '.', ':']) (i + 1) := fun h => habsent ⟨_, h, rfl⟩
  have hlt : i + 1 < k := by
    rcases Nat.eq_or_lt_of_le hik with rfl | hlt
    · exact absurd (hk.imp (class_of_beq rfl)) hnext
    · exact hlt
  obtain rfl : k + 1 = j := by
    have hm := Option.some.inj ((matchAt_one_of_holds hk).symm.trans hcolon)
    simpa [hstop] using congrArg (fun m => m.stop.pos) hm
  refine ⟨i + 1, ⟨hquestion, rfl⟩, i + 2, ⟨?_, rfl⟩, k, ⟨hlt, fun l hil hlk => ?_⟩, hk, rfl⟩
  · obtain ⟨c, hc, hbreak⟩ := hline (i + 1) (Nat.le_refl _) hlt
    refine ⟨c, hc, ?_⟩
    have : among ['?', '.', ':'] c ≠ true := fun h => hnext ⟨c, hc, h⟩
    simp_all [among, beyond]
  · obtain ⟨c, hc, hbreak⟩ := hline l (by omega) hlk
    refine ⟨c, hc, ?_⟩
    have : c ≠ ':' := fun h => hnone l (by omega) hlk ⟨c, hc, by simpa using h⟩
    simp_all [beyond]

theorem spans_ternaryMark {text : List Char} {i j : Nat} (h : ternaryCore.Spans text i j) :
    ternaryMark.Spans text i j := by
  obtain ⟨_, hquestion, _, ⟨hnext, rfl⟩, k, ⟨hlt, hrest⟩, hcolon⟩ := h
  have habsent : ¬ ∃ m, (Pattern.one (among ['?', '.', ':'])).Spans text (i + 1) m := by
    rintro ⟨m, hm, -⟩
    obtain rfl := hquestion.2
    refine hm.elim hnext fun c hc => ?_
    simp only [among, List.contains_iff_mem, List.mem_cons, List.not_mem_nil, or_false] at hc
    rcases hc with rfl | rfl | rfl <;> rfl
  obtain rfl := hquestion.2
  refine ⟨i + 1, hquestion, i + 1, ⟨habsent, rfl⟩, k,
    ⟨Nat.le_of_succ_le hlt, .cons ?_ fun l hil hlk => ?_⟩, hcolon⟩
  · exact hnext.imp fun c hc => by simp_all [beyond]
  · exact (hrest l hil hlk).imp fun c hc => by simp_all [beyond]

theorem lossless_ternaryMark : ternaryMark.Lossless := by
  have htame : ternaryCore.Tame := .seq (.one rfl) (.seq (.one rfl) (.seq (.run rfl) (.one rfl)))
  have hends : ternaryCore.EndsAt (· == ':') := by
    refine ⟨class_of_beq rfl, fun c hc => ?_, fun c hc => ?_, fun c hc => hc⟩
    · simp_all [beyond]
    · simp_all [beyond]
  have hstops {text : List Char} {i j : Nat} (h : ternaryCore.Spans text i j) :
      i < j ∧ HoldsAt text (· != '\n') (j - 1) := by
    obtain ⟨hlt, hlast, -⟩ := hends.holds h
    exact ⟨hlt, hlast.imp (class_of_beq rfl)⟩
  exact ⟨_, _, .of_orderly htame rfl spans_ternaryCore (fun h => ⟨_, spans_ternaryMark h⟩) hstops
    (Orderly.of_endsAt hends)⟩

/-! ## The sets of the library -/

theorem lossless_brace : ∀ p ∈ brace.patterns, p.Lossless := by
  simp only [brace, List.forall_mem_cons]
  exact ⟨lossless_ternaryMark, lossless_keywordMark (by decide) rfl rfl, lossless_elseIf,
    lossless_keywordMark (by decide) rfl rfl, lossless_keywordMark (by decide) rfl rfl,
    lossless_keywordMark (by decide) rfl rfl, lossless_caseLabel, lossless_logicalMark,
    lossless_keywordMark (by decide) rfl rfl, by simp⟩

theorem lossless_python : ∀ p ∈ python.patterns, p.Lossless := by
  simp only [python, List.forall_mem_cons]
  exact ⟨lossless_ternaryMark, lossless_keywordTo (by decide) rfl rfl,
    lossless_keywordTo (by decide) rfl rfl, lossless_keywordTo (by decide) rfl rfl,
    lossless_keywordTo (by decide) rfl rfl, lossless_keywordMark (by decide) rfl rfl,
    lossless_except, lossless_logicalWord, by simp⟩

theorem lossless_go : ∀ p ∈ go.patterns, p.Lossless := by
  simp only [go, List.forall_mem_cons]
  exact ⟨lossless_ternaryMark, lossless_keywordTo (by decide) rfl rfl,
    lossless_bareKeywordTo (by decide) rfl rfl, lossless_bareKeywordTo (by decide) rfl rfl,
    lossless_caseLabel, lossless_logicalMark, by simp⟩

theorem lossless_rust : ∀ p ∈ rust.patterns, p.Lossless := by
  simp only [rust, List.forall_mem_cons]
  exact ⟨lossless_ternaryMark, lossless_keywordTo (by decide) rfl rfl,
    lossless_keywordTo (by decide) rfl rfl, lossless_keywordTo (by decide) rfl rfl,
    lossless_keywordTo (by decide) rfl rfl, lossless_logicalMark, by simp⟩

theorem lossless_ruby : ∀ p ∈ ruby.patterns, p.Lossless := by
  simp only [ruby, List.forall_mem_cons]
  exact ⟨lossless_ternaryMark, lossless_wholeWord (by decide), lossless_wholeWord (by decide),
    lossless_wholeWord (by decide), lossless_wholeWord (by decide), lossless_wholeWord (by decide),
    lossless_wholeWord (by decide), lossless_wholeWord (by decide), lossless_logical, by simp⟩

theorem lossless_of_mem {s : BranchSet} (hs : s ∈ all) : ∀ p ∈ s.patterns, p.Lossless := by
  simp only [all, List.mem_cons, List.not_mem_nil, or_false] at hs
  rcases hs with rfl | rfl | rfl | rfl | rfl | rfl
  · simpa [ternary] using lossless_ternaryMark
  · exact lossless_brace
  · exact lossless_python
  · exact lossless_go
  · exact lossless_rust
  · exact lossless_ruby

theorem ternaryMark_mem {s : BranchSet} (hs : s ∈ all) : ternaryMark ∈ s.patterns := by
  simp only [all, List.mem_cons, List.not_mem_nil, or_false] at hs
  rcases hs with rfl | rfl | rfl | rfl | rfl | rfl <;> exact List.mem_cons_self

end BranchSet

/-! ## Scores -/

section score

variable {patterns : List Pattern} {text body : List Char}

/-- The matches of all patterns together. -/
def totalCount (patterns : List Pattern) (text : List Char) : Nat :=
  patterns.foldr (fun p n => p.count text + n) 0

theorem branchScore_eq (patterns : List Pattern) (text : List Char) :
    branchScore patterns text = 1 + totalCount patterns text := by
  have hfold (score : Nat) : patterns.foldl (fun score p => score + p.count text) score =
      score + totalCount patterns text := by
    induction patterns generalizing score with
    | nil => rfl
    | cons p patterns ih =>
      rw [List.foldl_cons, ih, Nat.add_assoc]
      rfl
  exact hfold 1

theorem totalCount_le (h : ∀ p ∈ patterns, p.count body ≤ p.count text) :
    totalCount patterns body ≤ totalCount patterns text := by
  induction patterns with
  | nil => exact Nat.le_refl 0
  | cons p patterns ih =>
    have hp := h p List.mem_cons_self
    have hrest := ih fun q hq => h q (List.mem_cons_of_mem p hq)
    exact Nat.add_le_add hp hrest

theorem count_le_totalCount {p : Pattern} (hp : p ∈ patterns) :
    p.count text ≤ totalCount patterns text := by
  induction patterns with
  | nil => exact absurd hp List.not_mem_nil
  | cons q patterns ih =>
    rcases List.mem_cons.mp hp with rfl | hp
    · exact Nat.le_add_right _ _
    · exact Nat.le_trans (ih hp) (Nat.le_add_left _ _)

theorem one_le_branchScore (patterns : List Pattern) (text : List Char) :
    1 ≤ branchScore patterns text := by
  rw [branchScore_eq]
  exact Nat.le_add_right 1 _

theorem branchScore_le (h : ∀ p ∈ patterns, p.count body ≤ p.count text) :
    branchScore patterns body ≤ branchScore patterns text := by
  rw [branchScore_eq, branchScore_eq]
  exact Nat.add_le_add_left (totalCount_le h) 1

theorem branchScore_singleton_le {p : Pattern} (hp : p ∈ patterns)
    (h : p.count body ≤ p.count text) : branchScore [p] body ≤ branchScore patterns text := by
  have hone : branchScore [p] body = 1 + p.count body := rfl
  rw [hone, branchScore_eq]
  exact Nat.add_le_add_left (Nat.le_trans h (count_le_totalCount hp)) 1

end score

end CodeCensus
