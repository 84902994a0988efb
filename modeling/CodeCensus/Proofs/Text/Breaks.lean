import CodeCensus.Text.Lines

/-! Lines that end at any line break. A text made of lines and what ends them is cut into these lines again; an empty
line may be lost between a carriage return and a line feed, which end one line together. -/

namespace CodeCensus.Text

variable {α : Type} {line mark text : List Char} {c : Char}

theorem isBlank_of_isLineBreak (h : isLineBreak c = true) : isBlank c = true := by
  unfold isLineBreak at h
  unfold isBlank
  simp only [Bool.or_eq_true, Bool.and_eq_true, decide_eq_true_iff, beq_iff_eq] at h ⊢
  split
  all_goals simp only [Bool.or_eq_true, Bool.and_eq_true, decide_eq_true_iff, beq_iff_eq]; omega

/-- A text that a single line holds. -/
def IsOneLine (text : List Char) : Prop := ∀ c ∈ text, isLineBreak c = false

/-- What ends a line: a line break, or a carriage return and a line feed. -/
def IsLineEnd (mark : List Char) : Prop := mark = ['\r', '\n'] ∨ ∃ c, isLineBreak c = true ∧ mark = [c]

theorem IsOneLine.append {front back : List Char} (h : IsOneLine front) (h' : IsOneLine back) : IsOneLine (front ++ back) :=
  List.forall_mem_append.mpr ⟨h, h'⟩

theorem breakLinesFrom_nil (line : List Char) (done : List (List Char)) :
    breakLinesFrom line done [] = (if line.isEmpty then done else line.reverse :: done).reverse := rfl

theorem breakLinesFrom_cons {rest : List Char} (hfeed : c = '\r' → rest.head? ≠ some '\n') (line : List Char)
    (done : List (List Char)) :
    breakLinesFrom line done (c :: rest) =
      if isLineBreak c then breakLinesFrom [] (line.reverse :: done) rest else breakLinesFrom (c :: line) done rest := by
  rw [breakLinesFrom]
  rintro tail rfl rfl
  exact hfeed rfl rfl

theorem breakLinesFrom_cons_of_not (hc : isLineBreak c = false) (done : List (List Char)) (rest : List Char) :
    breakLinesFrom line done (c :: rest) = breakLinesFrom (c :: line) done rest := by
  have hfeed : c = '\r' → rest.head? ≠ some '\n' := fun h => absurd (h ▸ hc) (by decide)
  rw [breakLinesFrom_cons hfeed, hc]
  rfl

theorem breakLinesFrom_cons_of_pos (hc : isLineBreak c = true) (done : List (List Char)) {rest : List Char}
    (hfeed : c = '\r' → rest.head? ≠ some '\n') :
    breakLinesFrom line done (c :: rest) = breakLinesFrom [] (line.reverse :: done) rest := by
  rw [breakLinesFrom_cons hfeed, if_pos hc]

theorem breakLinesFrom_append (h : IsOneLine text) (done : List (List Char)) (rest : List Char) :
    breakLinesFrom line done (text ++ rest) = breakLinesFrom (text.reverse ++ line) done rest := by
  induction text generalizing line with
  | nil => rfl
  | cons c text ih =>
    obtain ⟨hc, htext⟩ := List.forall_mem_cons.mp h
    rw [List.cons_append, breakLinesFrom_cons_of_not hc, ih htext, List.reverse_cons, List.append_assoc, List.singleton_append]

/-- Lines ended before stay in front. -/
theorem breakLinesFrom_append_done (line : List Char) (done more : List (List Char)) (text : List Char) :
    breakLinesFrom line (done ++ more) text = more.reverse ++ breakLinesFrom line done text := by
  fun_induction breakLinesFrom line done text with
  | case1 line done =>
    rw [breakLinesFrom_nil]
    split
    · exact List.reverse_append
    · rw [← List.cons_append]
      exact List.reverse_append
  | case2 line done rest ih => exact ih
  | case3 line done c rest hne hc ih =>
    rw [breakLinesFrom, if_pos hc]
    · exact ih
    · exact hne
  | case4 line done c rest hne hc ih =>
    rw [breakLinesFrom, if_neg hc]
    · exact ih
    · exact hne

theorem breakLines_append_mark (hline : IsOneLine line) (hmark : IsLineEnd mark) {rest : List Char}
    (hfeed : mark = ['\r'] → rest.head? ≠ some '\n') :
    breakLines (line ++ (mark ++ rest)) = line :: breakLines rest := by
  have hcut : breakLinesFrom line.reverse [] (mark ++ rest) = breakLinesFrom [] [line] rest := by
    rcases hmark with rfl | ⟨c, hc, rfl⟩
    · exact congrArg (breakLinesFrom [] · rest) (congrArg ([·]) (List.reverse_reverse line))
    · rw [List.singleton_append, breakLinesFrom_cons_of_pos hc, List.reverse_reverse]
      rintro rfl
      exact hfeed rfl
  rw [breakLines, breakLinesFrom_append hline, List.append_nil, hcut]
  exact breakLinesFrom_append_done [] [] [line] rest

theorem breakLines_of_isOneLine (hline : IsOneLine line) : breakLines line = if line = [] then [] else [line] := by
  have hwhole : breakLinesFrom [] [] (line ++ []) = breakLinesFrom (line.reverse ++ []) [] [] :=
    breakLinesFrom_append hline [] []
  rw [List.append_nil, List.append_nil] at hwhole
  rw [breakLines, hwhole, breakLinesFrom_nil, List.reverse_reverse]
  by_cases hnil : line = []
  · rw [hnil]
    rfl
  · rw [if_neg (by simpa using hnil), if_neg hnil]
    rfl

/-- What is read off the lines of a text is read off each of them, if an empty line gives nothing. -/
theorem filterMap_breakLines_append {f : List Char → Option α} (hf : f [] = none) (hline : IsOneLine line)
    (hmark : IsLineEnd mark) (rest : List Char) :
    (breakLines (line ++ (mark ++ rest))).filterMap f = (f line).toList ++ (breakLines rest).filterMap f := by
  by_cases hjoined : mark = ['\r'] ∧ rest.head? = some '\n'
  · -- the two marks end the line together, and the empty line between them is lost
    obtain ⟨rfl, hhead⟩ := hjoined
    obtain ⟨rest, rfl⟩ := List.head?_eq_some_iff.mp hhead
    have hfeed : breakLines ('\n' :: rest) = [] :: breakLines rest :=
      breakLines_append_mark (List.forall_mem_nil _) (.inr ⟨'\n', rfl, rfl⟩) (by simp)
    have hboth : breakLines (line ++ (['\r'] ++ '\n' :: rest)) = line :: breakLines rest :=
      breakLines_append_mark hline (.inl rfl) (by simp)
    rw [hboth, hfeed, List.filterMap_cons, List.filterMap_cons, hf]
    cases f line <;> rfl
  · rw [breakLines_append_mark hline hmark fun heq hhead => hjoined ⟨heq, hhead⟩, List.filterMap_cons]
    cases f line <;> rfl

theorem filterMap_breakLines_of_isOneLine {f : List Char → Option α} (hf : f [] = none) (hline : IsOneLine line) :
    (breakLines line).filterMap f = (f line).toList := by
  rw [breakLines_of_isOneLine hline]
  split
  · rename_i hnil
    rw [hnil, hf]
    rfl
  · rw [List.filterMap_cons, List.filterMap_nil]
    cases f line <;> rfl

end CodeCensus.Text
