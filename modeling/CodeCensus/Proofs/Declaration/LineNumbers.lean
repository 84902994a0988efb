import CodeCensus.Proofs.Declaration.Rows

/-! The number of a line, counted by the line feeds before a place, is the number of a line as a text is cut into
them. So the lines after that number are those that begin behind the next line feed, and that is where the bodies
of definitions are looked for that end by indentation or at a closing word. -/

namespace CodeCensus.Text

/-- Where a line starts: behind the lines above it and their line feeds. -/
def lineStart (text : List Char) (line : Nat) : Nat := (unlines ((lines text).take (line - 1))).length

/-- The lines that begin behind the first line feed at a place or after it. -/
def linesBelow (text : List Char) (i : Nat) : List (List Char) :=
  match (text.drop i).dropWhile fun c => c != '\n' with
  | [] => []
  | _ :: rest => lines rest

/-- A place is on a line of a text: on one of its characters, or on the line feed or the end of the text behind
them. -/
structure OnLine (text : List Char) (i line : Nat) : Prop where
  bounds : 1 ≤ line ∧ line ≤ (lines text).length
  start_le : lineStart text line ≤ i
  row : ∃ row, (lines text)[line - 1]? = some row ∧ i ≤ lineStart text line + row.length ∧
    (i < lineStart text line + row.length → text[i]? = row[i - lineStart text line]?) ∧
    (i = lineStart text line + row.length → ∀ c ∈ text[i]?, c = '\n')

/-! ## The lines below a place -/

theorem lines_drop_one (text : List Char) :
    (lines text).drop 1 = match text.dropWhile fun c => c != '\n' with
      | [] => []
      | _ :: rest => lines rest := by
  induction text with
  | nil => rfl
  | cons c rest ih =>
    by_cases hc : c = '\n'
    · rw [hc, lines, fields_cons_sep, List.dropWhile_cons_of_neg (by simp)]
      rfl
    · obtain ⟨first, others, hrest⟩ := List.exists_cons_of_ne_nil (fields_ne_nil '\n' rest)
      rw [List.dropWhile_cons_of_pos (by simpa using hc), ← ih, lines, lines, fields_cons_of_ne hc hrest, hrest]
      rfl

theorem lineOf_cons_succ (c : Char) (rest : List Char) (i : Nat) :
    lineOf (c :: rest) (i + 1) = if c = '\n' then lineOf rest i + 1 else lineOf rest i := by
  rw [lineOf, lineOf, lineFeeds, lineFeeds, List.take_succ_cons, List.count_cons]
  by_cases hc : c = '\n' <;> simp [hc]

/-- What is left of the lines of a text after as many as the number of a place tells are the lines below it. -/
theorem drop_lineOf (text : List Char) (i : Nat) : (lines text).drop (lineOf text i) = linesBelow text i := by
  induction text generalizing i with
  | nil =>
    rw [linesBelow, List.drop_nil, lineOf, List.take_nil]
    rfl
  | cons c rest ih =>
    cases i with
    | zero => exact lines_drop_one (c :: rest)
    | succ i =>
      have hbelow : linesBelow (c :: rest) (i + 1) = linesBelow rest i := rfl
      rw [hbelow, ← ih, lineOf_cons_succ]
      by_cases hc : c = '\n'
      · rw [if_pos hc, hc, lines, fields_cons_sep, List.drop_succ_cons, lines]
      · obtain ⟨first, others, hrest⟩ := List.exists_cons_of_ne_nil (fields_ne_nil '\n' rest)
        rw [if_neg hc, lines, lines, fields_cons_of_ne hc hrest, hrest, lineOf, List.drop_succ_cons,
          List.drop_succ_cons]

/-! ## The line of a place -/

/-- Every place of a text is on one of its lines. -/
theorem exists_lines_of_le {text : List Char} {i : Nat} (h : i ≤ text.length) :
    ∃ above row below, lines text = above ++ row :: below ∧ (unlines above).length ≤ i ∧
      i ≤ (unlines above).length + row.length := by
  induction text generalizing i with
  | nil => exact ⟨[], [], [], rfl, Nat.zero_le i, h⟩
  | cons c rest ih =>
    cases i with
    | zero =>
      obtain ⟨row, below, hlines⟩ := List.exists_cons_of_ne_nil (fields_ne_nil '\n' (c :: rest))
      exact ⟨[], row, below, hlines, Nat.le_refl 0, Nat.zero_le _⟩
    | succ i =>
      obtain ⟨above, row, below, hlines, hstart, hstop⟩ := ih (Nat.le_of_succ_le_succ h)
      by_cases hc : c = '\n'
      · refine ⟨[] :: above, row, below, by rw [hc, lines, fields_cons_sep, ← lines, hlines, List.cons_append], ?_⟩
        rw [unlines_cons, List.nil_append, List.length_cons]
        omega
      · cases above with
        | nil =>
          refine ⟨[], c :: row, below, fields_cons_of_ne hc hlines, Nat.zero_le _, ?_⟩
          rw [List.length_cons]
          exact Nat.succ_le_succ hstop
        | cons first above =>
          refine ⟨(c :: first) :: above, row, below, fields_cons_of_ne hc hlines, ?_⟩
          rw [unlines_cons, List.length_append] at hstart hstop
          rw [unlines_cons, List.length_append, List.length_cons]
          omega

theorem onLine_lineOf {text : List Char} {i : Nat} (h : i ≤ text.length) : OnLine text i (lineOf text i) := by
  obtain ⟨above, row, below, hlines, hlow, hhigh⟩ := exists_lines_of_le h
  obtain ⟨tail, htext, htail⟩ := exists_text_eq_of_lines hlines
  have hline : lineOf text i = above.length + 1 := line_on_row hlines hlow hhigh
  have hstart : lineStart text (above.length + 1) = (unlines above).length := by
    rw [lineStart, Nat.add_sub_cancel, hlines, List.take_left]
  rw [hline]
  refine ⟨⟨Nat.le_add_left 1 _, ?_⟩, hstart ▸ hlow, row, ?_, hstart ▸ hhigh, fun hlt => ?_, fun hend c hc => ?_⟩
  · rw [hlines, List.length_append, List.length_cons]
    omega
  · rw [hlines, Nat.add_sub_cancel, List.getElem?_append_right (Nat.le_refl _), Nat.sub_self]
    rfl
  · rw [hstart] at hlt ⊢
    exact getElem?_row htext hlow hlt
  · rw [hstart] at hend
    rw [htext, ← List.append_assoc, hend, ← List.length_append, List.getElem?_append_right (Nat.le_refl _),
      Nat.sub_self, ← List.head?_eq_getElem?] at hc
    exact htail c hc

/-- A place is on no other line than that of its number. -/
theorem OnLine.eq_lineOf {text : List Char} {i line : Nat} (h : OnLine text i line) : line = lineOf text i := by
  obtain ⟨row, hrow, hstop, -⟩ := h.row
  obtain ⟨hlt, rfl⟩ := List.getElem?_eq_some_iff.mp hrow
  have hlines : lines text =
      (lines text).take (line - 1) ++ (lines text)[line - 1] :: (lines text).drop (line - 1 + 1) := by
    rw [← List.drop_eq_getElem_cons hlt, List.take_append_drop]
  have hline : lineOf text i = ((lines text).take (line - 1)).length + 1 := line_on_row hlines h.start_le hstop
  rw [hline, List.length_take, Nat.min_eq_left (Nat.le_of_lt hlt), Nat.sub_add_cancel h.bounds.1]

theorem onLine_iff {text : List Char} {i : Nat} (h : i ≤ text.length) (line : Nat) :
    OnLine text i line ↔ line = lineOf text i :=
  ⟨OnLine.eq_lineOf, fun hline => hline ▸ onLine_lineOf h⟩

end CodeCensus.Text

namespace CodeCensus

open Text Pattern Cursor

/-! ## Bodies -/

theorem drop_line_stop {p : Pattern} {text : List Char} {m : Match} (hm : m ∈ p.all text) :
    (lines text).drop m.stop.line = linesBelow text m.stop.pos := by
  obtain ⟨i, j, hfinds⟩ := (p.all_scan text).finds m hm
  rw [hfinds.2.2]
  exact drop_lineOf text j

theorem drop_line_start {p : Pattern} {text : List Char} {m : Match} (hm : m ∈ p.all text) :
    (lines text).drop m.start.line = linesBelow text m.start.pos := by
  obtain ⟨i, j, hfinds⟩ := (p.all_scan text).finds m hm
  rw [hfinds.2.1]
  exact drop_lineOf text i

/-- The number of a place, counted by line feeds, is that of the one line it is on when the text is cut into lines.
What is left of the lines after it begins behind the next line feed, and a place before the end of the text is on
one of the lines that a file is counted to have. In the lines below the end of its head the body of a Python
definition is looked for, and in those below the start of its head that of a Ruby definition. -/
theorem lineOf_numbers (text : List Char) :
    (∀ i ≤ text.length, (∀ line, OnLine text i line ↔ line = lineOf text i) ∧
      (lines text).drop (lineOf text i) = linesBelow text i ∧
      (i < text.length → lineOf text i ≤ lineCount text)) ∧
    (∀ score, (Functions.python score text).map Function.complexity =
      (Functions.pythonHead.all text).map fun m =>
        score (Body.indented (expandTabs (m.groupText 1)).length (linesBelow text m.stop.pos))) ∧
    ∀ score, (Functions.ruby score text).map Function.complexity =
      (Functions.rubyHead.all text).map fun m => score (Body.untilEnd (linesBelow text m.start.pos)) := by
  refine ⟨fun i h => ⟨onLine_iff h, drop_lineOf text i, line_on_le_lineCount⟩, fun score => ?_, fun score => ?_⟩
  · rw [Functions.python, List.map_map]
    refine List.map_congr_left fun m hm => ?_
    rw [← drop_line_stop hm]
    rfl
  · rw [Functions.ruby, List.map_map]
    refine List.map_congr_left fun m hm => ?_
    rw [← drop_line_start hm]
    rfl

/-- The line feed of an empty line is on that line, which is the second of three. -/
theorem lineOf_numbers_emptyLine :
    2 ≤ ['a', '\n', '\n', 'b', '\n'].length ∧ OnLine ['a', '\n', '\n', 'b', '\n'] 2 2 ∧
      (lines ['a', '\n', '\n', 'b', '\n']).drop 2 = [['b'], []] ∧ 2 ≤ lineCount ['a', '\n', '\n', 'b', '\n'] := by
  obtain ⟨hline, hbelow, hcount⟩ := (lineOf_numbers ['a', '\n', '\n', 'b', '\n']).1 2 (by decide)
  exact ⟨by decide, (hline 2).mpr rfl, hbelow, hcount (by decide)⟩

end CodeCensus
