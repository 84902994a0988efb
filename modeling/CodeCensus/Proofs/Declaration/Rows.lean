import CodeCensus.Proofs.Declaration.Lines
import CodeCensus.Proofs.Text.Lines

/-! Where the lines of a text stand in it. A line begins after all lines above it and their line feeds. It is the
only place on the line that is the start of one, and every place on it is counted as on that line. -/

namespace CodeCensus

open Text Cursor

variable {text row : List Char} {above below : List (List Char)} {k : Nat}

theorem newline_not_mem_of_lines (h : lines text = above ++ row :: below) : ∀ r ∈ above ++ row :: below, '\n' ∉ r := by
  intro r hr
  have hfield : r ∈ fields '\n' text := by
    rw [← lines, h]
    exact hr
  exact not_mem_of_mem_fields hfield

theorem exists_text_eq_of_lines (h : lines text = above ++ row :: below) :
    ∃ tail, text = unlines above ++ (row ++ tail) ∧ ∀ c ∈ tail.head?, c = '\n' := by
  have hall : text ++ ['\n'] = unlines above ++ (row ++ '\n' :: unlines below) := by
    rw [← unlines_lines, h, unlines_append, unlines_cons]
  rcases eq_or_ne below [] with rfl | hne
  · refine ⟨[], ?_, fun c hc => by cases hc⟩
    have hlast : text ++ ['\n'] = unlines above ++ row ++ ['\n'] := by
      rw [hall, List.append_assoc]
      rfl
    rw [List.append_nil, List.append_cancel_right hlast]
  · obtain ⟨front, hfront⟩ := exists_unlines_eq_append hne
    have hmore : text ++ ['\n'] = unlines above ++ (row ++ '\n' :: front) ++ ['\n'] := by
      simp [hall, hfront]
    exact ⟨'\n' :: front, List.append_cancel_right hmore, fun c hc => (Option.some.inj hc).symm⟩

theorem length_unlines_concat (above : List (List Char)) (row : List Char) :
    (unlines (above ++ [row])).length = (unlines above).length + row.length + 1 := by
  simp [unlines, Nat.add_assoc]

theorem count_unlines (h : ∀ r ∈ above, '\n' ∉ r) : (unlines above).count '\n' = above.length := by
  induction above with
  | nil => rfl
  | cons r above ih =>
    have hr : r.count '\n' = 0 := List.count_eq_zero.mpr (h r List.mem_cons_self)
    have habove := ih fun r' hr' => h r' (List.mem_cons_of_mem r hr')
    rw [unlines_cons, List.count_append, List.count_cons_self, hr, habove, List.length_cons, Nat.zero_add]

theorem getElem?_row {tail : List Char} (htext : text = unlines above ++ (row ++ tail))
    (hk : (unlines above).length ≤ k) (hlt : k < (unlines above).length + row.length) :
    text[k]? = row[k - (unlines above).length]? := by
  rw [htext, List.getElem?_append_right hk, List.getElem?_append_left (by omega)]

theorem line_on_row (h : lines text = above ++ row :: below) (hk : (unlines above).length ≤ k)
    (hle : k ≤ (unlines above).length + row.length) : (on text k).line = above.length + 1 := by
  obtain ⟨tail, htext, -⟩ := exists_text_eq_of_lines h
  have hnone := newline_not_mem_of_lines h
  have habove : (unlines above).count '\n' = above.length :=
    count_unlines fun r hr => hnone r (List.mem_append_left _ hr)
  have hrow : (row.take (k - (unlines above).length)).count '\n' = 0 :=
    List.count_eq_zero.mpr fun hmem => hnone row (by simp) (List.take_subset _ _ hmem)
  have htake : text.take k = unlines above ++ row.take (k - (unlines above).length) := by
    rw [htext, List.take_append, List.take_of_length_le hk, List.take_append_of_le_length (by omega)]
  rw [line_on, htake, List.count_append, habove, hrow]

theorem lineStart_row (h : lines text = above ++ row :: below) :
    Edge.lineStart.holds (on text (unlines above).length) = true := by
  obtain ⟨tail, htext, -⟩ := exists_text_eq_of_lines h
  have htake : text.take (unlines above).length = unlines above := by rw [htext, List.take_left]
  change ((text.take (unlines above).length).getLast?.getD '\n' == '\n') = true
  rw [htake]
  rcases eq_or_ne above [] with rfl | hne
  · rfl
  · obtain ⟨front, hfront⟩ := exists_unlines_eq_append hne
    rw [hfront, List.getLast?_concat]
    rfl

theorem not_lineStart_row (h : lines text = above ++ row :: below) (hk : (unlines above).length < k)
    (hle : k ≤ (unlines above).length + row.length) : Edge.lineStart.holds (on text k) = false := by
  obtain ⟨tail, htext, -⟩ := exists_text_eq_of_lines h
  obtain ⟨l, rfl⟩ : ∃ l, k = l + 1 := ⟨k - 1, by omega⟩
  have hget := getElem?_row htext (k := l) (by omega) (by omega)
  have hlt : l - (unlines above).length < row.length := by omega
  rw [List.getElem?_eq_getElem hlt] at hget
  have hne : row[l - (unlines above).length] ≠ '\n' := fun heq =>
    newline_not_mem_of_lines h row (by simp) (heq ▸ List.getElem_mem hlt)
  obtain ⟨hltext, hgetText⟩ := List.getElem?_eq_some_iff.mp hget
  change ((text.take (l + 1)).getLast?.getD '\n' == '\n') = false
  rw [List.take_succ_eq_append_getElem hltext, List.getLast?_concat, Option.getD_some, hgetText]
  exact beq_eq_false_iff_ne.mpr hne

end CodeCensus
