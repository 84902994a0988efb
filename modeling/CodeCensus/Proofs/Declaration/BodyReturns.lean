import CodeCensus.Proofs.Declaration.Bodies
import CodeCensus.Proofs.Declaration.Rows
import CodeCensus.Proofs.Text.Returns

/-! Where the bodies of functions lie in a text and in the text without its carriage returns. A body is found by
braces, by how far its lines are indented or by the line that closes it, and none of these is told otherwise by a
carriage return at the end of a line: the body in the one text is the body in the other, without its carriage
returns. -/

namespace CodeCensus

open Text

variable {text row : List Char} {rows : List (List Char)}

namespace Body

/-! ## Blocks in braces -/

theorem closeFrom_bare (depth : Nat) (taken rest : List Char) :
    closeFrom depth (bare taken) (bare rest) = bare (closeFrom depth taken rest) := by
  induction rest generalizing depth taken with
  | nil => exact List.filter_reverse.symm
  | cons c rest ih =>
    by_cases hreturn : c = '\r'
    · subst hreturn
      exact ih depth ('\r' :: taken)
    · have hstep (depth : Nat) : closeFrom depth (c :: bare taken) (bare rest) = bare (closeFrom depth (c :: taken) rest) := by
        rw [← bare_cons hreturn]
        exact ih depth (c :: taken)
      rw [bare_cons hreturn, closeFrom, closeFrom]
      split
      · exact hstep (depth + 1)
      · split
        · split
          · rw [← bare_cons hreturn]
            exact List.filter_reverse.symm
          · exact hstep (depth - 1)
        · exact hstep depth

theorem braced_bare (text : List Char) : braced (bare text) = bare (braced text) := by
  rw [braced, dropWhile_bare (by decide)]
  exact closeFrom_bare 0 [] _

theorem bracedOpen_bare (rest : List Char) : bracedOpen (bare rest) = bare (bracedOpen rest) := by
  rw [bracedOpen, ← bare_cons (by decide)]
  exact braced_bare _

theorem braced_isInfix (text : List Char) : braced text <:+: text := by
  obtain ⟨cut, after, hblock, hclose, -⟩ := exists_closeFrom_eq 0 [] (text.dropWhile (· != '{'))
  have hcut : braced text = cut := hclose
  rw [hcut]
  exact ⟨text.takeWhile (· != '{'), after, by rw [List.append_assoc, ← hblock, List.takeWhile_append_dropWhile]⟩

theorem returnsEndLines_bracedOpen {rest : List Char} (h : ReturnsEndLines rest) : ReturnsEndLines (bracedOpen rest) :=
  (h.cons (by decide)).of_isInfix (braced_isInfix _)

/-- What is passed before a block makes no difference if it holds no opening brace. -/
theorem braced_append {front rest : List Char} (h : '{' ∉ front) : braced (front ++ rest) = braced rest := by
  have hfront : ∀ c ∈ front, (c != '{') = true := fun c hc => bne_iff_ne.mpr fun heq => h (heq ▸ hc)
  rw [braced, braced, List.dropWhile_append_of_pos hfront]

/-! ## After an arrow -/

theorem isPrefixOf_arrow_bare {c : Char} {rest : List Char} (h : ReturnsEndLines (c :: rest)) :
    ['=', '>'].isPrefixOf (c :: bare rest) = ['=', '>'].isPrefixOf (c :: rest) := by
  cases rest with
  | nil => rfl
  | cons d rest =>
    by_cases hd : d = '\r'
    · subst hd
      cases rest with
      | nil => rfl
      | cons e rest =>
        have he : e = '\n' := (List.isChain_cons_cons.mp h.tail).1 rfl
        subst he
        rw [bare_cons_return, bare_cons (by decide)]
        cases hmark : '=' == c <;> simp [List.isPrefixOf, hmark]
    · rw [bare_cons hd]
      simp [List.isPrefixOf]

theorem cutFirstAfter_arrow_bare (h : ReturnsEndLines text) (seen : List Char) :
    cutFirstAfter ['=', '>'] (bare seen) (bare text) =
      (cutFirstAfter ['=', '>'] seen text).map fun (before, after) => (bare before, bare after) := by
  induction text generalizing seen with
  | nil => rfl
  | cons c rest ih =>
    by_cases hreturn : c = '\r'
    · subst hreturn
      exact ih h.tail ('\r' :: seen)
    · rw [bare_cons hreturn, cutFirstAfter, cutFirstAfter, isPrefixOf_arrow_bare h]
      split
      · rename_i hmark
        obtain ⟨after, hafter⟩ := List.isPrefixOf_iff_prefix.mp hmark
        obtain ⟨rfl, hrest⟩ := List.cons.inj hafter
        rw [← hrest]
        simp [bare]
      · rw [← bare_cons hreturn]
        exact ih h.tail (c :: seen)

theorem head?_bare_of_ne {text : List Char} (h : ∀ c ∈ text.head?, c ≠ '\r') : (bare text).head? = text.head? := by
  cases text with
  | nil => rfl
  | cons c rest => rw [bare_cons (h c rfl), List.head?_cons, List.head?_cons]

theorem ofArrow_bare (h : ReturnsEndLines text) : ofArrow (bare text) = bare (ofArrow text) := by
  have hcut : cutFirst ['=', '>'] (bare text) =
      (cutFirst ['=', '>'] text).map fun (before, after) => (bare before, bare after) :=
    cutFirstAfter_arrow_bare h []
  rw [ofArrow, ofArrow, hcut]
  cases cutFirst ['=', '>'] text with
  | none => rfl
  | some parts =>
    obtain ⟨before, after⟩ := parts
    have hblank : isBlank '\r' = true := by decide
    have hhead : (bare (after.dropWhile isBlank)).head? = (after.dropWhile isBlank).head? := by
      refine head?_bare_of_ne fun c hc heq => ?_
      have hfirst := List.head?_dropWhile_not isBlank after
      rw [Option.mem_def.mp hc, heq] at hfirst
      simp [hblank] at hfirst
    dsimp only [Option.map_some]
    rw [dropWhile_bare hblank, hhead]
    split
    · exact braced_bare _
    · exact takeWhile_bare (by decide) _

theorem returnsEndLines_ofArrow (h : ReturnsEndLines text) : ReturnsEndLines (ofArrow text) := by
  rw [ofArrow]
  split
  · exact .nil
  · rename_i before after hcut
    have hafter : ReturnsEndLines after := by
      refine h.of_isInfix ⟨before ++ ['=', '>'], [], ?_⟩
      rw [cutFirst_eq_some hcut]
      simp
    dsimp only
    split
    · exact (hafter.dropWhile _).of_isInfix (braced_isInfix _)
    · exact (hafter.dropWhile _).takeWhile _

/-! ## Lines -/

/-- A line of a text: it holds no line feed, and no carriage return but at its end. -/
structure IsRow (row : List Char) : Prop where
  returns : ReturnsEndLines row
  feed : '\n' ∉ row

theorem isRow_of_mem_lines (h : ReturnsEndLines text) (hrow : row ∈ lines text) : IsRow row := by
  obtain ⟨above, below, hlines⟩ := List.append_of_mem hrow
  obtain ⟨tail, htext, -⟩ := exists_text_eq_of_lines hlines
  refine ⟨h.of_isInfix ⟨unlines above, tail, ?_⟩, newline_not_mem_of_lines hlines row (by simp)⟩
  rw [htext, List.append_assoc]

theorem lines_bare (text : List Char) : lines (bare text) = (lines text).map bare := fields_bare (by decide) text

theorem isBlankLine_bare (row : List Char) : isBlankLine (bare row) = isBlankLine row := all_bare (by decide) row

theorem indentation_bare (h : IsRow row) (hcode : isBlankLine row = false) :
    indentation (bare row) = indentation row := by
  rcases h.returns.eq_bare h.feed with heq | heq
  · rw [← heq]
  · have hcode' : isBlankLine (bare row) = false := (isBlankLine_bare row).trans hcode
    -- the blanks that a line begins with stop before its end, where the carriage return is
    have hblanks : (bare row ++ ['\r']).takeWhile isBlank = (bare row).takeWhile isBlank := by
      rw [List.takeWhile_append, if_neg]
      intro hlength
      have hall : (bare row).takeWhile isBlank = bare row :=
        (List.takeWhile_prefix isBlank).eq_of_length hlength
      have hblank : isBlankLine (bare row) = true := by
        rw [isBlankLine, List.all_eq_true]
        exact List.takeWhile_eq_self_iff.mp hall
      rw [hblank] at hcode'
      cases hcode'
    rw [← heq] at hblanks
    rw [indentation, indentation, hblanks]

theorem takeWhile_map_of_forall {α β : Type} {f : α → β} {p : α → Bool} {q : β → Bool} {l : List α}
    (h : ∀ x ∈ l, q (f x) = p x) : (l.map f).takeWhile q = (l.takeWhile p).map f := by
  induction l with
  | nil => rfl
  | cons x l ih =>
    have hx := h x List.mem_cons_self
    rw [List.map_cons, List.takeWhile_cons, List.takeWhile_cons, hx, ih fun y hy => h y (List.mem_cons_of_mem x hy)]
    split <;> rfl

theorem dropWhile_isBlankLine_bare (rows : List (List Char)) :
    (rows.map bare).dropWhile isBlankLine = (rows.dropWhile isBlankLine).map bare := by
  rw [List.dropWhile_map]
  congr
  funext row
  exact isBlankLine_bare row

theorem indentedLines_bare (header : Int) (h : ∀ row ∈ rows, IsRow row) :
    indentedLines header (rows.map bare) = (indentedLines header rows).map bare := by
  rw [indentedLines, indentedLines, dropWhile_isBlankLine_bare]
  cases hblock : rows.dropWhile isBlankLine with
  | nil => rfl
  | cons first rest =>
    have hmem : ∀ row ∈ first :: rest, row ∈ rows := fun row hrow =>
      (List.dropWhile_suffix isBlankLine).subset (hblock ▸ hrow)
    have hcode : isBlankLine first = false := by
      have hfirst := List.head?_dropWhile_not isBlankLine rows
      rw [hblock] at hfirst
      simpa using hfirst
    have hbase : indentation (bare first) = indentation first :=
      indentation_bare (h first (hmem first List.mem_cons_self)) hcode
    have htaken : ∀ row ∈ rest, (isBlankLine (bare row) || decide (indentation first ≤ indentation (bare row))) =
        (isBlankLine row || decide (indentation first ≤ indentation row)) := by
      intro row hrow
      rw [isBlankLine_bare]
      cases hblank : isBlankLine row with
      | true => rfl
      | false => rw [indentation_bare (h row (hmem row (List.mem_cons_of_mem first hrow))) hblank]
    rw [List.map_cons]
    dsimp only
    rw [hbase, takeWhile_map_of_forall htaken, List.filter_map]
    split
    · rfl
    · rw [List.map_cons]
      congr
      funext row
      exact congrArg (!·) (isBlankLine_bare row)

theorem unlines_bare (rows : List (List Char)) : unlines (rows.map bare) = bare (unlines rows) := by
  induction rows with
  | nil => rfl
  | cons row rows ih => rw [List.map_cons, unlines_cons, unlines_cons, ih, bare_append, bare_cons (by decide)]

theorem returnsEndLines_unlines (h : ∀ row ∈ rows, IsRow row) : ReturnsEndLines (unlines rows) := by
  induction rows with
  | nil => exact .nil
  | cons row rows ih =>
    have hrest := ih fun r hr => h r (List.mem_cons_of_mem row hr)
    rw [unlines_cons]
    refine List.isChain_append.mpr ⟨(h row List.mem_cons_self).returns, hrest.cons (by decide), ?_⟩
    intro c _ d hd _
    exact (Option.some.inj hd).symm

theorem indented_bare (header : Int) (h : ∀ row ∈ rows, IsRow row) :
    indented header (rows.map bare) = bare (indented header rows) := by
  rw [indented, indentedLines_bare header h, unlines_bare, indented]

theorem mem_of_mem_indentedLines {header : Int} (h : row ∈ indentedLines header rows) : row ∈ rows := by
  rw [indentedLines] at h
  split at h
  · cases h
  · rename_i first rest hblock
    have hmem : ∀ row ∈ first :: rest, row ∈ rows := fun row hrow =>
      (List.dropWhile_suffix isBlankLine).subset (hblock ▸ hrow)
    dsimp only at h
    split at h
    · cases h
    · rcases List.mem_cons.mp h with rfl | hrest
      · exact hmem _ List.mem_cons_self
      · exact hmem row (List.mem_cons_of_mem first ((List.takeWhile_sublist _).subset (List.mem_of_mem_filter hrest)))

theorem returnsEndLines_indented (header : Int) (h : ∀ row ∈ rows, IsRow row) :
    ReturnsEndLines (indented header rows) :=
  returnsEndLines_unlines fun row hrow => h row (mem_of_mem_indentedLines hrow)

theorem untilEnd_bare (h : ∀ row ∈ rows, IsRow row) : untilEnd (rows.map bare) = bare (untilEnd rows) := by
  have htaken : (rows.map bare).takeWhile (fun line => trim line != ['e', 'n', 'd']) =
      (rows.takeWhile fun line => trim line != ['e', 'n', 'd']).map bare := by
    refine takeWhile_map_of_forall fun row hrow => ?_
    rw [trim_bare (h row hrow).returns (h row hrow).feed]
  rw [untilEnd, htaken, unlines_bare, untilEnd]

theorem returnsEndLines_untilEnd (h : ∀ row ∈ rows, IsRow row) : ReturnsEndLines (untilEnd rows) :=
  returnsEndLines_unlines fun row hrow => h row ((List.takeWhile_sublist _).subset hrow)

end Body

end CodeCensus
