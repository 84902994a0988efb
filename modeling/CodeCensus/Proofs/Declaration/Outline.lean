import CodeCensus.Declaration.Body
import CodeCensus.Proofs.Declaration.Heads
import Mathlib.Data.List.TakeWhile

/-! Modules as they are laid out: definitions with their blocks, one within another, between blank lines and lines
of other code. The functions that are found in such a module are its definitions, each one scored by the lines of
its block. The lines are read one by one from the top; those above a line tell where it begins. -/

namespace CodeCensus

open Text Pattern Cursor

/-! ## Blocks told by indentation

What is taken after a header are the lines of its block that are not blank, if the first of them is indented further
than the header, the others at least as far as that one, and what follows less far. -/

namespace Body

/-- How far the first line that is not blank is indented. -/
def column? (rows : List (List Char)) : Option Nat :=
  (rows.find? fun row => !isBlankLine row).map indentation

variable {rows block below : List (List Char)} {base n : Nat}

theorem exists_of_column? (h : column? rows = some n) :
    ∃ blank row more, rows = blank ++ row :: more ∧ (∀ r ∈ blank, isBlankLine r = true) ∧
      isBlankLine row = false ∧ indentation row = n := by
  obtain ⟨row, hfind, hn⟩ := Option.map_eq_some_iff.mp h
  obtain ⟨hrow, blank, more, hrows, hblank⟩ := List.find?_eq_some_iff_append.mp hfind
  exact ⟨blank, row, more, hrows, fun r hr => by simpa using hblank r hr, by simpa using hrow, hn⟩

theorem isBlankLine_of_column? (h : column? rows = none) : ∀ row ∈ rows, isBlankLine row = true := by
  have hnone := List.find?_eq_none.mp (Option.map_eq_none_iff.mp h)
  exact fun row hrow => by simpa using hnone row hrow

theorem column?_cons_of_isBlankLine {row : List Char} (h : isBlankLine row = true) :
    column? (row :: rows) = column? rows := by
  rw [column?, List.find?_cons_of_neg (by simp [h]), column?]

theorem column?_cons_of_not {row : List Char} (h : isBlankLine row = false) :
    column? (row :: rows) = some (indentation row) := by
  rw [column?, List.find?_cons_of_pos (by simp [h]), Option.map_some]

/-- Of lines that follow a block, only blank ones are passed before the block is known to have ended. -/
theorem isBlankLine_of_mem_takeWhile (hbelow : ∀ c ∈ column? below, c < base) {row : List Char}
    (hrow : row ∈ below.takeWhile fun row => isBlankLine row || base ≤ indentation row) :
    isBlankLine row = true := by
  cases hcolumn : column? below with
  | none => exact isBlankLine_of_column? hcolumn row (List.takeWhile_subset _ hrow)
  | some n =>
    obtain ⟨blank, next, more, rfl, hblank, hnext, rfl⟩ := exists_of_column? hcolumn
    have hlt := hbelow _ hcolumn
    rw [List.takeWhile_append_of_pos fun r hr => by simp [hblank r hr],
      List.takeWhile_cons_of_neg (by simp [hnext, hlt]), List.append_nil] at hrow
    exact hblank row hrow

theorem indentedLines_append {header : Int} (hbase : column? block = some base) (hheader : header < base)
    (hblock : ∀ row ∈ block, isBlankLine row = false → base ≤ indentation row)
    (hbelow : ∀ c ∈ column? below, c < base) :
    indentedLines header (block ++ below) = block.filter fun row => !isBlankLine row := by
  obtain ⟨blank, first, more, rfl, hblank, hfirst, rfl⟩ := exists_of_column? hbase
  have hdrop : (blank ++ first :: more ++ below).dropWhile isBlankLine = first :: (more ++ below) := by
    rw [List.append_assoc, List.dropWhile_append_of_pos hblank, List.cons_append,
      List.dropWhile_cons_of_neg (by simp [hfirst])]
  have hmore : ∀ row ∈ more, (isBlankLine row || decide (indentation first ≤ indentation row)) = true := by
    intro row hrow
    cases hrowBlank : isBlankLine row with
    | true => rfl
    | false => exact decide_eq_true (hblock row (by simp [hrow]) hrowBlank)
  have hafter : (below.takeWhile fun row => isBlankLine row || decide (indentation first ≤ indentation row)).filter
      (fun row => !isBlankLine row) = [] :=
    List.filter_eq_nil_iff.mpr fun row hrow => by simp [isBlankLine_of_mem_takeWhile hbelow hrow]
  have hblankRows : blank.filter (fun row => !isBlankLine row) = [] :=
    List.filter_eq_nil_iff.mpr fun row hrow => by simp [hblank row hrow]
  rw [indentedLines, hdrop]
  dsimp only
  rw [if_neg (by omega), List.takeWhile_append_of_pos hmore, List.filter_append, hafter, List.append_nil,
    List.filter_append, hblankRows, List.nil_append, List.filter_cons_of_pos (by simp [hfirst])]

end Body

/-! ## Layout -/

/-- Blank lines, lines of other code, and definitions, each with its block and what follows the block. -/
inductive Outline where
  | done
  | blank (line : List Char) (rest : Outline)
  | plain (indent code : List Char) (rest : Outline)
  | definition (head : Head) (block rest : Outline)

def width (indent : List Char) : Nat := (expandTabs indent).length

/-- Code on a line of its own that opens no definition. -/
structure IsPlainLine (indent code : List Char) : Prop where
  indent_isSpace : ∀ c ∈ indent, among [' ', '\t'] c = true
  code_begins : ∃ c ∈ code.head?, isBlank c = false
  newline_not_mem : '\n' ∉ code
  not_opensDefinition : ¬ OpensDefinition (indent ++ code)

namespace Outline

def lines : Outline → List (List Char)
  | done => []
  | blank line rest => line :: rest.lines
  | plain indent code rest => (indent ++ code) :: rest.lines
  | definition head block rest => head.text :: (block.lines ++ rest.lines)

def text (module : Outline) : List Char := List.intercalate ['\n'] module.lines

/-- How far the first line is indented that is not blank, or what follows if there is none. -/
def column? (next : Option Nat) : Outline → Option Nat
  | done => next
  | blank _ rest => rest.column? next
  | plain indent _ _ => some (width indent)
  | definition head _ _ => some (width head.indent)

def AtLeast (base : Nat) : Outline → Prop
  | done => True
  | blank _ rest => rest.AtLeast base
  | plain indent _ rest => base ≤ width indent ∧ rest.AtLeast base
  | definition head _ rest => base ≤ width head.indent ∧ rest.AtLeast base

/-- A block is indented further than its head, each part of it at least as far as its first line, and what follows
the block less far. What follows the whole is indented as far as `next` says, if anything follows. -/
def IsLaidOut (next : Option Nat) : Outline → Prop
  | done => True
  | blank line rest => (∀ c ∈ line, isBlank c = true ∧ c ≠ '\n') ∧ rest.IsLaidOut next
  | plain indent code rest => IsPlainLine indent code ∧ rest.IsLaidOut next
  | definition head block rest =>
    head.IsProper ∧
      (∃ base, block.column? none = some base ∧ width head.indent < base ∧ block.AtLeast base ∧
        ∀ c ∈ rest.column? next, c < base) ∧
      block.IsLaidOut (rest.column? next) ∧ rest.IsLaidOut next

end Outline

/-- The function that a head on a line stands for, with the lines below it that are its block. -/
def Head.function (score : Scorer) (line : Nat) (block : List (List Char)) (h : Head) : Function where
  name := String.ofList h.name
  line
  complexity := score (unlines (block.filter fun row => !Body.isBlankLine row))
  parameters := h.parameters.map String.ofList
  returnType := h.result.map fun result => String.ofList (trim result)

/-- The functions that the definitions stand for, from a line on. -/
def Outline.functions (score : Scorer) : Nat → Outline → List Function
  | _, done => []
  | n, blank _ rest => rest.functions score (n + 1)
  | n, plain _ _ rest => rest.functions score (n + 1)
  | n, definition head block rest =>
    head.function score n block.lines ::
      (block.functions score (n + 1) ++ rest.functions score (n + 1 + block.lines.length))

/-! ## Indentation of lines -/

theorem isBlank_of_isSpace {c : Char} (h : among [' ', '\t'] c = true) : isBlank c = true := by
  have hmem : c ∈ [' ', '\t'] := by simpa [among] using h
  rcases List.mem_cons.mp hmem with rfl | hmem
  · decide
  · obtain rfl := List.mem_singleton.mp hmem
    decide

theorem ne_newline_of_isSpace {c : Char} (h : among [' ', '\t'] c = true) : c ≠ '\n' := by
  rintro rfl
  cases h

theorem isBlankLine_eq_false {indent code : List Char} (hcode : ∃ c ∈ code.head?, isBlank c = false) :
    Body.isBlankLine (indent ++ code) = false := by
  obtain ⟨c, hc, hblank⟩ := hcode
  exact List.all_eq_false.mpr ⟨c, List.mem_append_right _ (List.mem_of_mem_head? hc), by simp [hblank]⟩

theorem indentation_append {indent code : List Char} (hindent : ∀ c ∈ indent, among [' ', '\t'] c = true)
    (hcode : ∃ c ∈ code.head?, isBlank c = false) : indentation (indent ++ code) = width indent := by
  obtain ⟨c, hc, hblank⟩ := hcode
  obtain ⟨rest, rfl⟩ := List.head?_eq_some_iff.mp hc
  rw [indentation, List.takeWhile_append_of_pos fun x hx => isBlank_of_isSpace (hindent x hx),
    List.takeWhile_cons_of_neg (by simp [hblank]), List.append_nil, width]

/-- Code opens no definition that begins with neither of the words. -/
theorem isPlainLine_of_not_prefix {indent code : List Char} (hindent : ∀ c ∈ indent, among [' ', '\t'] c = true)
    (hcode : ∃ c ∈ code.head?, isBlank c = false) (hnewline : '\n' ∉ code) (hdef : ¬ "def".toList <+: code)
    (hasync : ¬ "async".toList <+: code) : IsPlainLine indent code where
  indent_isSpace := hindent
  code_begins := hcode
  newline_not_mem := hnewline
  not_opensDefinition := by
    rintro ⟨indent', mark, rest, heq, hindent', hmark, -⟩
    have hspaces {front more : List Char} (hfront : ∀ c ∈ front, among [' ', '\t'] c = true)
        (hmore : ∃ c ∈ more.head?, isBlank c = false) : (front ++ more).takeWhile (among [' ', '\t']) = front := by
      obtain ⟨c, hc, hblank⟩ := hmore
      obtain ⟨tail, rfl⟩ := List.head?_eq_some_iff.mp hc
      have hspace : ¬ among [' ', '\t'] c = true := fun hspace => by simp [isBlank_of_isSpace hspace] at hblank
      rw [List.takeWhile_append_of_pos hfront, List.takeWhile_cons_of_neg hspace, List.append_nil]
    have hmarkBegins : ∃ c ∈ (mark ++ rest).head?, isBlank c = false := by
      rcases hmark with rfl | ⟨gap, -, -, rfl⟩
      · exact ⟨'d', rfl, by decide⟩
      · exact ⟨'a', rfl, by decide⟩
    rw [List.append_assoc] at heq
    obtain rfl : indent = indent' := by rw [← hspaces hindent hcode, heq, hspaces hindent' hmarkBegins]
    rw [List.append_cancel_left_eq] at heq
    rcases hmark with rfl | ⟨gap, -, -, rfl⟩
    · exact hdef ⟨rest, heq.symm⟩
    · exact hasync ⟨gap ++ "def".toList ++ rest, by simp [heq]⟩

namespace Head

variable {h : Head}

theorem exists_text_eq (h : Head) : ∃ code, h.text = h.indent ++ code ∧ ∃ c ∈ code.head?, isBlank c = false := by
  refine ⟨_, rfl, ?_⟩
  rw [marks]
  split
  · exact ⟨'a', rfl, by decide⟩
  · exact ⟨'d', rfl, by decide⟩

theorem isBlankLine_text (h : Head) : Body.isBlankLine h.text = false := by
  obtain ⟨code, htext, hcode⟩ := h.exists_text_eq
  rw [htext, isBlankLine_eq_false hcode]

theorem indentation_text (hproper : h.IsProper) : indentation h.text = width h.indent := by
  obtain ⟨code, htext, hcode⟩ := h.exists_text_eq
  rw [htext, indentation_append hproper.indent_isSpace hcode]

theorem newline_not_mem_text (hproper : h.IsProper) : '\n' ∉ h.text := by
  have hindent : '\n' ∉ h.indent := fun hmem => ne_newline_of_isSpace (hproper.indent_isSpace _ hmem) rfl
  have hname : '\n' ∉ h.name := hproper.name_isName.not_mem (by decide)
  have hlist : '\n' ∉ h.list := not_mem_list hproper (by decide) (by decide)
  have hmarks : '\n' ∉ h.marks := by
    rw [marks]
    split <;> decide
  have hnote : '\n' ∉ h.note := by
    rw [note]
    split
    · exact List.not_mem_nil
    · rename_i result hresult
      have hplain := (hproper.result_isPlain result hresult).2.1
      simp [hplain]
  simp [text, hindent, hname, hlist, hmarks, hnote]

end Head

namespace Outline

variable {o : Outline} {next : Option Nat} {below : List (List Char)} {base : Nat}

theorem newline_not_mem_lines (h : o.IsLaidOut next) : ∀ row ∈ o.lines, '\n' ∉ row := by
  induction o generalizing next with
  | done => exact fun row hrow => absurd hrow List.not_mem_nil
  | blank line rest ih =>
    exact List.forall_mem_cons.mpr ⟨fun hmem => (h.1 _ hmem).2 rfl, ih h.2⟩
  | plain indent code rest ih =>
    refine List.forall_mem_cons.mpr ⟨fun hmem => ?_, ih h.2⟩
    rcases List.mem_append.mp hmem with hmem | hmem
    · exact ne_newline_of_isSpace (h.1.indent_isSpace _ hmem) rfl
    · exact h.1.newline_not_mem hmem
  | definition head block rest ihblock ihrest =>
    obtain ⟨hproper, -, hblock, hrest⟩ := h
    refine List.forall_mem_cons.mpr ⟨Head.newline_not_mem_text hproper, fun row hrow => ?_⟩
    exact (List.mem_append.mp hrow).elim (ihblock hblock row) (ihrest hrest row)

theorem column?_lines_append (h : o.IsLaidOut next) (below : List (List Char)) :
    Body.column? (o.lines ++ below) = o.column? (Body.column? below) := by
  induction o generalizing next with
  | done => rfl
  | blank line rest ih =>
    have hblank : Body.isBlankLine line = true := List.all_eq_true.mpr fun c hc => (h.1 c hc).1
    rw [lines, List.cons_append, Body.column?_cons_of_isBlankLine hblank, ih h.2, column?]
  | plain indent code rest =>
    have hplain := h.1
    rw [lines, List.cons_append, Body.column?_cons_of_not (isBlankLine_eq_false hplain.code_begins),
      indentation_append hplain.indent_isSpace hplain.code_begins, column?]
  | definition head block rest =>
    rw [lines, List.cons_append, Body.column?_cons_of_not head.isBlankLine_text, Head.indentation_text h.1, column?]

theorem AtLeast.mono {base' : Nat} (h : o.AtLeast base') (hle : base ≤ base') : o.AtLeast base := by
  induction o with
  | done => trivial
  | blank line rest ih => exact ih h
  | plain indent code rest ih => exact ⟨hle.trans h.1, ih h.2⟩
  | definition head block rest ihblock ihrest => exact ⟨hle.trans h.1, ihrest h.2⟩

/-- Blocks within are indented further than their heads, so they lie as deep as the parts they belong to. -/
theorem AtLeast.le_indentation (h : o.AtLeast base) (hlaid : o.IsLaidOut next) :
    ∀ row ∈ o.lines, Body.isBlankLine row = false → base ≤ indentation row := by
  induction o generalizing base next with
  | done => exact fun row hrow => absurd hrow List.not_mem_nil
  | blank line rest ih =>
    refine List.forall_mem_cons.mpr ⟨fun hline => ?_, ih h hlaid.2⟩
    have hblank : Body.isBlankLine line = true := List.all_eq_true.mpr fun c hc => (hlaid.1 c hc).1
    rw [hblank] at hline
    cases hline
  | plain indent code rest ih =>
    refine List.forall_mem_cons.mpr ⟨fun _ => ?_, ih h.2 hlaid.2⟩
    rw [indentation_append hlaid.1.indent_isSpace hlaid.1.code_begins]
    exact h.1
  | definition head block rest ihblock ihrest =>
    obtain ⟨hproper, ⟨base', -, hlt, hblock, -⟩, hblockLaid, hrestLaid⟩ := hlaid
    refine List.forall_mem_cons.mpr ⟨fun _ => ?_, fun row hrow => ?_⟩
    · rw [Head.indentation_text hproper]
      exact h.1
    · rcases List.mem_append.mp hrow with hrow | hrow
      · exact ihblock (hblock.mono (h.1.trans (Nat.le_of_lt hlt))) hblockLaid row hrow
      · exact ihrest h.2 hrestLaid row hrow

theorem indentedLines_lines {head : Head} {block : Outline} (hbase : block.column? none = some base)
    (hhead : width head.indent < base) (hblock : block.AtLeast base) (hlaid : block.IsLaidOut next)
    (hbelow : ∀ c ∈ Body.column? below, c < base) :
    Body.indentedLines (width head.indent) (block.lines ++ below) =
      block.lines.filter fun row => !Body.isBlankLine row := by
  have hcolumn : Body.column? block.lines = some base := by
    have := column?_lines_append hlaid []
    rwa [List.append_nil, show Body.column? [] = none from rfl, hbase] at this
  exact Body.indentedLines_append hcolumn (by omega) (hblock.le_indentation hlaid) hbelow

end Outline

/-! ## Reading line by line -/

namespace Functions

/-- What a match of a head tells, in a text with some lines. -/
def ofPythonHead (score : Scorer) (rows : List (List Char)) (m : Match) : Function where
  name := String.ofList (m.groupText 2)
  line := lineOfGroup m 2
  complexity := score (Body.indented (expandTabs (m.groupText 1)).length (rows.drop m.stop.line))
  parameters := parametersOf (m.text? 3)
  returnType := tidy (m.text? 4)

theorem python_eq_map (score : Scorer) (text : List Char) :
    python score text = (pythonHead.all text).map (ofPythonHead score (lines text)) := rfl

theorem tidy_map_trim {result : Option (List Char)} (h : ∀ r ∈ result, trim r ≠ []) :
    tidy (result.map trim) = result.map fun r => String.ofList (trim r) := by
  cases result with
  | none => rfl
  | some r =>
    have hne := h r rfl
    change (nonBlank? (trim r)).map String.ofList = some (String.ofList (trim r))
    rw [nonBlank?, trim_trim]
    cases htrim : trim r with
    | nil => exact absurd htrim hne
    | cons c rest => rfl

variable {text : List Char} {above below : List (List Char)} {ms : List Match}

/-- A head on a line is matched there, and the match tells the function that the head stands for. -/
theorem exists_finds_of_head (score : Scorer) {head : Head} {block : Outline} {base : Nat} (hproper : head.IsProper)
    (h : lines text = above ++ head.text :: (block.lines ++ below)) (hbase : block.column? none = some base)
    (hhead : width head.indent < base) (hblock : block.AtLeast base)
    (hlaid : block.IsLaidOut (Body.column? below)) (hbelow : ∀ c ∈ Body.column? below, c < base) :
    ∃ m, pythonHead.Finds text m (unlines above).length ((unlines above).length + head.text.length) ∧
      ofPythonHead score (lines text) m = head.function score (above.length + 1) block.lines := by
  obtain ⟨tail, htext, -⟩ := exists_text_eq_of_lines h
  have hdrop : text.drop (unlines above).length = head.text ++ tail := by rw [htext, List.drop_left]
  obtain ⟨m, hfinds, hindent, hname, ⟨a, s, hgroup, hle, hle'⟩, hlist, hresult⟩ :=
    Head.exists_finds hproper (lineStart_row h) hdrop
  have hline : lineOfGroup m 2 = above.length + 1 := by
    rw [lineOfGroup, hgroup]
    exact line_on_row h hle hle'
  have hstop : m.stop.line = above.length + 1 := by
    rw [hfinds.2.2]
    exact line_on_row h (Nat.le_add_right _ _) (Nat.le_refl _)
  have hafter : (lines text).drop (above.length + 1) = block.lines ++ below := by
    rw [h, ← List.drop_drop, List.drop_left, List.drop_one, List.tail_cons]
  have hbody := Outline.indentedLines_lines hbase hhead hblock hlaid hbelow
  have hplain : ∀ r ∈ head.result, trim r ≠ [] := fun r hr => (hproper.result_isPlain r hr).2.2
  refine ⟨m, hfinds, ?_⟩
  rw [ofPythonHead, Head.function, hline, hstop, hafter, Match.groupText, Match.groupText, hindent, hname, hlist,
    hresult, tidy_map_trim hplain, Body.indented, Option.getD_some, Option.getD_some, ← width, hbody, parametersOf,
    Option.getD_some, Head.list, parameterNames_intercalate hproper.parameters_areNames]

/-- A line that opens no definition is passed over. -/
theorem sweep_line {line : List Char} (h : lines text = above ++ line :: below) (hopens : ¬ OpensDefinition line)
    (hsweep : Sweep pythonHead text (unlines above).length ms) :
    Sweep pythonHead text (unlines (above ++ [line])).length ms := by
  rw [length_unlines_concat]
  exact hsweep.skip (by omega) fun k e hk hlt => not_spans_of_not_opensDefinition h hopens hk (by omega)

/-- Of the matches from a line on, the first ones tell the definitions of what is laid out there. -/
theorem exists_later_of_lines (score : Scorer) {o : Outline} (h : lines text = above ++ (o.lines ++ below))
    (hlaid : o.IsLaidOut (Body.column? below)) (hsweep : Sweep pythonHead text (unlines above).length ms) :
    ∃ later, ms.map (ofPythonHead score (lines text)) =
        o.functions score (above.length + 1) ++ later.map (ofPythonHead score (lines text)) ∧
      Sweep pythonHead text (unlines (above ++ o.lines)).length later := by
  induction o generalizing above below ms with
  | done => exact ⟨ms, rfl, by rwa [Outline.lines, List.append_nil]⟩
  | blank line rest ih =>
    have hnext := sweep_line h (not_opensDefinition_of_isBlank fun c hc => (hlaid.1 c hc).1) hsweep
    have hbelow : lines text = above ++ [line] ++ (rest.lines ++ below) := by simpa [Outline.lines] using h
    obtain ⟨later, hmap, hlater⟩ := ih hbelow hlaid.2 hnext
    exact ⟨later, by simpa [Outline.functions] using hmap, by simpa [Outline.lines] using hlater⟩
  | plain indent code rest ih =>
    have hnext := sweep_line h hlaid.1.not_opensDefinition hsweep
    have hbelow : lines text = above ++ [indent ++ code] ++ (rest.lines ++ below) := by
      simpa [Outline.lines] using h
    obtain ⟨later, hmap, hlater⟩ := ih hbelow hlaid.2 hnext
    exact ⟨later, by simpa [Outline.functions] using hmap, by simpa [Outline.lines] using hlater⟩
  | definition head block rest ihblock ihrest =>
    obtain ⟨hproper, ⟨base, hbase, hhead, hblock, hbelow⟩, hblockLaid, hrestLaid⟩ := hlaid
    rw [← Outline.column?_lines_append hrestLaid] at hbelow hblockLaid
    have hlines : lines text = above ++ head.text :: (block.lines ++ (rest.lines ++ below)) := by
      simpa [Outline.lines] using h
    obtain ⟨m, hfinds, hfunction⟩ :=
      exists_finds_of_head score hproper hlines hbase hhead hblock hblockLaid hbelow
    obtain ⟨after, rfl, hafter⟩ := hsweep.take hfinds
    have hpos := hfinds.spans.lt (by decide)
    have hinner : Sweep pythonHead text (unlines (above ++ [head.text])).length after := by
      rw [length_unlines_concat]
      exact hafter.skip (Nat.le_succ _) fun k e hk hlt => not_spans_inside hlines (by omega) (by omega)
    obtain ⟨middle, hblockMap, hmiddle⟩ := ihblock (by simpa using hlines) hblockLaid hinner
    have hafterBlock : lines text = above ++ [head.text] ++ block.lines ++ (rest.lines ++ below) := by
      simpa using hlines
    obtain ⟨later, hrestMap, hlater⟩ := ihrest hafterBlock hrestLaid hmiddle
    have hblockLine : (above ++ [head.text]).length + 1 = above.length + 1 + 1 := by
      rw [List.length_append, List.length_singleton]
    have hrestLine : (above ++ [head.text] ++ block.lines).length + 1 =
        above.length + 1 + 1 + block.lines.length := by
      rw [List.length_append, List.length_append, List.length_singleton, Nat.add_right_comm]
    refine ⟨later, ?_, by simpa [Outline.lines] using hlater⟩
    rw [List.map_cons, hfunction, hblockMap, hrestMap, hblockLine, hrestLine, Outline.functions, List.cons_append,
      List.append_assoc]

end Functions

namespace Outline

/-- A class with a method whose block is indented by tabs in one place and by spaces in another. -/
def store : Outline :=
  .plain [] "class Store:".toList <|
  .definition ⟨"\t".toList, false, "put".toList, ["self".toList, "key".toList], some " None".toList⟩
    (.blank "  ".toList <|
      .plain "        \t".toList "self.key = key".toList <|
      .definition ⟨"\t\t".toList, true, "check".toList, [], none⟩
        (.plain "\t\t ".toList "return key".toList .done) <|
      .plain "\t\t".toList "await check()".toList .done) <|
  .blank [] <|
  .plain [] "Store()".toList .done

theorem store_isLaidOut : store.IsLaidOut none := by
  have hname (first : Char) {rest : List Char} (hfirst : nameStart first = true) (hrest : rest.all isWord = true) :
      IsName (first :: rest) := ⟨first, rest, rfl, hfirst, List.all_eq_true.mp hrest⟩
  have hplain {indent code : List Char} (h : indent.all (among [' ', '\t']) = true ∧
      code.head?.map isBlank = some false ∧ '\n' ∉ code ∧ ¬ "def".toList <+: code ∧ ¬ "async".toList <+: code) :
      IsPlainLine indent code :=
    isPlainLine_of_not_prefix (List.all_eq_true.mp h.1) (Option.map_eq_some_iff.mp h.2.1) h.2.2.1 h.2.2.2.1 h.2.2.2.2
  have hput : Head.IsProper ⟨"\t".toList, false, "put".toList, ["self".toList, "key".toList], some " None".toList⟩ :=
    { indent_isSpace := List.all_eq_true.mp (by decide)
      name_isName := hname 'p' (by decide) (by decide)
      parameters_areNames := List.forall_mem_cons.mpr ⟨hname 's' (by decide) (by decide),
        List.forall_mem_singleton.mpr (hname 'k' (by decide) (by decide))⟩
      result_isPlain := fun r hr => by
        obtain rfl := Option.some.inj hr
        decide }
  have hcheck : Head.IsProper ⟨"\t\t".toList, true, "check".toList, [], none⟩ :=
    { indent_isSpace := List.all_eq_true.mp (by decide)
      name_isName := hname 'c' (by decide) (by decide)
      parameters_areNames := List.forall_mem_nil _
      result_isPlain := fun _ hr => by cases hr }
  have hspaces : ("  ".toList.all fun c => isBlank c && c != '\n') = true := by decide
  have hblank : ∀ c ∈ "  ".toList, isBlank c = true ∧ c ≠ '\n' := fun c hc => by
    simpa using List.all_eq_true.mp hspaces c hc
  have hputBlock : 16 ≤ width "        \t".toList ∧ 16 ≤ width "\t\t".toList ∧ 16 ≤ width "\t\t".toList ∧ True := by
    decide
  have hcheckBlock : 17 ≤ width "\t\t ".toList ∧ True := by decide
  exact ⟨hplain (by decide), hput, ⟨16, by decide, by decide, hputBlock, by decide⟩,
    ⟨hblank, hplain (by decide), hcheck, ⟨17, by decide, by decide, hcheckBlock, by decide⟩,
      ⟨hplain (by decide), trivial⟩, hplain (by decide), trivial⟩,
    List.forall_mem_nil _, hplain (by decide), trivial⟩

end Outline

end CodeCensus
