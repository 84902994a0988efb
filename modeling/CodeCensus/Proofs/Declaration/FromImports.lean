import CodeCensus.Proofs.Declaration.ImportedNames
import CodeCensus.Proofs.Declaration.Lines
import CodeCensus.Proofs.Pattern.Search
import CodeCensus.Proofs.Pattern.Words

/-! Imports of names from a module. The names stand on one line, or between parentheses over several lines that may
end in comments. Such a statement is matched once, up to the end of its list. -/

namespace CodeCensus

open Text Pattern Cursor Imports

/-! ## Statements as written -/

structure FromImport where
  indent : List Char
  moduleGap : List Char
  module : List Char
  importGap : List Char
  listGap : List Char
  isEnclosed : Bool
  list : ImportList
  after : List Char

namespace FromImport

def listText (s : FromImport) : List Char :=
  if s.isEnclosed then '(' :: (s.list.text ++ [')']) else s.list.text

def text (s : FromImport) : List Char :=
  s.indent ++ ("from".toList ++ (s.moduleGap ++ (s.module ++ (s.importGap ++ ("import".toList ++
    (s.listGap ++ (s.listText ++ s.after)))))))

end FromImport

def IsSpaces (gap : List Char) : Prop := gap ≠ [] ∧ ∀ c ∈ gap, among [' ', '\t'] c = true

/-- Without parentheses the names stand on one line, and only what follows them may be a comment. -/
structure FromImport.IsProper (s : FromImport) : Prop where
  indent_isSpace : ∀ c ∈ s.indent, among [' ', '\t'] c = true
  moduleGap_isSpaces : IsSpaces s.moduleGap
  module_isDotted : s.module ≠ [] ∧ ∀ c ∈ s.module, either isWord (among ['.']) c = true
  importGap_isSpaces : IsSpaces s.importGap
  listGap_isSpaces : IsSpaces s.listGap
  list_isProper : s.list.IsProper
  newline_not_mem : '\n' ∉ s.after
  oneLine : s.isEnclosed = false → (∀ gap ∈ s.list.gaps, gap.notes = [] ∧ '\n' ∉ gap.start) ∧
    (∃ c ∈ s.list.text.head?, isBlank c = false) ∧ ∀ c ∈ s.after.head?, c = '#'

/-! ## The match of a statement -/

namespace FromImport

variable {s : FromImport}

theorem not_mem_name {n : ImportedName} (hn : n.IsProper) {c : Char}
    (hc : c = '\n' ∨ c ∈ [',', '(', ')', '#', ';', '\\']) : c ∉ n.text := by
  have hblank : isBlank c = true ∨ c ∈ [',', '(', ')', '#', ';', '\\'] :=
    hc.imp_left fun heq => by rw [heq]; decide
  have hname := hn.name_isWord.not_mem hblank
  have has : c ∉ " as ".toList := by
    rcases hc with rfl | hc
    · decide
    · simp only [List.mem_cons, List.not_mem_nil, or_false] at hc
      rcases hc with rfl | rfl | rfl | rfl | rfl | rfl <;> decide
  rw [ImportedName.text]
  cases halias : n.alias? with
  | none => exact hname
  | some other => exact List.not_mem_append hname (List.not_mem_append has ((hn.alias_isWord other halias).not_mem hblank))

theorem paren_not_mem_gap {gap : CommentedGap} (hgap : gap.IsProper) : ')' ∉ gap.text := by
  rw [CommentedGap.text]
  refine List.not_mem_append (fun hmem => absurd (hgap.start_isGap _ hmem) (by decide)) fun hmem => ?_
  obtain ⟨note, hnote, hmem⟩ := List.mem_flatMap.mp hmem
  obtain ⟨-, hparen, hblanks⟩ := hgap.notes_areNotes note hnote
  simp only [List.mem_cons, List.mem_append] at hmem
  rcases hmem with hmem | hmem | hmem | hmem
  · exact absurd hmem (by decide)
  · exact hparen hmem
  · exact absurd hmem (by decide)
  · exact absurd (hblanks _ hmem) (by decide)

theorem mem_listText {l : ImportList} {c : Char} (h : c ∈ l.text) :
    c = ',' ∨ (∃ gap ∈ l.gaps, c ∈ gap.text) ∨ ∃ part ∈ l.allParts, c ∈ part.entry.text := by
  have hpart {part : ImportedPart} (hmem : part ∈ l.allParts) (hc : c ∈ part.text) :
      (∃ gap ∈ l.gaps, c ∈ gap.text) ∨ ∃ part ∈ l.allParts, c ∈ part.entry.text := by
    have hgap {gap : CommentedGap} (hgap : gap ∈ [part.before, part.after]) : gap ∈ l.gaps :=
      List.mem_append_left _ (List.mem_flatMap.mpr ⟨part, hmem, hgap⟩)
    rcases List.mem_append.mp hc with hc | hc
    · exact .inl ⟨_, hgap List.mem_cons_self, hc⟩
    · rcases List.mem_append.mp hc with hc | hc
      · exact .inr ⟨part, hmem, hc⟩
      · exact .inl ⟨_, hgap (by simp), hc⟩
  rcases List.mem_append.mp h with h | h
  · obtain ⟨part, hmem, hc⟩ := List.mem_flatMap.mp h
    rcases List.mem_append.mp hc with hc | hc
    · exact .inr (hpart (List.mem_append_left _ hmem) hc)
    · exact .inl (List.mem_singleton.mp hc)
  · right
    cases hending : l.ending with
    | comma gap =>
      rw [hending] at h
      exact .inl ⟨gap, by simp [ImportList.gaps, hending, ImportEnding.gaps], h⟩
    | name part =>
      rw [hending] at h
      exact hpart (by simp [ImportList.allParts, hending, ImportEnding.parts]) h

theorem paren_not_mem_list (hs : s.IsProper) : ')' ∉ s.list.text := by
  intro hmem
  rcases mem_listText hmem with hc | ⟨gap, hgap, hc⟩ | ⟨part, hpart, hc⟩
  · exact absurd hc (by decide)
  · exact paren_not_mem_gap (hs.list_isProper.gaps_areProper gap hgap) hc
  · exact not_mem_name (hs.list_isProper.entries_areProper part hpart) (by decide) hc

theorem mem_list_of_oneLine (hs : s.IsProper) (hline : s.isEnclosed = false) {c : Char} (hc : c ∈ s.list.text) :
    beyond ['\n', '#', ';'] c = true ∧ c ≠ '(' := by
  have hkept (h : c ∉ ['\n', '#', ';', '(']) : beyond ['\n', '#', ';'] c = true ∧ c ≠ '(' := by
    simp only [List.mem_cons, List.not_mem_nil, or_false, not_or] at h
    simp [beyond, h]
  refine hkept fun hmark => ?_
  rcases mem_listText hc with rfl | ⟨gap, hgap, hc⟩ | ⟨part, hpart, hc⟩
  · exact absurd hmark (by decide)
  · obtain ⟨hnotes, hnewline⟩ := (hs.oneLine hline).1 gap hgap
    rw [CommentedGap.text, hnotes, List.flatMap_nil, List.append_nil] at hc
    have hblank := (hs.list_isProper.gaps_areProper gap hgap).start_isGap c hc
    simp only [List.mem_cons, List.not_mem_nil, or_false] at hmark
    rcases hmark with rfl | rfl | rfl | rfl
    · exact hnewline hc
    · exact absurd hblank (by decide)
    · exact absurd hblank (by decide)
    · exact absurd hblank (by decide)
  · refine not_mem_name (hs.list_isProper.entries_areProper part hpart) ?_ hc
    simp only [List.mem_cons, List.not_mem_nil, or_false] at hmark ⊢
    tauto

theorem takes_list (hs : s.IsProper) {text : List Char} {i : Nat} (h : text.drop i = s.listText ++ s.after) :
    Takes text (.alt (inOrder ["(", .run (beyond [')']), ")"]) (some1 (beyond ['\n', '#', ';']))) i
      (i + s.listText.length) [] := by
  cases hline : s.isEnclosed with
  | true =>
    have hlist : s.listText = "(".toList ++ (s.list.text ++ ")".toList) := by rw [listText, if_pos hline]; rfl
    rw [hlist, List.append_assoc, List.append_assoc] at h
    have hinside : text.drop (i + 1) = s.list.text ++ (")".toList ++ s.after) := drop_add_length h
    have hclose : text.drop (i + 1 + s.list.text.length) = ")".toList ++ s.after := drop_add_length hinside
    have hopenTaken : Takes text "(" i (i + 1) [] := takes_text h
    have hrun : Takes text (.run (beyond [')'])) (i + 1) (i + 1 + s.list.text.length) [] := by
      refine takes_run hinside (fun c hc => ?_) (forall_mem_head? (by decide))
      have hne : c ≠ ')' := fun heq => paren_not_mem_list hs (heq ▸ hc)
      simpa [beyond] using hne
    have hcloseTaken : Takes text ")" (i + 1 + s.list.text.length) (i + 1 + s.list.text.length + 1) [] :=
      takes_text hclose
    have hlength : i + s.listText.length = i + 1 + s.list.text.length + 1 := by
      have hopenLength : "(".toList.length = 1 := rfl
      have hcloseLength : ")".toList.length = 1 := rfl
      rw [hlist, List.length_append, List.length_append]
      omega
    rw [hlength]
    exact (hopenTaken.seq (hrun.seq hcloseTaken)).left
  | false =>
    have hlist : s.listText = s.list.text := by rw [listText, hline]; rfl
    obtain ⟨-, ⟨c, hc, -⟩, hafter⟩ := hs.oneLine hline
    obtain ⟨more, hmore⟩ := List.head?_eq_some_iff.mp hc
    rw [hlist, hmore] at h ⊢
    have hall : ∀ x ∈ c :: more, beyond ['\n', '#', ';'] x = true ∧ x ≠ '(' := fun x hx =>
      mem_list_of_oneLine hs hline (hmore ▸ hx)
    have hnone : ∀ e, ¬ (inOrder ["(", .run (beyond [')']), ")"]).Spans text i e :=
      not_spans_of_drop (by decide) h (beq_eq_false_iff_ne.mpr (hall c List.mem_cons_self).2)
    refine Takes.right (takes_some1 h (fun x hx => (hall x hx).1) fun x hx => ?_) hnone
    rw [hafter x hx]
    decide

theorem eq_of_among_spaces {c : Char} (h : among [' ', '\t'] c = true) : c = ' ' ∨ c = '\t' := by
  simpa [among] using h

theorem exists_listText_cons (hs : s.IsProper) : ∃ c more, s.listText = c :: more ∧ among [' ', '\t'] c = false := by
  cases hline : s.isEnclosed with
  | true => exact ⟨'(', s.list.text ++ [')'], by rw [listText, if_pos hline], by decide⟩
  | false =>
    obtain ⟨-, ⟨c, hc, hblank⟩, -⟩ := hs.oneLine hline
    obtain ⟨more, hmore⟩ := List.head?_eq_some_iff.mp hc
    refine ⟨c, more, by rw [listText, hline, hmore]; rfl, ?_⟩
    cases hspace : among [' ', '\t'] c with
    | false => rfl
    | true => rcases eq_of_among_spaces hspace with rfl | rfl <;> exact absurd hblank (by decide)

theorem getLast?_listText_ne (hs : s.IsProper) : ∀ c ∈ s.listText.getLast?, c ≠ '\n' := by
  intro c hc
  cases hline : s.isEnclosed with
  | true =>
    have hlist : s.listText = '(' :: s.list.text ++ [')'] := by rw [listText, if_pos hline, List.cons_append]
    rw [hlist, List.getLast?_concat] at hc
    obtain rfl := Option.some.inj hc
    decide
  | false =>
    have hlist : s.listText = s.list.text := by rw [listText, hline]; rfl
    rw [hlist] at hc
    have hkept := (mem_list_of_oneLine hs hline (List.mem_of_getLast? hc)).1
    rintro rfl
    exact absurd hkept (by decide)

/-- A statement is matched up to the end of its list, and the groups are the module and the list. -/
theorem exists_finds (hs : s.IsProper) :
    ∃ m i, pythonImport.Finds s.text m 0 (i + s.listText.length) ∧ m.text? 1 = some s.module ∧
      m.text? 2 = some s.listText ∧ s.text.drop i = s.listText ++ s.after := by
  have hindent : s.text.drop 0 = s.indent ++ ("from".toList ++ (s.moduleGap ++ (s.module ++ (s.importGap ++
      ("import".toList ++ (s.listGap ++ (s.listText ++ s.after))))))) := rfl
  have hfrom := drop_add_length hindent
  have hmoduleGap := drop_add_length hfrom
  have hmodule := drop_add_length hmoduleGap
  have himportGap := drop_add_length hmodule
  have himport := drop_add_length himportGap
  have hlistGap := drop_add_length himport
  have hlist := drop_add_length hlistGap
  obtain ⟨hmoduleNe, hmoduleChars⟩ := hs.module_isDotted
  obtain ⟨hmoduleGapNe, hmoduleGapSpaces⟩ := hs.moduleGap_isSpaces
  obtain ⟨himportGapNe, himportGapSpaces⟩ := hs.importGap_isSpaces
  obtain ⟨hlistGapNe, hlistGapSpaces⟩ := hs.listGap_isSpaces
  have hspaceNot {c : Char} (hc : among [' ', '\t'] c = true) : either isWord (among ['.']) c = false := by
    rcases eq_of_among_spaces hc with rfl | rfl <;> decide
  have hindentTaken := takes_run hindent hs.indent_isSpace (forall_mem_head? (by decide))
  have hmoduleGapTaken := takes_some1_of_ne_nil hmoduleGapNe hmoduleGap hmoduleGapSpaces
    (head?_append_of_forall hmoduleNe (fun c hc => by
      cases hspace : among [' ', '\t'] c with
      | false => rfl
      | true =>
        have hword := hmoduleChars c hc
        rw [hspaceNot hspace] at hword
        cases hword) _)
  have hmoduleTaken := takes_some1_of_ne_nil hmoduleNe hmodule hmoduleChars
    (head?_append_of_forall himportGapNe (fun c hc => hspaceNot (himportGapSpaces c hc)) _)
  have himportGapTaken := takes_some1_of_ne_nil himportGapNe himportGap himportGapSpaces (forall_mem_head? (by decide))
  have hlistGapTaken := takes_some1_of_ne_nil hlistGapNe hlistGap hlistGapSpaces (by
    obtain ⟨c, more, hmore, hc⟩ := exists_listText_cons hs
    rw [hmore]
    exact forall_mem_head? hc)
  have hfromTaken := (takes_text hfrom).seq (hmoduleGapTaken.seq ((hmoduleTaken.group (n := 1)).seq himportGapTaken))
  have htakes : Takes s.text pythonImport 0 _ _ :=
    (takes_edge (by rfl)).seq (hindentTaken.seq (hfromTaken.left.seq ((takes_text himport).seq
      (hlistGapTaken.seq (takes_list hs hlist).group))))
  exact ⟨_, _, htakes.finds, congrArg some (text_stretch hmodule), congrArg some (text_stretch hlist), hlist⟩

/-- A statement is read as one import of its module. -/
theorem python_eq (hs : s.IsProper) :
    Imports.python s.text = [⟨String.ofList s.module, importedNames s.listText, 1⟩] := by
  obtain ⟨m, i, hfinds, hmodule, hlist, hdrop⟩ := exists_finds hs
  obtain ⟨later, hall, hlater⟩ := (pythonImport.all_sweep (by decide) s.text).take hfinds
  obtain ⟨first, more, hmore, -⟩ := exists_listText_cons hs
  have hpos : 0 < s.listText.length := by rw [hmore]; exact Nat.succ_pos _
  have hnone : later = [] := hlater.eq_nil fun k e hk hspans => by
    -- no line begins behind the list
    have hlength := hspans.lt_length (by decide)
    obtain ⟨j, ⟨hstart, -⟩, -⟩ := hspans
    have hfeed := newline_of_lineStart (by omega) (Nat.le_of_lt hlength) hstart
    obtain ⟨l, hl⟩ := Nat.exists_eq_add_of_le (show i + (s.listText.length - 1) ≤ k - 1 by omega)
    rw [hl, Nat.add_assoc, ← List.getElem?_drop, hdrop] at hfeed
    cases l with
    | zero =>
      rw [List.getElem?_append_left (by omega), Nat.add_zero, ← List.getLast?_eq_getElem?] at hfeed
      exact getLast?_listText_ne hs _ hfeed rfl
    | succ l =>
      rw [List.getElem?_append_right (by omega)] at hfeed
      exact hs.newline_not_mem (List.mem_of_getElem? hfeed)
  have hline : m.start.line = 1 := by
    rw [hfinds.2.1]
    rfl
  rw [python, hall, hnone, List.flatMap_singleton, Match.groupText, hlist, hmodule, hline]
  rfl

theorem isClear_of_notes {l : ImportList} (hl : l.IsProper) (hnotes : ∀ gap ∈ l.gaps, gap.notes = []) : l.IsClear := by
  have hgap {part : ImportedPart} (hpart : part ∈ l.allParts) {gap : CommentedGap} (h : gap ∈ [part.before, part.after]) :
      gap ∈ l.gaps := List.mem_append_left _ (List.mem_flatMap.mpr ⟨part, hpart, h⟩)
  have hbehind {part : ImportedPart} (hpart : part ∈ l.allParts) {behind : List Char} (h : part.after.Leads behind) :
      part.IsClear behind := by
    have hafter := hnotes _ (hgap hpart (by simp : part.after ∈ _))
    exact ⟨hnotes _ (hgap hpart List.mem_cons_self), fun _ => hafter,
      namesBehindCommas_of_isBlank (isBlank_of_forall_gapChar (h.1 hafter))⟩
  have hleads {part : ImportedPart} (hpart : part ∈ l.allParts) : part.after.Leads part.after.text :=
    (hl.gaps_areProper _ (hgap hpart (by simp : part.after ∈ _))).leads_text
  refine ⟨fun part hpart => hbehind (List.mem_append_left _ hpart) (hleads (List.mem_append_left _ hpart)), ?_⟩
  cases hending : l.ending with
  | comma gap => exact hnotes gap (by simp [ImportList.gaps, hending, ImportEnding.gaps])
  | name part =>
    have hpart : part ∈ l.allParts := by simp [ImportList.allParts, hending, ImportEnding.parts]
    exact hbehind hpart (hleads hpart).trimEnd

/-- A statement is read as one import, of its module and on its line. Its names are those of the statement if it
stands on one line, and in general if and only if its comments stand behind aliased names, where no text behind a
comma in them names anything. -/
theorem python_fromImport (hs : s.IsProper) :
    ∃ names, Imports.python s.text = [⟨String.ofList s.module, names, 1⟩] ∧
      (s.isEnclosed = false → names = s.list.names) ∧ (names = s.list.names ↔ s.list.IsClear) := by
  have hnames : importedNames s.listText = importedNames s.list.text := by
    rw [listText]
    split
    · exact ImportList.importedNames_enclosed s.list
    · rfl
  have hiff := ImportList.importedNames_text hs.list_isProper
  refine ⟨importedNames s.list.text, by rw [python_eq hs, hnames], fun hline => hiff.mpr ?_, hiff⟩
  exact isClear_of_notes hs.list_isProper fun gap hgap => ((hs.oneLine hline).1 gap hgap).1

/-- A list over several lines with a comment behind a comma. -/
def annotated : FromImport where
  indent := []
  moduleGap := [' ']
  module := ['m']
  importGap := [' ']
  listGap := [' ']
  isEnclosed := true
  list :=
    { parts := [
        ⟨⟨"\n    ".toList, []⟩, ⟨['a'], none⟩, ⟨[], []⟩⟩,
        ⟨⟨"  ".toList, [(" first".toList, "    ".toList)]⟩, ⟨['b'], none⟩, ⟨[], []⟩⟩]
      ending := .comma ⟨['\n'], []⟩ }
  after := []

theorem annotated_isProper : annotated.IsProper where
  indent_isSpace := List.all_eq_true.mp rfl
  moduleGap_isSpaces := ⟨List.cons_ne_nil _ _, List.all_eq_true.mp rfl⟩
  module_isDotted := ⟨List.cons_ne_nil _ _, List.all_eq_true.mp rfl⟩
  importGap_isSpaces := ⟨List.cons_ne_nil _ _, List.all_eq_true.mp rfl⟩
  listGap_isSpaces := ⟨List.cons_ne_nil _ _, List.all_eq_true.mp rfl⟩
  list_isProper :=
    { gaps_areProper := fun gap hgap => by
        have hplain {start : List Char} (hstart : start.all gapChar = true) : CommentedGap.IsProper ⟨start, []⟩ :=
          ⟨List.all_eq_true.mp hstart, List.forall_mem_nil _⟩
        have hgaps : annotated.list.gaps =
            [⟨"\n    ".toList, []⟩, ⟨[], []⟩, ⟨"  ".toList, [(" first".toList, "    ".toList)]⟩, ⟨[], []⟩, ⟨['\n'], []⟩] := rfl
        rw [hgaps] at hgap
        simp only [List.mem_cons, List.not_mem_nil, or_false] at hgap
        rcases hgap with rfl | rfl | rfl | rfl | rfl
        · exact hplain rfl
        · exact hplain rfl
        · exact ⟨List.all_eq_true.mp rfl, List.forall_mem_singleton.mpr ⟨by decide, by decide, List.all_eq_true.mp rfl⟩⟩
        · exact hplain rfl
        · exact hplain rfl
      entries_areProper := fun part hpart => by
        have hword {c : Char} (hc : isBlank c = false) (hc' : c ∉ [',', '(', ')', '#', ';', '\\']) : IsImportWord [c] :=
          ⟨List.cons_ne_nil _ _, List.forall_mem_singleton.mpr ⟨hc, hc'⟩⟩
        simp only [annotated, ImportList.allParts, ImportEnding.parts, List.append_nil, List.mem_cons, List.not_mem_nil,
          or_false] at hpart
        rcases hpart with rfl | rfl <;> exact ⟨hword (by decide) (by decide), by decide, by rintro _ ⟨⟩⟩ }
  newline_not_mem := List.not_mem_nil
  oneLine := fun h => by cases h

theorem python_fromImport_annotated : annotated.IsProper ∧
    ∃ names, Imports.python annotated.text = [⟨String.ofList annotated.module, names, 1⟩] ∧
      (annotated.isEnclosed = false → names = annotated.list.names) ∧
      (names = annotated.list.names ↔ annotated.list.IsClear) :=
  ⟨annotated_isProper, python_fromImport annotated_isProper⟩

/-- A comment behind a comma is read as the beginning of the name below it. -/
theorem python_ne_names_annotated : ¬ ∀ s : FromImport, s.IsProper →
    Imports.python s.text = [⟨String.ofList s.module, s.list.names, 1⟩] := by
  intro h
  have hwritten := h annotated annotated_isProper
  have hnames : importedNames annotated.listText = ["a", "# first     b"] := by decide +kernel
  rw [python_eq annotated_isProper, hnames] at hwritten
  exact absurd hwritten (by decide)

end FromImport

end CodeCensus
