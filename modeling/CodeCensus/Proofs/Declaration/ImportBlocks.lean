import CodeCensus.Declaration.Imports
import CodeCensus.Proofs.Declaration.Lines
import CodeCensus.Proofs.Pattern.Search
import CodeCensus.Proofs.Pattern.Words
import CodeCensus.Proofs.Text.Class
import CodeCensus.Proofs.Text.Trim

/-! Blocks of imports. Each spec of a block stands on a line of its own, and lines may be blank and end in comments.
A spec is found from its alias on, or from its path on if it has none. But the blanks between an alias and a path
may be any, line feeds too, so a word at the end of a comment is read as the alias of a spec below that has none. -/

namespace CodeCensus

open Text Pattern Cursor Imports

/-! ## Blocks as written -/

/-- A word before a path, and the blanks between the two. -/
structure ImportAlias where
  word : List Char
  gap : List Char

structure ImportSpec where
  alias? : Option ImportAlias
  path : List Char

structure ImportRow where
  indent : List Char
  spec? : Option ImportSpec
  trail : List Char
  note? : Option (List Char)

/-- The rows of a block, and the blanks between its keyword and the parenthesis that opens it. -/
structure ImportBlock where
  gap : List Char
  rows : List ImportRow

def aliasChar : Char → Bool := either isWord (among ['.'])

def quotedPath (path : List Char) : List Char := '"' :: (path ++ ['"'])

def ImportSpec.text (s : ImportSpec) : List Char :=
  match s.alias? with
  | none => quotedPath s.path
  | some a => a.word ++ (a.gap ++ quotedPath s.path)

namespace ImportRow

def specText (r : ImportRow) : List Char :=
  match r.spec? with
  | none => []
  | some spec => spec.text

def noteText (r : ImportRow) : List Char :=
  match r.note? with
  | none => []
  | some note => "//".toList ++ note

def text (r : ImportRow) : List Char := r.indent ++ (r.specText ++ (r.trail ++ r.noteText))

end ImportRow

def ImportBlock.inside (b : ImportBlock) : List Char := List.intercalate ['\n'] (b.rows.map ImportRow.text)

def ImportBlock.text (b : ImportBlock) : List Char :=
  "import".toList ++ (b.gap ++ ('(' :: (b.inside ++ [')'])))

def IsGap (gap : List Char) : Prop := ∀ c ∈ gap, isBlank c = true ∧ c ≠ '\n'

structure ImportAlias.IsProper (a : ImportAlias) : Prop where
  word_isWord : a.word ≠ [] ∧ ∀ c ∈ a.word, aliasChar c = true
  gap_isGap : a.gap ≠ [] ∧ IsGap a.gap

structure ImportSpec.IsProper (s : ImportSpec) : Prop where
  alias_isProper : ∀ a ∈ s.alias?, a.IsProper
  path_isPath : s.path ≠ [] ∧ '"' ∉ s.path ∧ ')' ∉ s.path ∧ '\n' ∉ s.path

structure ImportRow.IsProper (r : ImportRow) : Prop where
  indent_isGap : IsGap r.indent
  spec_isProper : ∀ spec ∈ r.spec?, spec.IsProper
  trail_isGap : IsGap r.trail
  note_isNote : ∀ note ∈ r.note?, '"' ∉ note ∧ ')' ∉ note ∧ '\n' ∉ note

structure ImportBlock.IsProper (b : ImportBlock) : Prop where
  gap_isGap : IsGap b.gap
  rows_areProper : ∀ row ∈ b.rows, row.IsProper

/-! ## What a block imports and what is read -/

def ImportSpec.import (s : ImportSpec) (line : Nat) : Import where
  source := String.ofList s.path
  names := [String.ofList ((s.alias?.map ImportAlias.word).getD (afterLast '/' s.path))]
  line

/-- A word that the comments above end with, and its line. -/
structure Stray where
  word : List Char
  line : Nat

def lastWord (note : List Char) : List Char := (trimEndBy isBlank note).rtakeWhile aliasChar

/-- The stray word below a row, from the one above it. -/
def ImportRow.stray? (line : Nat) (above : Option Stray) (r : ImportRow) : Option Stray :=
  match r.note?, r.spec? with
  | some note, _ => if lastWord note = [] then none else some ⟨lastWord note, line⟩
  | none, some _ => none
  | none, none => above

/-- What is read of a spec below a stray word. -/
def ImportSpec.reading (s : ImportSpec) (stray? : Option Stray) (line : Nat) : Import :=
  match s.alias?, stray? with
  | none, some stray => ⟨String.ofList s.path, [String.ofList stray.word], stray.line⟩
  | _, _ => s.import line

def importsOf (line : Nat) : List ImportRow → List Import
  | [] => []
  | row :: rows => (row.spec?.map fun spec => spec.import line).toList ++ importsOf (line + 1) rows

def readingsOf (line : Nat) (stray? : Option Stray) : List ImportRow → List Import
  | [] => []
  | row :: rows =>
    (row.spec?.map fun spec => spec.reading stray? line).toList ++
      readingsOf (line + 1) (row.stray? line stray?) rows

/-- No spec without an alias stands below a stray word. -/
def IsClear (line : Nat) (stray? : Option Stray) : List ImportRow → Prop
  | [] => True
  | row :: rows =>
    (∀ spec ∈ row.spec?, spec.alias? = none → stray? = none) ∧ IsClear (line + 1) (row.stray? line stray?) rows

/-! ## Where a spec is found -/

variable {text rest front word gap path : List Char} {i k e : Nat}

theorem not_aliasChar_of_isBlank {c : Char} (h : isBlank c = true) : aliasChar c = false := by
  rw [aliasChar, either, not_isWord_of_isBlank h, Bool.false_or, among]
  have hc : c ≠ '.' := ne_of_isBlank h (by decide)
  simpa using hc

theorem not_isBlank_of_aliasChar {c : Char} (h : aliasChar c = true) : isBlank c = false := by
  by_contra hblank
  rw [not_aliasChar_of_isBlank (by simpa using hblank)] at h
  cases h

theorem spans_goSpec (h : goSpec.Spans text k e) : HoldsAt text (· == '"') k ∨
    ∃ a b, k < a ∧ a < b ∧ Throughout text aliasChar k a ∧ Throughout text isBlank a b ∧
      HoldsAt text (· == '"') b := by
  obtain ⟨b, halias, m, ⟨hquote, -⟩, -⟩ := h
  rcases halias with ⟨a, ⟨a', ⟨hfirst, rfl⟩, hword⟩, b', ⟨hblank, rfl⟩, hblanks⟩ | rfl
  · have hka := hword.1
    have hab := hblanks.1
    exact .inr ⟨a, b, by omega, by omega, .cons hfirst hword.2, .cons hblank hblanks.2, hquote⟩
  · exact .inl hquote

theorem exists_quote_of_spans (h : goSpec.Spans text k e) : ∃ b, k ≤ b ∧ HoldsAt text (· == '"') b := by
  rcases spans_goSpec h with hquote | ⟨a, b, hka, hab, -, -, hquote⟩
  · exact ⟨k, Nat.le_refl k, hquote⟩
  · exact ⟨b, by omega, hquote⟩

/-- No spec begins before the word and the blanks that stand in front of a path. -/
theorem not_spans_goSpec (h : text.drop i = front ++ (word ++ (gap ++ '"' :: rest))) (hfront : '"' ∉ front)
    (hword : ∀ c ∈ word, aliasChar c = true) (hgap : ∀ c ∈ gap, isBlank c = true)
    (hlast : ∀ c ∈ front.getLast?, aliasChar c = false ∧ (word = [] → isBlank c = false)) (hik : i ≤ k)
    (hk : k < i + front.length) : ¬ goSpec.Spans text k e := by
  intro hspans
  have hquotes : '"' ∉ front ++ (word ++ gap) := by
    intro hmem
    rcases List.mem_append.mp hmem with hmem | hmem
    · exact hfront hmem
    · rcases List.mem_append.mp hmem with hmem | hmem
      · exact absurd (hword _ hmem) (by decide)
      · exact absurd (hgap _ hmem) (by decide)
  have hseen : text.drop i = (front ++ (word ++ gap)) ++ '"' :: rest := by simp [h]
  have hfar {b : Nat} (hib : i ≤ b) (hb : HoldsAt text (· == '"') b) : i + front.length + word.length ≤ b := by
    by_contra hlt
    obtain ⟨l, rfl⟩ := Nat.exists_eq_add_of_le hib
    obtain ⟨c, hc, hmark⟩ := hb
    rw [getElem?_of_drop hseen (by simp; omega)] at hc
    obtain rfl : c = '"' := beq_iff_eq.mp hmark
    exact hquotes (List.mem_of_getElem? hc)
  rcases spans_goSpec hspans with hquote | ⟨a, b, hka, hab, halias, hblanks, hquote⟩
  · have hkFar := hfar hik hquote
    omega
  · have hbFar := hfar (by omega) hquote
    have hpos : 0 < front.length := by omega
    obtain ⟨c, hc⟩ : ∃ c, front.getLast? = some c :=
      ⟨_, List.getLast?_eq_some_getLast (List.ne_nil_of_length_pos hpos)⟩
    have hcAt : text[i + (front.length - 1)]? = some c := by
      rw [getElem?_of_drop h (by omega), ← List.getLast?_eq_getElem?, hc]
    obtain ⟨hnotAlias, hnotBlank⟩ := hlast c hc
    have hafter : a ≤ i + (front.length - 1) :=
      halias.le_of_getElem? (by omega) hcAt hnotAlias
    have hcBlank : isBlank c = true := (hblanks _ hafter (by omega)).eq_true hcAt
    cases word with
    | nil =>
      rw [hnotBlank rfl] at hcBlank
      cases hcBlank
    | cons d word =>
      rw [List.length_cons] at hbFar
      have hd : text[i + front.length]? = some d := by
        rw [← List.head?_drop, drop_add_length h]
        rfl
      have hdBlank : isBlank d = true := (hblanks _ (by omega) (by omega)).eq_true hd
      rw [not_isBlank_of_aliasChar (hword d List.mem_cons_self)] at hdBlank
      cases hdBlank

theorem not_spans_goSpec_of_blank (h : HoldsAt text isBlank k) : ¬ goSpec.Spans text k e := by
  intro hspans
  rcases spans_goSpec hspans with hquote | ⟨a, b, hka, -, halias, -⟩
  · exact h.elim hquote fun c hc => by
      rw [beq_eq_false_iff_ne]
      exact ne_of_isBlank hc (by decide)
  · exact (halias.holds hka).elim h fun c hc => not_isBlank_of_aliasChar hc

/-! ## What is taken of a spec -/

theorem takes_quotedPath (hne : path ≠ []) (hquote : '"' ∉ path) (h : text.drop i = quotedPath path ++ rest) :
    ∃ s : Stretch, s.text = path ∧
      Takes text (inOrder ["\"", keep 2 [some1 (beyond ['"'])], "\""]) i (i + (quotedPath path).length) [(2, s)] := by
  have hopen : text.drop i = ['"'] ++ (path ++ ("\"".toList ++ rest)) := by simp [h, quotedPath]
  have hpath : text.drop (i + 1) = path ++ ("\"".toList ++ rest) := drop_add_length hopen
  have hclose : text.drop (i + 1 + path.length) = "\"".toList ++ rest := drop_add_length hpath
  have hrun : Takes text (some1 (beyond ['"'])) (i + 1) (i + 1 + path.length) [] := by
    refine takes_some1_of_ne_nil hne hpath (fun x hx => ?_) (forall_mem_head? (by decide))
    have hx : x ≠ '"' := fun heq => hquote (heq ▸ hx)
    simpa [beyond] using hx
  have hopened : Takes text "\"" i (i + 1) [] := takes_text hopen
  have hclosed : Takes text "\"" (i + 1 + path.length) (i + 1 + path.length + 1) [] := takes_text hclose
  have hlength : i + (quotedPath path).length = i + 1 + path.length + 1 := by
    rw [quotedPath, List.length_cons, List.length_append, List.length_singleton]
    omega
  rw [hlength]
  exact ⟨_, text_stretch hpath, hopened.seq (hrun.group.seq hclosed)⟩

theorem takes_goSpec_path (hne : path ≠ []) (hquote : '"' ∉ path) (h : text.drop i = quotedPath path ++ rest) :
    ∃ s : Stretch, s.text = path ∧ Takes text goSpec i (i + (quotedPath path).length) [(2, s)] := by
  obtain ⟨s, hs, htakes⟩ := takes_quotedPath hne hquote h
  have hnone : ∀ e, ¬ (inOrder [keep 1 [some1 aliasChar], blanks1]).Spans text i e :=
    not_spans_of_drop (by decide) h (by decide)
  exact ⟨s, hs, (takes_opt_none hnone).seq htakes⟩

theorem takes_goSpec_word (hne : path ≠ []) (hquote : '"' ∉ path) (hwordNe : word ≠ [])
    (hword : ∀ c ∈ word, aliasChar c = true) (hgapNe : gap ≠ []) (hgap : ∀ c ∈ gap, isBlank c = true)
    (h : text.drop i = word ++ (gap ++ (quotedPath path ++ rest))) :
    ∃ s t : Stretch, s.text = path ∧ t.text = word ∧
      Takes text goSpec i (i + word.length + gap.length + (quotedPath path).length) [(2, s), (1, t)] := by
  have hafterWord : text.drop (i + word.length) = gap ++ (quotedPath path ++ rest) := drop_add_length h
  obtain ⟨s, hs, htakes⟩ := takes_quotedPath hne hquote (drop_add_length hafterWord)
  have hstop : ∀ x ∈ (gap ++ (quotedPath path ++ rest)).head?, aliasChar x = false :=
    head?_append_of_forall hgapNe (fun c hc => not_aliasChar_of_isBlank (hgap c hc)) _
  have hwordTaken : Takes text (some1 aliasChar) i (i + word.length) [] := takes_some1_of_ne_nil hwordNe h hword hstop
  have hgapTaken : Takes text blanks1 (i + word.length) (i + word.length + gap.length) [] :=
    takes_some1_of_ne_nil hgapNe hafterWord hgap (forall_mem_head? (by decide))
  exact ⟨s, _, hs, text_stretch h, ((hwordTaken.group.seq hgapTaken).left).seq htakes⟩

/-! ## From row to row -/

/-- The characters that end a block and its lines. -/
def marks : List Char := [')', '\n']

theorem mem_marks {c : Char} : c ∈ marks ↔ c = ')' ∨ c = '\n' := by simp [marks]

theorem IsGap.not_mem {c : Char} (h : IsGap gap) (hc : c ∈ marks) : c ∉ gap := by
  intro hmem
  obtain ⟨hblank, hne⟩ := h c hmem
  rcases mem_marks.mp hc with rfl | rfl
  · exact absurd hblank (by decide)
  · exact hne rfl

theorem IsGap.count_newline (h : IsGap gap) : gap.count '\n' = 0 :=
  List.count_eq_zero.mpr (h.not_mem (by decide))

/-- A comment is what it ends with, and no more of its last word stands before that. -/
theorem exists_lastWord_eq (note : List Char) : ∃ front gap, note = front ++ (lastWord note ++ gap) ∧
    (∀ c ∈ lastWord note, aliasChar c = true) ∧ (∀ c ∈ gap, isBlank c = true) ∧
    ∀ c ∈ front.getLast?, aliasChar c = false ∧ (lastWord note = [] → isBlank c = false) := by
  have hcore : trimEndBy isBlank note ++ note.rtakeWhile isBlank = note := List.rdropWhile_append_rtakeWhile
  have hfront : (trimEndBy isBlank note).rdropWhile aliasChar ++ lastWord note = trimEndBy isBlank note :=
    List.rdropWhile_append_rtakeWhile
  refine ⟨(trimEndBy isBlank note).rdropWhile aliasChar, note.rtakeWhile isBlank, ?_,
    fun c hc => List.mem_rtakeWhile_imp hc, fun c hc => List.mem_rtakeWhile_imp hc, fun c hc => ⟨?_, fun hnil => ?_⟩⟩
  · rw [← List.append_assoc, hfront, hcore]
  · exact not_of_mem_getLast?_rdropWhile aliasChar _ c hc
  · rw [hnil, List.append_nil] at hfront
    rw [hfront] at hc
    exact not_of_mem_getLast?_rdropWhile isBlank note c hc

/-- What a text without specs leaves to the spec after it: the word at its end, if there is one, before blanks.
`first` is the line on which `above` begins, the text before. -/
inductive Leaves (first : Nat) (above : List Char) : List Char → Option Stray → Prop
  | mk {front word gap : List Char} (quote_not_mem : '"' ∉ front) (aliasChar : ∀ c ∈ word, aliasChar c = true)
      (blank : ∀ c ∈ gap, isBlank c = true)
      (last : ∀ c ∈ front.getLast?, CodeCensus.aliasChar c = false ∧ (word = [] → isBlank c = false)) :
      Leaves first above (front ++ (word ++ gap))
        (if word = [] then none else some ⟨word, first + (above ++ front).count '\n'⟩)

namespace Leaves

variable {first : Nat} {above seen : List Char} {stray? : Option Stray}

theorem of_blank (h : ∀ c ∈ seen, isBlank c = true) : Leaves first above seen none := by
  have hleaves : Leaves first above ([] ++ ([] ++ seen)) none :=
    .mk List.not_mem_nil (List.forall_mem_nil _) h (by simp)
  exact hleaves

theorem append_blanks (h : Leaves first above seen stray?) {gap : List Char} (hgap : ∀ c ∈ gap, isBlank c = true) :
    Leaves first above (seen ++ gap) stray? := by
  cases h with
  | mk hquote hword hblank hlast =>
    rw [List.append_assoc, List.append_assoc]
    exact .mk hquote hword (List.forall_mem_append.mpr ⟨hblank, hgap⟩) hlast

theorem quote_not_mem (h : Leaves first above seen stray?) : '"' ∉ seen := by
  cases h with
  | mk hquote hword hblank _ =>
    simp only [List.mem_append, not_or]
    exact ⟨hquote, fun hmem => absurd (hword _ hmem) (by decide), fun hmem => absurd (hblank _ hmem) (by decide)⟩

theorem of_note {note : List Char} (hseen : '"' ∉ seen) (hquote : '"' ∉ note) (hnewline : '\n' ∉ note) :
    Leaves first above (seen ++ ("//".toList ++ note))
      (if lastWord note = [] then none else some ⟨lastWord note, first + (above ++ seen).count '\n'⟩) := by
  obtain ⟨front, gap, hnote, hword, hblank, hlast⟩ := exists_lastWord_eq note
  generalize lastWord note = word at hnote hword hlast
  rw [hnote] at hquote hnewline
  have hfront : '"' ∉ seen ++ ("//".toList ++ front) := by
    simp only [List.mem_append, not_or] at hquote ⊢
    exact ⟨hseen, by decide, hquote.1⟩
  have hcount : (above ++ (seen ++ ("//".toList ++ front))).count '\n' = (above ++ seen).count '\n' := by
    have hnone : ("//".toList ++ front).count '\n' = 0 := by
      simp only [List.mem_append, not_or] at hnewline
      exact List.count_eq_zero.mpr (List.not_mem_append (by decide) hnewline.1)
    rw [← List.append_assoc, List.count_append, hnone, Nat.add_zero]
  have hlast' : ∀ c ∈ (seen ++ ("//".toList ++ front)).getLast?,
      aliasChar c = false ∧ (word = [] → isBlank c = false) := by
    intro c hc
    rcases eq_or_ne front [] with rfl | hne
    · have hslash : (seen ++ ("//".toList ++ [])).getLast? = some '/' := by simp
      obtain rfl : '/' = c := Option.some.inj (hslash.symm.trans hc)
      exact ⟨by decide, fun _ => by decide⟩
    · rw [List.getLast?_append_of_ne_nil _ (by simp), List.getLast?_append_of_ne_nil _ hne] at hc
      exact hlast c hc
  have hleaves : Leaves first above (seen ++ ("//".toList ++ front) ++ (word ++ gap)) _ := .mk hfront hword hblank hlast'
  rw [hcount] at hleaves
  rw [hnote]
  simpa only [List.append_assoc] using hleaves

end Leaves

variable {above seen : List Char} {first line : Nat} {stray? : Option Stray} {ms : List Match}

/-- A match of a spec tells the path, the word before it if there is one, and the line of the first of them. -/
theorem ofGoSpec_word {breaks j : Nat} {s t : Stretch} (hs : s.text = path) (ht : t.text = word) :
    ofGoSpec breaks ⟨⟨on (above ++ rest) above.length, on (above ++ rest) j⟩, [(2, s), (1, t)]⟩ =
      ⟨String.ofList path, [String.ofList word], breaks + 1 + above.count '\n'⟩ := by
  subst hs ht
  have hline : (on (above ++ rest) above.length).line = above.count '\n' + 1 := by rw [line_on, List.take_left]
  change Import.mk _ _ (breaks + (on (above ++ rest) above.length).line) = _
  rw [hline, Nat.add_comm (above.count '\n'), ← Nat.add_assoc]
  rfl

theorem ofGoSpec_path {breaks j : Nat} {s : Stretch} (hs : s.text = path) :
    ofGoSpec breaks ⟨⟨on (above ++ rest) above.length, on (above ++ rest) j⟩, [(2, s)]⟩ =
      ⟨String.ofList path, [String.ofList (afterLast '/' path)], breaks + 1 + above.count '\n'⟩ := by
  subst hs
  have hline : (on (above ++ rest) above.length).line = above.count '\n' + 1 := by rw [line_on, List.take_left]
  change Import.mk _ _ (breaks + (on (above ++ rest) above.length).line) = _
  rw [hline, Nat.add_comm (above.count '\n'), ← Nat.add_assoc]
  rfl

/-- A path after a word and blanks is the next spec, and the word is read as its alias. -/
theorem sweep_word (hne : path ≠ []) (hpath : '"' ∉ path) (hwordNe : word ≠ [])
    (hword : ∀ c ∈ word, aliasChar c = true) (hgapNe : gap ≠ []) (hgap : ∀ c ∈ gap, isBlank c = true)
    (hfront : '"' ∉ front) (hlast : ∀ c ∈ front.getLast?, aliasChar c = false) {breaks : Nat}
    (htext : text = above ++ (front ++ (word ++ (gap ++ (quotedPath path ++ rest)))))
    (hsweep : Sweep goSpec text above.length ms) :
    ∃ m later, ms = m :: later ∧
      Sweep goSpec text (above ++ (front ++ (word ++ (gap ++ quotedPath path)))).length later ∧
      ofGoSpec breaks m =
        ⟨String.ofList path, [String.ofList word], breaks + 1 + (above ++ front).count '\n'⟩ := by
  have hdrop : text.drop above.length = front ++ (word ++ (gap ++ '"' :: (path ++ ['"'] ++ rest))) := by
    rw [htext, List.drop_left]
    rfl
  have hskipped := hsweep.skip (Nat.le_add_right _ front.length) fun k e hk hlt =>
    not_spans_goSpec hdrop hfront hword hgap (fun c hc => ⟨hlast c hc, fun hnil => absurd hnil hwordNe⟩) hk hlt
  obtain ⟨s, t, hs, ht, htakes⟩ :=
    takes_goSpec_word hne hpath hwordNe hword hgapNe hgap (drop_add_length hdrop)
  obtain ⟨later, rfl, hlater⟩ := hskipped.take htakes.finds
  refine ⟨_, later, rfl, ?_, ?_⟩
  · simpa [quotedPath, Nat.add_assoc] using hlater
  · rw [← List.length_append, htext, ← List.append_assoc]
    exact ofGoSpec_word hs ht

/-- A path that no word stands before is the next spec, and it has no alias. -/
theorem sweep_path (hne : path ≠ []) (hpath : '"' ∉ path) (hgap : ∀ c ∈ gap, isBlank c = true)
    (hfront : '"' ∉ front) (hlast : ∀ c ∈ front.getLast?, aliasChar c = false ∧ isBlank c = false) {breaks : Nat}
    (htext : text = above ++ (front ++ (gap ++ (quotedPath path ++ rest))))
    (hsweep : Sweep goSpec text above.length ms) :
    ∃ m later, ms = m :: later ∧ Sweep goSpec text (above ++ (front ++ (gap ++ quotedPath path))).length later ∧
      ofGoSpec breaks m = ⟨String.ofList path, [String.ofList (afterLast '/' path)],
        breaks + 1 + (above ++ (front ++ gap)).count '\n'⟩ := by
  have hdrop : text.drop above.length = front ++ ([] ++ (gap ++ '"' :: (path ++ ['"'] ++ rest))) := by
    rw [htext, List.drop_left]
    rfl
  have hafter : text.drop (above.length + front.length) = gap ++ (quotedPath path ++ rest) := drop_add_length hdrop
  have hskipped := hsweep.skip (j := above.length + (front ++ gap).length) (Nat.le_add_right _ _) fun k e hk hlt => by
    rcases Nat.lt_or_ge k (above.length + front.length) with hkfront | hkfront
    · exact not_spans_goSpec hdrop hfront (List.forall_mem_nil _) hgap
        (fun c hc => ⟨(hlast c hc).1, fun _ => (hlast c hc).2⟩) hk hkfront
    · rw [List.length_append] at hlt
      exact not_spans_goSpec_of_blank (throughout_of_drop hafter hgap k hkfront (by omega))
  have hquoted : text.drop (above.length + (front ++ gap).length) = quotedPath path ++ rest := by
    rw [List.length_append, ← Nat.add_assoc]
    exact drop_add_length hafter
  obtain ⟨s, hs, htakes⟩ := takes_goSpec_path hne hpath hquoted
  obtain ⟨later, rfl, hlater⟩ := hskipped.take htakes.finds
  refine ⟨_, later, rfl, ?_, ?_⟩
  · simpa [quotedPath, Nat.add_assoc] using hlater
  · have hsplit : text = (above ++ (front ++ gap)) ++ (quotedPath path ++ rest) := by simp [htext]
    rw [← List.length_append, hsplit]
    exact ofGoSpec_path hs

theorem sweep_spec {spec : ImportSpec} (hspec : spec.IsProper) {breaks : Nat}
    (hleaves : Leaves (breaks + 1) above seen stray?) (hends : ∀ c ∈ seen.getLast?, isBlank c = true)
    (htext : text = above ++ (seen ++ (spec.text ++ rest))) (hsweep : Sweep goSpec text above.length ms) :
    ∃ m later, ms = m :: later ∧ Sweep goSpec text (above ++ (seen ++ spec.text)).length later ∧
      ofGoSpec breaks m = spec.reading stray? (breaks + 1 + (above ++ seen).count '\n') := by
  obtain ⟨alias?, path⟩ := spec
  obtain ⟨halias, hne, hpath, -, -⟩ := hspec
  cases alias? with
  | some a =>
    obtain ⟨⟨hwordNe, hword⟩, hgapNe, hgap⟩ := halias a rfl
    have htext : text = above ++ (seen ++ (a.word ++ (a.gap ++ (quotedPath path ++ rest)))) := by
      simp [htext, ImportSpec.text]
    exact sweep_word hne hpath hwordNe hword hgapNe (fun c hc => (hgap c hc).1) hleaves.quote_not_mem
      (fun c hc => not_aliasChar_of_isBlank (hends c hc)) htext hsweep
  | none =>
    cases hleaves with
    | @mk front word gap hfront hword hgap hlast =>
      have htext : text = above ++ (front ++ (word ++ (gap ++ (quotedPath path ++ rest)))) := by
        simp [htext, ImportSpec.text]
      by_cases hwordNe : word = []
      · subst hwordNe
        obtain ⟨m, later, hms, hlater, hm⟩ := sweep_path hne hpath hgap hfront
          (fun c hc => ⟨(hlast c hc).1, (hlast c hc).2 rfl⟩) htext hsweep
        refine ⟨m, later, hms, ?_, hm⟩
        simpa [ImportSpec.text] using hlater
      · have hgapNe : gap ≠ [] := by
          rintro rfl
          have hlastWord := List.getLast_mem hwordNe
          have hseen : (front ++ (word ++ [])).getLast? = some (word.getLast hwordNe) := by
            rw [List.append_nil, List.getLast?_append_of_ne_nil _ hwordNe, List.getLast?_eq_some_getLast]
          have hblank := hends _ hseen
          rw [not_isBlank_of_aliasChar (hword _ hlastWord)] at hblank
          cases hblank
        obtain ⟨m, later, hms, hlater, hm⟩ := sweep_word hne hpath hwordNe hword hgapNe hgap hfront
          (fun c hc => (hlast c hc).1) htext hsweep
        refine ⟨m, later, hms, ?_, ?_⟩
        · simpa [ImportSpec.text] using hlater
        · rw [hm, if_neg hwordNe]
          rfl

namespace ImportRow

variable {row : ImportRow} {c : Char}

theorem not_mem_specText (hrow : row.IsProper) (hc : c ∈ marks) : c ∉ row.specText := by
  rw [specText]
  cases hspec : row.spec? with
  | none => exact List.not_mem_nil
  | some spec =>
    obtain ⟨halias, -, hquote, hparen, hnewline⟩ := hrow.spec_isProper spec hspec
    have hquoted : c ∉ quotedPath spec.path := by
      rcases mem_marks.mp hc with rfl | rfl <;> simp [quotedPath, hparen, hnewline]
    dsimp only [ImportSpec.text]
    cases hword : spec.alias? with
    | none => exact hquoted
    | some a =>
      obtain ⟨⟨-, hword⟩, -, hgap⟩ := halias a hword
      have hnotAlias : aliasChar c = false := by rcases mem_marks.mp hc with rfl | rfl <;> decide
      refine List.not_mem_append (fun hmem => ?_) (List.not_mem_append (hgap.not_mem hc) hquoted)
      rw [hword c hmem] at hnotAlias
      cases hnotAlias

theorem not_mem_text (hrow : row.IsProper) (hc : c ∈ marks) : c ∉ row.text := by
  have hnote : c ∉ row.noteText := by
    rw [noteText]
    cases hnote : row.note? with
    | none => exact List.not_mem_nil
    | some note =>
      obtain ⟨-, hparen, hnewline⟩ := hrow.note_isNote note hnote
      rcases mem_marks.mp hc with rfl | rfl
      · exact List.not_mem_append (by decide) hparen
      · exact List.not_mem_append (by decide) hnewline
  exact List.not_mem_append (hrow.indent_isGap.not_mem hc)
    (List.not_mem_append (not_mem_specText hrow hc) (List.not_mem_append (hrow.trail_isGap.not_mem hc) hnote))

/-- The text above the rest of a row, once its spec is read: what the rows above leave, or only what follows the spec. -/
theorem exists_sweep_spec (hrow : row.IsProper) {breaks : Nat}
    (hleaves : Leaves (breaks + 1) above seen stray?) (hends : ∀ c ∈ seen.getLast?, isBlank c = true)
    (htext : text = above ++ (seen ++ (row.indent ++ (row.specText ++ (row.trail ++ rest)))))
    (hsweep : Sweep goSpec text above.length ms) :
    ∃ above' seen' ms', above' ++ seen' = above ++ (seen ++ (row.indent ++ (row.specText ++ row.trail))) ∧
      Sweep goSpec text above'.length ms' ∧
      Leaves (breaks + 1) above' seen' (if row.spec?.isSome then none else stray?) ∧
      ms.map (ofGoSpec breaks) = (row.spec?.map fun spec =>
        spec.reading stray? (breaks + 1 + (above ++ seen).count '\n')).toList ++ ms'.map (ofGoSpec breaks) := by
  have hindent : ∀ c ∈ row.indent, isBlank c = true := fun c hc => (hrow.indent_isGap c hc).1
  have htrail : ∀ c ∈ row.trail, isBlank c = true := fun c hc => (hrow.trail_isGap c hc).1
  rw [specText] at htext ⊢
  cases hspec : row.spec? with
  | none =>
    refine ⟨above, seen ++ (row.indent ++ row.trail), ms, rfl, hsweep, ?_, rfl⟩
    exact hleaves.append_blanks (List.forall_mem_append.mpr ⟨hindent, htrail⟩)
  | some spec =>
    rw [hspec] at htext
    have hsplit : text = above ++ (seen ++ row.indent ++ (spec.text ++ (row.trail ++ rest))) := by simp [htext]
    have hends' : ∀ c ∈ (seen ++ row.indent).getLast?, isBlank c = true := forall_getLast?_append hends hindent
    obtain ⟨m, later, rfl, hlater, hm⟩ :=
      sweep_spec (hrow.spec_isProper spec hspec) (hleaves.append_blanks hindent) hends' hsplit hsweep
    have hcount : (above ++ (seen ++ row.indent)).count '\n' = (above ++ seen).count '\n' := by
      rw [← List.append_assoc, List.count_append, hrow.indent_isGap.count_newline, Nat.add_zero]
    rw [hcount] at hm
    refine ⟨above ++ (seen ++ row.indent ++ spec.text), row.trail, later, by simp, hlater, .of_blank htrail, ?_⟩
    rw [List.map_cons, hm]
    rfl

/-- A row is read as its spec below what the rows above leave, and leaves what its comment ends with. -/
theorem exists_sweep_row (hrow : row.IsProper) {breaks : Nat}
    (hleaves : Leaves (breaks + 1) above seen stray?) (hends : ∀ c ∈ seen.getLast?, isBlank c = true)
    (htext : text = above ++ (seen ++ (row.text ++ rest))) (hsweep : Sweep goSpec text above.length ms) :
    ∃ above' seen' ms', above' ++ seen' = above ++ (seen ++ row.text) ∧ Sweep goSpec text above'.length ms' ∧
      Leaves (breaks + 1) above' seen' (row.stray? (breaks + 1 + (above ++ seen).count '\n') stray?) ∧
      ms.map (ofGoSpec breaks) = (row.spec?.map fun spec =>
        spec.reading stray? (breaks + 1 + (above ++ seen).count '\n')).toList ++ ms'.map (ofGoSpec breaks) := by
  have htext' : text = above ++ (seen ++ (row.indent ++ (row.specText ++ (row.trail ++ (row.noteText ++ rest))))) := by
    simp [htext, ImportRow.text]
  obtain ⟨above', seen', ms', happend, hsweep', hleaves', hmap⟩ := exists_sweep_spec hrow hleaves hends htext' hsweep
  rw [ImportRow.text, noteText, ImportRow.stray?]
  cases hnote : row.note? with
  | none =>
    refine ⟨above', seen', ms', ?_, hsweep', ?_, hmap⟩
    · rw [happend, List.append_nil]
    · cases hspec : row.spec? <;> simpa [hspec] using hleaves'
  | some note =>
    obtain ⟨hquote, -, hnewline⟩ := hrow.note_isNote note hnote
    have hcount : (above' ++ seen').count '\n' = (above ++ seen).count '\n' := by
      have hspec : row.specText.count '\n' = 0 := List.count_eq_zero.mpr (not_mem_specText hrow (by decide))
      rw [happend]
      simp only [List.count_append, hrow.indent_isGap.count_newline, hrow.trail_isGap.count_newline, hspec, Nat.add_zero]
    refine ⟨above', seen' ++ ("//".toList ++ note), ms', ?_, hsweep', ?_, hmap⟩
    · rw [← List.append_assoc, happend]
      simp
    · rw [← hcount]
      exact .of_note hleaves'.quote_not_mem hquote hnewline

end ImportRow

theorem map_ofGoSpec_sweep {row : ImportRow} {rows : List ImportRow} (hrows : ∀ r ∈ row :: rows, r.IsProper)
    {breaks : Nat} (hleaves : Leaves (breaks + 1) above seen stray?) (hends : ∀ c ∈ seen.getLast?, isBlank c = true)
    (htext : text = above ++ (seen ++ List.intercalate ['\n'] ((row :: rows).map ImportRow.text)))
    (hsweep : Sweep goSpec text above.length ms) :
    ms.map (ofGoSpec breaks) =
      readingsOf (breaks + 1 + (above ++ seen).count '\n') stray? (row :: rows) := by
  induction rows generalizing row above seen stray? ms with
  | nil =>
    have hrow := hrows row List.mem_cons_self
    have htext : text = above ++ (seen ++ (row.text ++ [])) := by simpa using htext
    obtain ⟨above', seen', ms', happend, hsweep', hleaves', hmap⟩ :=
      ImportRow.exists_sweep_row hrow hleaves hends htext hsweep
    have hend : ms' = [] := by
      refine hsweep'.eq_nil fun k e hk hspans => hleaves'.quote_not_mem ?_
      obtain ⟨b, hkb, hquote⟩ := exists_quote_of_spans hspans
      have htext' : text = above' ++ seen' := by rw [htext, List.append_nil, happend]
      obtain ⟨c, hc, hmark⟩ := hquote
      obtain rfl : c = '"' := beq_iff_eq.mp hmark
      rw [htext', List.getElem?_append_right (hk.trans hkb)] at hc
      exact List.mem_of_getElem? hc
    rw [hmap, hend]
    rfl
  | cons next rows ih =>
    obtain ⟨hrow, hrows⟩ := List.forall_mem_cons.mp hrows
    have htext : text = above ++ (seen ++ (row.text ++ ('\n' :: List.intercalate ['\n'] ((next :: rows).map ImportRow.text)))) := by
      rw [htext, List.map_cons, List.map_cons, List.intercalate_cons_cons]
      simp
    obtain ⟨above', seen', ms', happend, hsweep', hleaves', hmap⟩ :=
      ImportRow.exists_sweep_row hrow hleaves hends htext hsweep
    have htext' : text = above' ++ (seen' ++ ['\n'] ++ List.intercalate ['\n'] ((next :: rows).map ImportRow.text)) := by
      have hjoin (more : List Char) : above' ++ (seen' ++ ['\n'] ++ more) = above' ++ seen' ++ '\n' :: more := by simp
      rw [hjoin, happend, htext]
      simp
    have hline : (above' ++ (seen' ++ ['\n'])).count '\n' = (above ++ seen).count '\n' + 1 := by
      have hnone : row.text.count '\n' = 0 := List.count_eq_zero.mpr (ImportRow.not_mem_text hrow (by decide))
      rw [← List.append_assoc, happend, ← List.append_assoc above, List.count_append, List.count_append, hnone,
        List.count_singleton_self, Nat.add_zero]
    have hnext := ih hrows (hleaves'.append_blanks (List.forall_mem_singleton.mpr (by decide)))
      (by simp; decide) htext' hsweep'
    rw [hmap, hnext, hline]
    rfl

/-! ## Whole blocks -/

theorem exists_import_of_spans (h : goImport.Spans text k e) :
    Edge.word.holds (on text k) = true ∧ ∃ m, (Pattern.text "import").Spans text k m := by
  rcases h with ⟨_, ⟨hedge, rfl⟩, m, hword, -⟩ | ⟨_, ⟨hedge, rfl⟩, m, hword, -⟩ <;> exact ⟨hedge, m, hword⟩

namespace ImportBlock

variable {b : ImportBlock} {before after : List Char}

theorem paren_not_mem_inside (hb : b.IsProper) : ')' ∉ b.inside := by
  intro hmem
  obtain ⟨part, hpart, hmem⟩ := (mem_of_mem_intercalate hmem).resolve_left (by decide)
  obtain ⟨row, hrow, rfl⟩ := List.mem_map.mp hpart
  exact ImportRow.not_mem_text (hb.rows_areProper row hrow) (by decide) hmem

theorem text_append (b : ImportBlock) (rest : List Char) :
    b.text ++ rest = "import".toList ++ (b.gap ++ ('(' :: (b.inside ++ (')' :: rest)))) := by
  unfold ImportBlock.text
  simp only [List.append_assoc, List.cons_append, List.nil_append]

/-- Where a bracket opens behind the keyword and a gap, there is no import of a single spec. -/
theorem not_spans_oneSpec (hb : b.IsProper) (hgap : text.drop (i + 6) = b.gap ++ ("(".toList ++ rest)) (e : Nat) :
    ¬ (inOrder [wordEdge, "import", blanks1, goSpec]).Spans text i e := by
  rintro ⟨j, ⟨-, hj⟩, m, himport, l, ⟨n, ⟨hblank, rfl⟩, hblanks⟩, hspec⟩
  obtain rfl : i = j := hj.symm
  obtain rfl : m = i + 6 := eq_add_of_spans_text himport
  have hrun : Throughout text isBlank (i + 6) l := .cons hblank hblanks.2
  have hle : l ≤ i + 6 + b.gap.length := not_throughout_of_drop hgap (forall_mem_head? (by decide)) hrun
  have hlt := hblanks.1
  rcases Nat.eq_or_lt_of_le hle with rfl | hlt'
  · exact not_spans_of_drop (by decide) (drop_add_length hgap) (by decide) e hspec
  · refine not_spans_goSpec_of_blank ?_ hspec
    exact throughout_of_drop hgap (fun c hc => (hb.gap_isGap c hc).1) l (by omega) hlt'

/-- A block is matched from its keyword to the parenthesis that closes it. -/
theorem exists_finds (hb : b.IsProper) (hdrop : text.drop i = b.text ++ rest) (hedge : Edge.word.holds (on text i) = true) :
    ∃ m s, goImport.Finds text m i (i + b.text.length) ∧ m.group? 3 = some s ∧ s.text = b.inside ∧
      s.start = on text (i + 7 + b.gap.length) := by
  have hword : text.drop i = "import".toList ++ (b.gap ++ ("(".toList ++ (b.inside ++ (")".toList ++ rest)))) := by
    rw [hdrop, text_append]
    rfl
  have hgap : text.drop (i + 6) = b.gap ++ ("(".toList ++ (b.inside ++ (")".toList ++ rest))) := drop_add_length hword
  have hopen : text.drop (i + 6 + b.gap.length) = "(".toList ++ (b.inside ++ (")".toList ++ rest)) := drop_add_length hgap
  have hinside : text.drop (i + 6 + b.gap.length + 1) = b.inside ++ (")".toList ++ rest) := drop_add_length hopen
  have hclose := drop_add_length hinside
  have hwordTaken : Takes text "import" i (i + 6) [] := takes_text hword
  have hgapTaken : Takes text blanks (i + 6) (i + 6 + b.gap.length) [] :=
    takes_run hgap (fun c hc => (hb.gap_isGap c hc).1) (forall_mem_head? (by decide))
  have hopenTaken : Takes text "(" (i + 6 + b.gap.length) (i + 6 + b.gap.length + 1) [] := takes_text hopen
  have hinsideTaken : Takes text (.run (beyond [')'])) (i + 6 + b.gap.length + 1)
      (i + 6 + b.gap.length + 1 + b.inside.length) [] := by
    refine takes_run hinside (fun c hc => ?_) (forall_mem_head? (by decide))
    have hne : c ≠ ')' := fun heq => paren_not_mem_inside hb (heq ▸ hc)
    simpa [beyond] using hne
  have hcloseTaken : Takes text ")" (i + 6 + b.gap.length + 1 + b.inside.length)
      (i + 6 + b.gap.length + 1 + b.inside.length + 1) [] := takes_text hclose
  have hone := not_spans_oneSpec hb hgap
  have htakes : Takes text goImport i (i + 6 + b.gap.length + 1 + b.inside.length + 1) _ :=
    ((takes_edge hedge).seq (hwordTaken.seq (hgapTaken.seq (hopenTaken.seq
      (hinsideTaken.group.seq hcloseTaken))))).right hone
  have hlength : i + b.text.length = i + 6 + b.gap.length + 1 + b.inside.length + 1 := by
    have htext := congrArg List.length (b.text_append [])
    have hkeyword : "import".toList.length = 6 := rfl
    simp only [List.length_append, List.length_cons, List.length_nil, hkeyword] at htext
    omega
  rw [hlength]
  refine ⟨_, _, htakes.finds, rfl, text_stretch hinside, ?_⟩
  rw [show i + 6 + b.gap.length + 1 = i + 7 + b.gap.length by omega]

def imports (line : Nat) (b : ImportBlock) : List Import := importsOf line b.rows

def readings (line : Nat) (b : ImportBlock) : List Import := readingsOf line none b.rows

theorem map_ofGoSpec_all (hb : b.IsProper) (breaks : Nat) :
    (goSpec.all b.inside).map (ofGoSpec breaks) = b.readings (breaks + 1) := by
  have hsweep := goSpec.all_sweep (by decide) b.inside
  obtain ⟨gap, rows⟩ := b
  cases rows with
  | nil =>
    have hnil : goSpec.all (ImportBlock.mk gap []).inside = [] :=
      hsweep.eq_nil fun k e _ hspans => by
        have hlength := hspans.lt_length (by decide)
        exact absurd hlength (Nat.not_lt_zero k)
    rw [hnil]
    rfl
  | cons row rows =>
    have hinside : (ImportBlock.mk gap (row :: rows)).inside =
        [] ++ ([] ++ List.intercalate ['\n'] ((row :: rows).map ImportRow.text)) := rfl
    exact map_ofGoSpec_sweep hb.rows_areProper (.of_blank (List.forall_mem_nil _)) (by simp) hinside hsweep

/-- A stray word is taken from a line above, so it changes the line that is read. -/
theorem reading_eq_import_iff {spec : ImportSpec} {line : Nat} (hstray : ∀ stray ∈ stray?, stray.line < line) :
    spec.reading stray? line = spec.import line ↔ (spec.alias? = none → stray? = none) := by
  obtain ⟨alias?, path⟩ := spec
  cases alias? with
  | some a => exact iff_of_true rfl fun h => by cases h
  | none =>
    cases stray? with
    | none => exact iff_of_true rfl fun _ => rfl
    | some stray =>
      have hlt := hstray stray rfl
      refine iff_of_false (fun heq => ?_) fun h => by cases h rfl
      have hline : stray.line = line := congrArg (fun i : Import => i.line) heq
      omega

theorem line_lt_of_stray? {row : ImportRow} {line : Nat} (hstray : ∀ stray ∈ stray?, stray.line < line) :
    ∀ stray ∈ row.stray? line stray?, stray.line < line + 1 := by
  intro stray hmem
  rw [ImportRow.stray?] at hmem
  split at hmem
  · split at hmem
    · cases hmem
    · obtain rfl := Option.some.inj hmem
      exact Nat.lt_succ_self line
  · cases hmem
  · exact Nat.lt_succ_of_lt (hstray stray hmem)

theorem readingsOf_eq_importsOf_iff {rows : List ImportRow} {line : Nat}
    (hstray : ∀ stray ∈ stray?, stray.line < line) :
    readingsOf line stray? rows = importsOf line rows ↔ IsClear line stray? rows := by
  induction rows generalizing line stray? with
  | nil => exact iff_of_true rfl trivial
  | cons row rows ih =>
    have hbelow : ∀ stray ∈ row.stray? line stray?, stray.line < line + 1 := line_lt_of_stray? hstray
    rw [readingsOf, importsOf, IsClear, ← ih hbelow]
    cases row.spec? with
    | none => exact (and_iff_right fun _ h => by cases h).symm
    | some spec =>
      have hspec : spec.reading stray? line = spec.import line ↔ (spec.alias? = none → stray? = none) :=
        reading_eq_import_iff hstray
      simp [hspec]

/-- A block is read row by row, each spec without an alias below what the rows above it leave. -/
theorem go_append (hb : b.IsProper) (hbefore : ¬ "import".toList <:+: before)
    (hedge : ∀ c ∈ before.getLast?, isWord c = false) (hafter : ¬ "import".toList <:+: after) :
    Imports.go (before ++ (b.text ++ after)) = b.readings ((before ++ b.gap).count '\n' + 1) := by
  generalize htext : before ++ (b.text ++ after) = text
  have hfront : text.drop 0 = before ++ (b.text ++ after) := htext.symm
  have hblock : text.drop before.length = b.text ++ after := by rw [← htext, List.drop_left]
  have hback : text.drop (before.length + b.text.length) = after := drop_add_length hblock
  have hwordAt : Edge.word.holds (on text before.length) = true := by
    rw [← htext]
    exact wordEdge_append hedge rfl
  obtain ⟨m, s, hfinds, hgroup, hinside, hstart⟩ := exists_finds hb hblock hwordAt
  have hskipped := (goImport.all_sweep (by decide) text).skip (Nat.zero_le before.length) fun k e _ hk hspans => by
    obtain ⟨-, m, himport⟩ := exists_import_of_spans hspans
    refine not_spans_text hfront hbefore (fun c hc hmem => ?_) (Nat.zero_le k) (by omega) himport
    have hletters : "import".toList.all isWord = true := by decide
    have hword := List.all_eq_true.mp hletters c hmem
    rw [hedge c hc] at hword
    cases hword
  obtain ⟨later, hall, hlater⟩ := hskipped.take hfinds
  have hnone : later = [] := hlater.eq_nil fun k e hk hspans => by
    obtain ⟨-, m, himport⟩ := exists_import_of_spans hspans
    have hinfix := infix_drop_of_spans_text hk himport
    rw [hback] at hinfix
    exact hafter hinfix
  have hbreaks : s.start.breaks = (before ++ b.gap).count '\n' := by
    have hsplit : text = (before ++ ("import".toList ++ (b.gap ++ ['(']))) ++ (b.inside ++ (')' :: after)) := by
      simp only [← htext, text_append, List.append_assoc, List.cons_append, List.nil_append]
    have hlength : before.length + 7 + b.gap.length =
        (before ++ ("import".toList ++ (b.gap ++ ['(']))).length := by
      simp only [List.length_append, List.length_singleton]
      have : "import".toList.length = 6 := rfl
      omega
    rw [hstart]
    change (text.take _).count '\n' = _
    rw [hlength, hsplit, List.take_left]
    have hword : "import".toList.count '\n' = 0 := by decide
    have hparen : ['('].count '\n' = 0 := by decide
    simp only [List.count_append, hword, hparen, Nat.zero_add, Nat.add_zero]
  have hread : Imports.go text = (goSpec.all s.text).map (ofGoSpec s.start.breaks) := by
    rw [Imports.go, hall, hnone, List.flatMap_singleton, hgroup]
  rw [hread, hinside, map_ofGoSpec_all hb, hbreaks]

/-- What is read of a block is what it imports if and only if no spec without an alias stands below a stray word. -/
theorem go_eq_readings (hb : b.IsProper) (hbefore : ¬ "import".toList <:+: before)
    (hedge : ∀ c ∈ before.getLast?, isWord c = false) (hafter : ¬ "import".toList <:+: after) :
    Imports.go (before ++ (b.text ++ after)) = b.readings ((before ++ b.gap).count '\n' + 1) ∧
      (Imports.go (before ++ (b.text ++ after)) = b.imports ((before ++ b.gap).count '\n' + 1) ↔
        IsClear ((before ++ b.gap).count '\n' + 1) none b.rows) := by
  have hreadings := go_append hb hbefore hedge hafter
  refine ⟨hreadings, ?_⟩
  rw [hreadings]
  exact readingsOf_eq_importsOf_iff (by simp)

/-- A block with a comment above a spec without an alias. -/
def commented : ImportBlock where
  gap := [' ']
  rows := [
    ⟨[], none, [], none⟩,
    ⟨['\t'], some ⟨none, "fmt".toList⟩, [' '], some " standard".toList⟩,
    ⟨['\t'], some ⟨none, "os".toList⟩, [], none⟩,
    ⟨[], none, [], none⟩]

theorem isGap_of_all (h : gap.all (fun c => isBlank c && c != '\n') = true) : IsGap gap := by
  intro c hc
  simpa using List.all_eq_true.mp h c hc

theorem commented_isProper : commented.IsProper where
  gap_isGap := isGap_of_all (by decide)
  rows_areProper row hrow := by
    simp only [commented, List.mem_cons, List.not_mem_nil, or_false] at hrow
    rcases hrow with rfl | rfl | rfl | rfl
    · exact ⟨isGap_of_all (by decide), by rintro _ ⟨⟩, isGap_of_all (by decide), by rintro _ ⟨⟩⟩
    · exact ⟨isGap_of_all (by decide), by rintro _ ⟨⟩; exact ⟨by rintro _ ⟨⟩, by decide⟩, isGap_of_all (by decide),
        by rintro _ ⟨⟩; decide⟩
    · exact ⟨isGap_of_all (by decide), by rintro _ ⟨⟩; exact ⟨by rintro _ ⟨⟩, by decide⟩, isGap_of_all (by decide),
        by rintro _ ⟨⟩⟩
    · exact ⟨isGap_of_all (by decide), by rintro _ ⟨⟩, isGap_of_all (by decide), by rintro _ ⟨⟩⟩

theorem go_eq_readings_commented :
    commented.IsProper ∧ ¬ "import".toList <:+: [] ∧ (∀ c ∈ ([] : List Char).getLast?, isWord c = false) ∧
      Imports.go ([] ++ (commented.text ++ [])) = commented.readings (([] ++ commented.gap).count '\n' + 1) ∧
      (Imports.go ([] ++ (commented.text ++ [])) = commented.imports (([] ++ commented.gap).count '\n' + 1) ↔
        IsClear (([] ++ commented.gap).count '\n' + 1) none commented.rows) :=
  ⟨commented_isProper, by decide, by simp, go_eq_readings commented_isProper (by decide) (by simp) (by decide)⟩

/-- The word at the end of the comment is read as an alias of the path below it, on the line of the comment. -/
theorem go_ne_imports_commented : ¬ ∀ b : ImportBlock, b.IsProper →
    Imports.go b.text = b.imports (b.gap.count '\n' + 1) := by
  intro h
  have himports := h commented commented_isProper
  have hread : Imports.go ([] ++ (commented.text ++ [])) = commented.readings (([] ++ commented.gap).count '\n' + 1) :=
    go_append commented_isProper (by decide) (by simp) (by decide)
  have hreadings : commented.readings (([] ++ commented.gap).count '\n' + 1) =
      [⟨"fmt", ["fmt"], 2⟩, ⟨"os", ["standard"], 2⟩] := by decide +kernel
  have hwritten : commented.imports (commented.gap.count '\n' + 1) = [⟨"fmt", ["fmt"], 2⟩, ⟨"os", ["os"], 3⟩] := by
    decide +kernel
  rw [List.nil_append, List.append_nil, himports, hwritten, hreadings] at hread
  exact absurd hread (by decide)

end ImportBlock

end CodeCensus
