import CodeCensus.Declaration.Imports
import CodeCensus.Proofs.Pattern.Taking
import CodeCensus.Proofs.Text.Class
import CodeCensus.Proofs.Text.Lines
import CodeCensus.Proofs.Text.Trim
import CodeCensus.Proofs.Text.Words

/-! Lists of imported names. What stands between two commas is one name: from it, what follows the word `as` is left
out, and so comments are left out only behind an alias, and only up to a comma in them. -/

namespace CodeCensus

open Text Pattern Cursor Imports

/-! ## Lists as written -/

/-- Blanks, and comments with the blanks on the lines below each of them. -/
structure CommentedGap where
  start : List Char
  notes : List (List Char × List Char)

structure ImportedName where
  name : List Char
  alias? : Option (List Char)

structure ImportedPart where
  before : CommentedGap
  entry : ImportedName
  after : CommentedGap

/-- How a list of names ends: behind a comma, or with a name that no comma follows. -/
inductive ImportEnding where
  | comma (gap : CommentedGap)
  | name (part : ImportedPart)

/-- Parts with a comma behind each of them, and what follows the last comma. -/
structure ImportList where
  parts : List ImportedPart
  ending : ImportEnding

def CommentedGap.text (g : CommentedGap) : List Char :=
  g.start ++ g.notes.flatMap fun note => '#' :: (note.1 ++ '\n' :: note.2)

def ImportedName.text (n : ImportedName) : List Char :=
  match n.alias? with
  | none => n.name
  | some other => n.name ++ (" as ".toList ++ other)

def ImportedPart.text (p : ImportedPart) : List Char := p.before.text ++ (p.entry.text ++ p.after.text)

def ImportEnding.text : ImportEnding → List Char
  | comma gap => gap.text
  | name part => part.text

def ImportEnding.parts : ImportEnding → List ImportedPart
  | comma _ => []
  | name part => [part]

def ImportEnding.gaps : ImportEnding → List CommentedGap
  | comma gap => [gap]
  | name _ => []

namespace ImportList

def text (l : ImportList) : List Char := (l.parts.flatMap fun part => part.text ++ [',']) ++ l.ending.text

def allParts (l : ImportList) : List ImportedPart := l.parts ++ l.ending.parts

def gaps (l : ImportList) : List CommentedGap :=
  (l.allParts.flatMap fun part => [part.before, part.after]) ++ l.ending.gaps

def names (l : ImportList) : List String := l.allParts.map fun part => String.ofList part.entry.name

end ImportList

def gapChar : Char → Bool := among [' ', '\t', '\n']

structure CommentedGap.IsProper (g : CommentedGap) : Prop where
  start_isGap : ∀ c ∈ g.start, gapChar c = true
  notes_areNotes : ∀ note ∈ g.notes, '\n' ∉ note.1 ∧ ')' ∉ note.1 ∧ ∀ c ∈ note.2, gapChar c = true

def IsImportWord (word : List Char) : Prop :=
  word ≠ [] ∧ ∀ c ∈ word, isBlank c = false ∧ c ∉ [',', '(', ')', '#', ';', '\\']

structure ImportedName.IsProper (n : ImportedName) : Prop where
  name_isWord : IsImportWord n.name
  name_ne_as : n.name ≠ "as".toList
  alias_isWord : ∀ word ∈ n.alias?, IsImportWord word

structure ImportList.IsProper (l : ImportList) : Prop where
  gaps_areProper : ∀ gap ∈ l.gaps, gap.IsProper
  entries_areProper : ∀ part ∈ l.allParts, part.entry.IsProper

/-! ## What is read off a list -/

/-- The characters that are left out at both ends of a list. -/
def listEdge : Char → Bool := fun c => ['(', ')', '\n', '\\', ' ', '\t'].contains c

def flat (c : Char) : Char := if c == '\n' then ' ' else c

/-- What stands before the first `as` between spaces. -/
def beforeAs (item : List Char) : List Char := (pieces " as ".toList item).headD []

def itemName (item : List Char) : Option String := (nonBlank? (beforeAs item)).map String.ofList

def itemNames (list : List Char) : List String := (fields ',' (list.map flat)).filterMap itemName

/-- The names that are read off the texts behind the commas in what follows a name. -/
def namesBehindCommas (behind : List Char) : List String := (fields ',' (behind.map flat)).tail.filterMap itemName

theorem importedNames_eq (list : List Char) : importedNames list = itemNames (trimBy listEdge list) := rfl

/-! ### Up to the word `as` -/

theorem beforeAs_eq (item : List Char) : beforeAs item = ((cutFirst " as ".toList item).map Prod.fst).getD item := by
  cases item with
  | nil => rfl
  | cons c rest =>
    rw [beforeAs, pieces, List.length_cons, piecesWithin]
    cases cutFirst " as ".toList (c :: rest) <;> rfl

theorem beforeAs_as (rest : List Char) : beforeAs (" as ".toList ++ rest) = [] := by
  rw [beforeAs_eq]
  rfl

theorem beforeAs_cons_of_not {c : Char} {rest : List Char} (h : ¬ " as ".toList <+: c :: rest) :
    beforeAs (c :: rest) = c :: beforeAs rest := by
  rw [beforeAs_eq, beforeAs_eq, cutFirst, cutFirstAfter, if_neg fun hprefix => h (List.isPrefixOf_iff_prefix.mp hprefix),
    cutFirstAfter_eq_map]
  cases cutFirst " as ".toList rest <;> rfl

theorem beforeAs_append {front rest : List Char} (h : ∀ c ∈ front, c ≠ ' ') :
    beforeAs (front ++ rest) = front ++ beforeAs rest := by
  induction front with
  | nil => rfl
  | cons c front ih =>
    obtain ⟨hc, hfront⟩ := List.forall_mem_cons.mp h
    have hnot : ¬ " as ".toList <+: c :: (front ++ rest) := fun hprefix => hc (List.cons_prefix_cons.mp hprefix).1.symm
    rw [List.cons_append, beforeAs_cons_of_not hnot, ih hfront, List.cons_append]

theorem beforeAs_blanks_append {blanks rest : List Char} (h : ∀ c ∈ blanks, isBlank c = true)
    (hrest : ¬ "as ".toList <+: rest) : beforeAs (blanks ++ rest) = blanks ++ beforeAs rest := by
  induction blanks with
  | nil => rfl
  | cons c blanks ih =>
    obtain ⟨-, hblanks⟩ := List.forall_mem_cons.mp h
    have hnot : ¬ " as ".toList <+: c :: (blanks ++ rest) := by
      intro hprefix
      have hword : "as ".toList <+: blanks ++ rest := (List.cons_prefix_cons.mp hprefix).2
      cases blanks with
      | nil => exact hrest hword
      | cons d blanks =>
        obtain rfl : 'a' = d := (List.cons_prefix_cons.mp hword).1
        exact absurd (hblanks 'a' List.mem_cons_self) (by decide)
    rw [List.cons_append, beforeAs_cons_of_not hnot, ih hblanks, List.cons_append]

/-! ### One item -/

variable {name other blanks rest : List Char}

theorem nonBlank?_blanks_append (h : ∀ c ∈ blanks, isBlank c = true) (rest : List Char) :
    nonBlank? (blanks ++ rest) = nonBlank? rest := by
  rw [nonBlank?, nonBlank?, trim_blanks_append h]

theorem itemName_blanks_append (h : ∀ c ∈ blanks, isBlank c = true) (hrest : ¬ "as ".toList <+: rest) :
    itemName (blanks ++ rest) = itemName rest := by
  rw [itemName, itemName, beforeAs_blanks_append h hrest, nonBlank?_blanks_append h]

theorem IsImportWord.not_mem (h : IsImportWord name) {c : Char}
    (hc : isBlank c = true ∨ c ∈ [',', '(', ')', '#', ';', '\\']) : c ∉ name := by
  intro hmem
  obtain ⟨hblank, hmark⟩ := h.2 c hmem
  rcases hc with hc | hc
  · rw [hc] at hblank
    cases hblank
  · exact hmark hc

theorem IsImportWord.beforeAs_append (h : IsImportWord name) (rest : List Char) :
    beforeAs (name ++ rest) = name ++ beforeAs rest := by
  refine CodeCensus.beforeAs_append fun c hc heq => ?_
  exact h.not_mem (.inl (by decide)) (heq ▸ hc)

theorem IsImportWord.nonBlank?_append (h : IsImportWord name) (hblanks : ∀ c ∈ blanks, isBlank c = true) :
    nonBlank? (name ++ blanks) = some name := by
  have htrim : trim (name ++ blanks) = name := by
    have hhead : ∀ c ∈ (name ++ blanks).head?, isBlank c = false :=
      head?_append_of_forall h.1 (fun c hc => (h.2 c hc).1) blanks
    have hstart := trim_append_of_head? (List.forall_mem_nil _) hhead
    rw [List.nil_append] at hstart
    rw [hstart, trimEndBy_append_of_pos hblanks, trimEndBy_eq_self fun c hc => (h.2 c hc).1]
  rw [nonBlank?, htrim]
  cases name with
  | nil => exact absurd rfl h.1
  | cons c name => rfl

theorem itemName_aliased (h : IsImportWord name) (rest : List Char) :
    itemName (name ++ (" as ".toList ++ rest)) = some (String.ofList name) := by
  have hname : nonBlank? (name ++ []) = some name := h.nonBlank?_append (List.forall_mem_nil _)
  rw [itemName, h.beforeAs_append, beforeAs_as, hname]
  rfl

theorem itemName_plain (h : IsImportWord name) (hblanks : ∀ c ∈ blanks, isBlank c = true) :
    itemName (name ++ blanks) = some (String.ofList name) := by
  have hbefore : beforeAs blanks = blanks := by
    have happend : beforeAs (blanks ++ []) = blanks ++ beforeAs [] := beforeAs_blanks_append hblanks (by decide)
    rw [List.append_nil] at happend
    rw [happend]
    exact List.append_nil blanks
  rw [itemName, h.beforeAs_append, hbefore, h.nonBlank?_append hblanks]
  rfl

/-- A comment that no `as` precedes is read as part of the name. -/
theorem exists_itemName_of_note {front rest : List Char} {item : List Char} (h : beforeAs item = front ++ '#' :: rest) :
    ∃ name, itemName item = some name ∧ '#' ∈ name.toList := by
  obtain ⟨before, after, heq, hbefore, hafter, -, -⟩ := exists_trim_eq (front ++ '#' :: rest)
  have hmem : '#' ∈ trim (front ++ '#' :: rest) := by
    have hall : '#' ∈ before ++ trim (front ++ '#' :: rest) ++ after := heq ▸ by simp
    rcases List.mem_append.mp hall with hall | hall
    · rcases List.mem_append.mp hall with hall | hall
      · exact absurd (hbefore _ hall) (by decide)
      · exact hall
    · exact absurd (hafter _ hall) (by decide)
  rw [itemName, h, nonBlank?]
  cases htrim : trim (front ++ '#' :: rest) with
  | nil =>
    rw [htrim] at hmem
    cases hmem
  | cons c cs =>
    rw [htrim] at hmem
    exact ⟨String.ofList (c :: cs), rfl, by simpa using hmem⟩

/-! ### Items between commas -/

theorem isBlank_of_gapChar {c : Char} (h : gapChar c = true) : isBlank c = true := by
  have hmem : c = ' ' ∨ c = '\t' ∨ c = '\n' := by simpa [gapChar, among] using h
  rcases hmem with rfl | rfl | rfl <;> decide

theorem isBlank_of_forall_gapChar (h : ∀ c ∈ blanks, gapChar c = true) : ∀ c ∈ blanks, isBlank c = true :=
  fun c hc => isBlank_of_gapChar (h c hc)

theorem isBlank_map_flat (h : ∀ c ∈ blanks, isBlank c = true) : ∀ c ∈ blanks.map flat, isBlank c = true := by
  intro c hc
  obtain ⟨d, hd, rfl⟩ := List.mem_map.mp hc
  rw [flat]
  split
  · decide
  · exact h d hd

theorem flat_eq_iff {c d : Char} (hd : d ≠ ' ') (hd' : d ≠ '\n') : flat c = d ↔ c = d := by
  rw [flat]
  split
  · rename_i hc
    obtain rfl : c = '\n' := beq_iff_eq.mp hc
    exact iff_of_false hd.symm hd'.symm
  · exact Iff.rfl

theorem not_mem_map_flat {mark : Char} {text : List Char} (hmark : mark ≠ ' ') (hmark' : mark ≠ '\n')
    (h : mark ∉ text) : mark ∉ text.map flat := by
  intro hmem
  obtain ⟨c, hc, heq⟩ := List.mem_map.mp hmem
  exact h ((flat_eq_iff hmark hmark').mp heq ▸ hc)

theorem map_flat_of_not_mem {text : List Char} (h : '\n' ∉ text) : text.map flat = text := by
  have hmap : text.map flat = text.map id := by
    refine List.map_congr_left fun c hc => if_neg ?_
    intro heq
    exact h (beq_iff_eq.mp heq ▸ hc)
  exact hmap.trans (List.map_id text)

theorem itemNames_append_of_not_mem {front : List Char} (h : ',' ∉ front) (rest : List Char) :
    itemNames (front ++ rest) =
      (itemName (front.map flat ++ upTo ',' (rest.map flat))).toList ++ namesBehindCommas rest := by
  rw [itemNames, List.map_append, fields_append_of_not_mem (not_mem_map_flat (by decide) (by decide) h),
    List.filterMap_cons, namesBehindCommas]
  cases itemName (front.map flat ++ upTo ',' (rest.map flat)) <;> rfl

theorem itemNames_append_comma (front rest : List Char) :
    itemNames (front ++ ',' :: rest) = itemNames front ++ itemNames rest := by
  have hcomma : flat ',' = ',' := by decide
  rw [itemNames, List.map_append, List.map_cons, hcomma, fields_append_cons, List.filterMap_append, ← itemNames,
    ← itemNames]

/-- Blanks and then a comment. -/
def HasNote (text : List Char) : Prop := ∃ blanks more, text = blanks ++ '#' :: more ∧ ∀ c ∈ blanks, gapChar c = true

theorem comma_not_mem_of_isBlank (h : ∀ c ∈ blanks, isBlank c = true) : ',' ∉ blanks :=
  fun hmem => absurd (h _ hmem) (by decide)

theorem itemNames_blanks_append (h : ∀ c ∈ blanks, isBlank c = true) (hrest : ¬ "as ".toList <+: rest.map flat) :
    itemNames (blanks ++ rest) = itemNames rest := by
  have hitem : itemName (blanks.map flat ++ upTo ',' (rest.map flat)) = itemName (upTo ',' (rest.map flat)) :=
    itemName_blanks_append (isBlank_map_flat h) fun hword => hrest (hword.trans (List.takeWhile_prefix _))
  have hnone : itemNames ([] ++ rest) = (itemName (upTo ',' (rest.map flat))).toList ++ namesBehindCommas rest :=
    itemNames_append_of_not_mem List.not_mem_nil rest
  rw [itemNames_append_of_not_mem (comma_not_mem_of_isBlank h), hitem, ← hnone, List.nil_append]

theorem itemNames_of_isBlank (h : ∀ c ∈ blanks, isBlank c = true) : itemNames blanks = [] := by
  have happend : itemNames (blanks ++ []) = itemNames [] := itemNames_blanks_append h (by decide)
  rw [List.append_nil] at happend
  exact happend

theorem namesBehindCommas_of_isBlank (h : ∀ c ∈ blanks, isBlank c = true) : namesBehindCommas blanks = [] := by
  rw [namesBehindCommas, fields_of_not_mem (not_mem_map_flat (by decide) (by decide) (comma_not_mem_of_isBlank h))]
  rfl

theorem exists_itemNames_of_hasNote {text : List Char} (h : HasNote text) :
    ∃ name more, itemNames text = name :: more ∧ '#' ∈ name.toList := by
  obtain ⟨blanks, rest, rfl, hgap⟩ := h
  have hblanks := isBlank_of_forall_gapChar hgap
  have hnot : ¬ "as ".toList <+: ('#' :: rest).map flat := fun hprefix =>
    absurd (List.cons_prefix_cons.mp hprefix).1 (by decide)
  have hbefore : beforeAs ("#".toList.map flat ++ upTo ',' (rest.map flat)) = [] ++ '#' :: beforeAs (upTo ',' (rest.map flat)) :=
    beforeAs_append (List.forall_mem_singleton.mpr (by decide))
  obtain ⟨name, hname, hmem⟩ := exists_itemName_of_note hbefore
  refine ⟨name, namesBehindCommas rest, ?_, hmem⟩
  rw [itemNames_blanks_append hblanks hnot]
  have happend : itemNames ("#".toList ++ rest) = _ := itemNames_append_of_not_mem (by decide) rest
  rw [hname] at happend
  exact happend

theorem itemNames_aliased (hname : IsImportWord name) (hother : IsImportWord other) (rest : List Char) :
    itemNames (name ++ (" as ".toList ++ other) ++ rest) = String.ofList name :: namesBehindCommas rest := by
  have hcomma : ',' ∉ name ++ (" as ".toList ++ other) :=
    List.not_mem_append (hname.not_mem (.inr (by simp)))
      (List.not_mem_append (by decide) (hother.not_mem (.inr (by simp))))
  have hflat : (name ++ (" as ".toList ++ other)).map flat = name ++ (" as ".toList ++ other) :=
    map_flat_of_not_mem (List.not_mem_append (hname.not_mem (.inl (by decide)))
      (List.not_mem_append (by decide) (hother.not_mem (.inl (by decide)))))
  rw [itemNames_append_of_not_mem hcomma, hflat, List.append_assoc, List.append_assoc, itemName_aliased hname]
  rfl

theorem itemNames_plain (hname : IsImportWord name) (hrest : ∀ c ∈ rest, isBlank c = true) :
    itemNames (name ++ rest) = [String.ofList name] := by
  have hnewline : '\n' ∉ name := hname.not_mem (.inl (by decide))
  have hitem : itemName (name.map flat ++ upTo ',' (rest.map flat)) = some (String.ofList name) := by
    rw [map_flat_of_not_mem hnewline]
    exact itemName_plain hname fun c hc => isBlank_map_flat hrest c (List.takeWhile_subset _ hc)
  rw [itemNames_append_of_not_mem (hname.not_mem (.inr (by simp))), hitem, namesBehindCommas_of_isBlank hrest]
  rfl

theorem exists_itemNames_plain_of_hasNote (hname : IsImportWord name) (hrest : HasNote rest) :
    ∃ found more, itemNames (name ++ rest) = found :: more ∧ '#' ∈ found.toList := by
  obtain ⟨blanks, more, rfl, hgap⟩ := hrest
  have hblanks := isBlank_of_forall_gapChar hgap
  have hnewline : '\n' ∉ name := hname.not_mem (.inl (by decide))
  have hcomma : ',' ∉ name ++ (blanks ++ ['#']) :=
    List.not_mem_append (hname.not_mem (.inr (by simp)))
      (List.not_mem_append (comma_not_mem_of_isBlank hblanks) (by decide))
  have hbefore : beforeAs ((name ++ (blanks ++ ['#'])).map flat ++ upTo ',' (more.map flat)) =
      (name ++ blanks.map flat) ++ '#' :: beforeAs (upTo ',' (more.map flat)) := by
    have hhash : [flat '#'] = "#".toList := by decide
    have hnot : ¬ "as ".toList <+: "#".toList ++ upTo ',' (more.map flat) := fun hprefix =>
      absurd (List.cons_prefix_cons.mp hprefix).1 (by decide)
    have hmark : beforeAs ("#".toList ++ upTo ',' (more.map flat)) = "#".toList ++ beforeAs (upTo ',' (more.map flat)) :=
      beforeAs_append (List.forall_mem_singleton.mpr (by decide))
    rw [List.map_append, List.map_append, map_flat_of_not_mem hnewline, List.map_singleton, hhash, List.append_assoc,
      List.append_assoc, hname.beforeAs_append, beforeAs_blanks_append (isBlank_map_flat hblanks) hnot, hmark,
      List.append_assoc]
    rfl
  obtain ⟨found, hfound, hmem⟩ := exists_itemName_of_note hbefore
  refine ⟨found, namesBehindCommas more, ?_, hmem⟩
  have happend := itemNames_append_of_not_mem hcomma more
  rw [hfound, List.append_assoc, List.append_assoc, List.singleton_append] at happend
  exact happend

theorem not_as_prefix (hname : IsImportWord name) (hne : name ≠ "as".toList) (hrest : ∀ c ∈ rest.head?, c ≠ 's') :
    ¬ "as ".toList <+: name ++ rest :=
  not_as_isPrefix hname.1 (hname.not_mem (.inl (by decide))) hne hrest

/-! ## Parts and lists -/

/-- No text behind a comma in what follows an aliased name names anything, and no comment stands elsewhere. -/
structure ImportedPart.IsClear (p : ImportedPart) (behind : List Char) : Prop where
  before_notes : p.before.notes = []
  plain_notes : p.entry.alias? = none → p.after.notes = []
  commas : namesBehindCommas behind = []

/-- Blanks where there are no comments, and else blanks up to a comment. -/
def CommentedGap.Leads (g : CommentedGap) (text : List Char) : Prop :=
  (g.notes = [] → ∀ c ∈ text, gapChar c = true) ∧ (g.notes ≠ [] → HasNote text)

theorem CommentedGap.IsProper.leads_text {g : CommentedGap} (hg : g.IsProper) : g.Leads g.text := by
  refine ⟨fun hnil => ?_, fun hne => ?_⟩
  · rw [text, hnil, List.flatMap_nil, List.append_nil]
    exact hg.start_isGap
  · obtain ⟨note, notes, hnotes⟩ := List.exists_cons_of_ne_nil hne
    rw [text, hnotes, List.flatMap_cons]
    exact ⟨g.start, _, rfl, hg.start_isGap⟩

theorem CommentedGap.Leads.trimEnd {g : CommentedGap} {text : List Char} (h : g.Leads text) :
    g.Leads (trimEndBy listEdge text) := by
  refine ⟨fun hnil c hc => h.1 hnil c ((List.rdropWhile_prefix listEdge text).subset hc), fun hne => ?_⟩
  obtain ⟨blanks, more, rfl, hblanks⟩ := h.2 hne
  obtain ⟨more', hmore'⟩ := trimEndBy_append_cons (p := listEdge) (c := '#') (by decide) blanks more
  exact ⟨blanks, more', hmore', hblanks⟩

/-- A word is followed by something else than a letter, within its part and where the part ends. -/
theorem head?_map_flat_ne {text : List Char} (h : ∀ c ∈ text.head?, isBlank c = true ∨ c = '#' ∨ c = ',') :
    ∀ c ∈ (text.map flat).head?, c ≠ 's' := by
  intro c hc
  cases text with
  | nil => cases hc
  | cons d text =>
    obtain rfl : flat d = c := Option.some.inj hc
    rw [Ne, flat_eq_iff (by decide) (by decide)]
    rintro rfl
    have hs := h 's' rfl
    revert hs
    decide

theorem CommentedGap.Leads.head? {g : CommentedGap} {text : List Char} (h : g.Leads text) :
    ∀ c ∈ text.head?, isBlank c = true ∨ c = '#' ∨ c = ',' := by
  intro c hc
  by_cases hnil : g.notes = []
  · exact .inl (isBlank_of_gapChar (h.1 hnil c (List.mem_of_mem_head? hc)))
  · obtain ⟨blanks, more, rfl, hblanks⟩ := h.2 hnil
    cases blanks with
    | nil => exact .inr (.inl (Option.some.inj hc).symm)
    | cons d blanks => exact .inl (isBlank_of_gapChar (hblanks c (Option.some.inj hc ▸ List.mem_cons_self)))

theorem ImportedName.IsProper.not_as_prefix {n : ImportedName} (hn : n.IsProper)
    (hrest : ∀ c ∈ rest.head?, isBlank c = true ∨ c = '#' ∨ c = ',') : ¬ "as ".toList <+: (n.text ++ rest).map flat := by
  have hnewline : '\n' ∉ n.name := hn.name_isWord.not_mem (.inl (by decide))
  rw [ImportedName.text]
  cases n.alias? with
  | none =>
    rw [List.map_append, map_flat_of_not_mem hnewline]
    exact CodeCensus.not_as_prefix hn.name_isWord hn.name_ne_as (head?_map_flat_ne hrest)
  | some other =>
    dsimp only
    rw [List.append_assoc, List.map_append, map_flat_of_not_mem hnewline]
    refine CodeCensus.not_as_prefix hn.name_isWord hn.name_ne_as (head?_map_flat_ne ?_)
    exact forall_mem_head? (.inl (by decide))

/-- A part is read as a name first, and as the name written, with no other, exactly if it is clear. -/
theorem ImportedPart.exists_itemNames {p : ImportedPart} (hbefore : p.before.IsProper) (hentry : p.entry.IsProper)
    {behind : List Char} (hbehind : p.after.Leads behind) :
    ∃ found more, itemNames (p.before.text ++ (p.entry.text ++ behind)) = found :: more ∧
      (found :: more = [String.ofList p.entry.name] ↔ p.IsClear behind) := by
  have hhash {found : String} {more : List String} (hmem : '#' ∈ found.toList) :
      found :: more ≠ [String.ofList p.entry.name] := by
    intro heq
    obtain ⟨rfl, -⟩ := List.cons.inj heq
    rw [String.toList_ofList] at hmem
    exact hentry.name_isWord.not_mem (.inr (by simp)) hmem
  by_cases hnotes : p.before.notes = []
  · have hblanks := isBlank_of_forall_gapChar (hbefore.leads_text.1 hnotes)
    rw [itemNames_blanks_append hblanks (hentry.not_as_prefix hbehind.head?), ImportedName.text]
    cases halias : p.entry.alias? with
    | some other =>
      refine ⟨_, _, itemNames_aliased hentry.name_isWord (hentry.alias_isWord other halias) behind, ?_⟩
      constructor
      · intro heq
        exact ⟨hnotes, (fun hnone => by rw [halias] at hnone; cases hnone), (List.cons.inj heq).2⟩
      · intro hclear
        rw [hclear.commas]
    | none =>
      by_cases hafter : p.after.notes = []
      · have hblank := isBlank_of_forall_gapChar (hbehind.1 hafter)
        refine ⟨_, _, itemNames_plain hentry.name_isWord hblank, iff_of_true rfl ?_⟩
        exact ⟨hnotes, fun _ => hafter, namesBehindCommas_of_isBlank hblank⟩
      · obtain ⟨found, more, hfound, hmem⟩ := exists_itemNames_plain_of_hasNote hentry.name_isWord (hbehind.2 hafter)
        exact ⟨found, more, hfound, iff_of_false (hhash hmem) fun hclear => hafter (hclear.plain_notes halias)⟩
  · obtain ⟨blanks, rest, htext, hblanks⟩ := hbefore.leads_text.2 hnotes
    have hnote : HasNote (p.before.text ++ (p.entry.text ++ behind)) :=
      ⟨blanks, rest ++ (p.entry.text ++ behind), by rw [htext, List.append_assoc, List.cons_append], hblanks⟩
    obtain ⟨found, more, hfound, hmem⟩ := exists_itemNames_of_hasNote hnote
    exact ⟨found, more, hfound, iff_of_false (hhash hmem) fun hclear => hnotes hclear.before_notes⟩

def ImportEnding.IsClear : ImportEnding → Prop
  | .comma gap => gap.notes = []
  | .name part => part.IsClear (trimEndBy listEdge part.after.text)

/-- Comments stand only behind aliased names, where no text behind a comma in them names anything. -/
def ImportList.IsClear (l : ImportList) : Prop := (∀ part ∈ l.parts, part.IsClear part.after.text) ∧ l.ending.IsClear

/-- The end of a list without what is left out behind it. -/
def ImportEnding.trimmed : ImportEnding → List Char
  | .comma gap => trimEndBy listEdge gap.text
  | .name part => part.before.text ++ (part.entry.text ++ trimEndBy listEdge part.after.text)

namespace ImportList

variable {parts : List ImportedPart} {part : ImportedPart} {ending : ImportEnding}

theorem isProper_cons (h : (ImportList.mk (part :: parts) ending).IsProper) :
    part.before.IsProper ∧ part.after.IsProper ∧ part.entry.IsProper ∧ (ImportList.mk parts ending).IsProper := by
  have hgaps : (ImportList.mk (part :: parts) ending).gaps =
      part.before :: part.after :: (ImportList.mk parts ending).gaps := rfl
  have hproper := h.gaps_areProper
  rw [hgaps, List.forall_mem_cons, List.forall_mem_cons] at hproper
  exact ⟨hproper.1, hproper.2.1, h.entries_areProper part List.mem_cons_self, hproper.2.2,
    fun q hq => h.entries_areProper q (List.mem_cons_of_mem _ hq)⟩

theorem itemNames_ending (h : (ImportList.mk [] ending).IsProper) :
    (ImportList.mk [] ending).names.length ≤ (itemNames ending.trimmed).length ∧
      (itemNames ending.trimmed = (ImportList.mk [] ending).names ↔ ending.IsClear) := by
  cases ending with
  | comma gap =>
    have hleads := (h.gaps_areProper gap (by simp [gaps, allParts, ImportEnding.parts, ImportEnding.gaps])).leads_text.trimEnd
    refine ⟨Nat.zero_le _, ?_⟩
    by_cases hnotes : gap.notes = []
    · exact iff_of_true (itemNames_of_isBlank (isBlank_of_forall_gapChar (hleads.1 hnotes))) hnotes
    · obtain ⟨found, more, hfound, -⟩ := exists_itemNames_of_hasNote (hleads.2 hnotes)
      refine iff_of_false (fun heq => ?_) hnotes
      have hfound : itemNames (ImportEnding.comma gap).trimmed = found :: more := hfound
      rw [heq] at hfound
      cases hfound
  | name part =>
    have hgaps : (ImportList.mk [] (.name part)).gaps = [part.before, part.after] := rfl
    have hproper := h.gaps_areProper
    rw [hgaps, List.forall_mem_cons, List.forall_mem_singleton] at hproper
    have hentry := h.entries_areProper part List.mem_cons_self
    obtain ⟨found, more, hfound, hiff⟩ := ImportedPart.exists_itemNames hproper.1 hentry hproper.2.leads_text.trimEnd
    have hfound : itemNames (ImportEnding.name part).trimmed = found :: more := hfound
    rw [hfound]
    exact ⟨Nat.succ_le_succ (Nat.zero_le _), hiff⟩

/-- What is read off a list is at least one name for each of its names, and it is the names exactly if it is clear. -/
theorem itemNames_trimmed (h : (ImportList.mk parts ending).IsProper) :
    (ImportList.mk parts ending).names.length ≤
        (itemNames ((parts.flatMap fun part => part.text ++ [',']) ++ ending.trimmed)).length ∧
      (itemNames ((parts.flatMap fun part => part.text ++ [',']) ++ ending.trimmed) = (ImportList.mk parts ending).names ↔
        (ImportList.mk parts ending).IsClear) := by
  induction parts with
  | nil =>
    obtain ⟨hle, hiff⟩ := itemNames_ending h
    refine ⟨hle, hiff.trans ?_⟩
    exact (and_iff_right (List.forall_mem_nil _)).symm
  | cons part parts ih =>
    obtain ⟨hbefore, hafter, hentry, hrest⟩ := isProper_cons h
    obtain ⟨hle, hiff⟩ := ih hrest
    obtain ⟨found, more, hfound, hpart⟩ := ImportedPart.exists_itemNames hbefore hentry hafter.leads_text
    have hfound : itemNames part.text = found :: more := hfound
    have hsplit : ((part :: parts).flatMap fun part => part.text ++ [',']) ++ ending.trimmed =
        part.text ++ ',' :: ((parts.flatMap fun part => part.text ++ [',']) ++ ending.trimmed) := by
      simp
    have hnames : (ImportList.mk (part :: parts) ending).names =
        String.ofList part.entry.name :: (ImportList.mk parts ending).names := rfl
    have hclear : (ImportList.mk (part :: parts) ending).IsClear ↔
        part.IsClear part.after.text ∧ (ImportList.mk parts ending).IsClear := by
      rw [IsClear, IsClear, List.forall_mem_cons, and_assoc]
    rw [hsplit, itemNames_append_comma, hfound, hnames, hclear, ← hpart, ← hiff]
    generalize itemNames ((parts.flatMap fun part => part.text ++ [',']) ++ ending.trimmed) = read at hle
    refine ⟨?_, ?_, ?_⟩
    · simp only [List.length_cons, List.cons_append, List.length_append]
      omega
    · -- each part is read as a name at least, so none is read as more than one
      intro heq
      rw [List.cons_append] at heq
      obtain ⟨rfl, hmore⟩ := List.cons.inj heq
      have hlength := congrArg List.length hmore
      rw [List.length_append] at hlength
      obtain rfl : more = [] := List.length_eq_zero_iff.mp (by omega)
      exact ⟨rfl, hmore⟩
    · rintro ⟨hone, hread⟩
      rw [hone, hread]
      rfl

end ImportList

/-! ### The ends of a list -/

/-- Blanks, and then an item whose first character is kept and that the word `as` does not open. -/
def StartsItem (text : List Char) : Prop :=
  ∃ blanks item, text = blanks ++ item ∧ (∀ c ∈ blanks, gapChar c = true) ∧ (∀ c ∈ item.head?, listEdge c = false) ∧
    ¬ "as ".toList <+: item.map flat

theorem listEdge_of_gapChar {c : Char} (h : gapChar c = true) : listEdge c = true := by
  have hmem : c = ' ' ∨ c = '\t' ∨ c = '\n' := by simpa [gapChar, among] using h
  rcases hmem with rfl | rfl | rfl <;> decide

/-- Blanks in front of a list are left out with what stands behind it, or with the first item. -/
theorem itemNames_trimBy {text : List Char} (h : StartsItem text) :
    itemNames (trimBy listEdge text) = itemNames (trimEndBy listEdge text) := by
  obtain ⟨blanks, item, rfl, hblanks, hitem, hnot⟩ := h
  have hedge : ∀ c ∈ blanks, listEdge c = true := fun c hc => listEdge_of_gapChar (hblanks c hc)
  rw [trimBy, List.dropWhile_append_of_pos hedge]
  cases item with
  | nil =>
    have hall : ∀ c ∈ trimEndBy listEdge (blanks ++ []), isBlank c = true := by
      rw [List.append_nil]
      exact fun c hc => isBlank_of_gapChar (hblanks c ((List.rdropWhile_prefix listEdge blanks).subset hc))
    rw [itemNames_of_isBlank hall]
    rfl
  | cons c rest =>
    have hc : listEdge c = false := hitem c rfl
    have hkept : trimEndBy listEdge ([c] ++ rest) = [c] ++ trimEndBy listEdge rest :=
      trimEndBy_append (by simpa using hc) rest
    have hkept' : trimEndBy listEdge (blanks ++ [c] ++ rest) = blanks ++ [c] ++ trimEndBy listEdge rest :=
      trimEndBy_append (by simpa using hc) rest
    have hshort : [c] ++ trimEndBy listEdge rest <+: [c] ++ rest :=
      (List.prefix_append_right_inj [c]).mpr (List.rdropWhile_prefix listEdge rest)
    rw [List.dropWhile_cons_of_neg (by simp [hc])]
    rw [List.append_assoc, List.append_assoc] at hkept'
    rw [List.singleton_append] at hkept hkept' hshort
    rw [hkept, hkept']
    exact (itemNames_blanks_append (isBlank_of_forall_gapChar hblanks)
      fun hword => hnot (hword.trans (hshort.map flat))).symm

theorem IsImportWord.listEdge (h : IsImportWord name) {c : Char} (hc : c ∈ name) : listEdge c = false := by
  by_contra hedge
  have hmem : c ∈ ['(', ')', '\n', '\\', ' ', '\t'] := List.contains_iff_mem.mp (Bool.not_eq_false _ ▸ hedge)
  simp only [List.mem_cons, List.not_mem_nil, or_false] at hmem
  refine h.not_mem ?_ hc
  rcases hmem with rfl | rfl | rfl | rfl | rfl | rfl <;> decide

namespace ImportedName.IsProper

variable {n : ImportedName}

theorem head?_text (hn : n.IsProper) (rest : List Char) : ∀ c ∈ (n.text ++ rest).head?, listEdge c = false := by
  have hname (more : List Char) : ∀ c ∈ (n.name ++ more).head?, listEdge c = false :=
    head?_append_of_forall hn.name_isWord.1 (fun c hc => hn.name_isWord.listEdge hc) more
  rw [ImportedName.text]
  cases n.alias? with
  | none => exact hname rest
  | some other =>
    dsimp only
    rw [List.append_assoc]
    exact hname _

theorem text_ne_nil (hn : n.IsProper) : n.text ≠ [] := by
  intro hnil
  rw [ImportedName.text] at hnil
  cases halias : n.alias? with
  | none =>
    rw [halias] at hnil
    exact hn.name_isWord.1 hnil
  | some other =>
    rw [halias] at hnil
    exact hn.name_isWord.1 (List.append_eq_nil_iff.mp hnil).1

theorem getLast?_text (hn : n.IsProper) : ∀ c ∈ n.text.getLast?, listEdge c = false := by
  intro c hc
  rw [ImportedName.text] at hc
  cases halias : n.alias? with
  | none =>
    rw [halias] at hc
    exact hn.name_isWord.listEdge (List.mem_of_getLast? hc)
  | some other =>
    have hother := hn.alias_isWord other halias
    rw [halias] at hc
    dsimp only at hc
    rw [← List.append_assoc, List.getLast?_append_of_ne_nil _ hother.1] at hc
    exact hother.listEdge (List.mem_of_getLast? hc)

end ImportedName.IsProper

theorem HasNote.startsItem_append {text : List Char} (h : HasNote text) (rest : List Char) : StartsItem (text ++ rest) := by
  obtain ⟨blanks, more, rfl, hblanks⟩ := h
  refine ⟨blanks, '#' :: (more ++ rest), by simp, hblanks, forall_mem_head? (by decide), fun hprefix => ?_⟩
  exact absurd (List.cons_prefix_cons.mp hprefix).1 (by decide)

theorem ImportedPart.startsItem {p : ImportedPart} (hbefore : p.before.IsProper) (hentry : p.entry.IsProper)
    (hafter : p.after.IsProper) (hrest : ∀ c ∈ rest.head?, c = ',') : StartsItem (p.text ++ rest) := by
  have hsplit : p.text ++ rest = p.before.text ++ (p.entry.text ++ (p.after.text ++ rest)) := by simp [ImportedPart.text]
  rw [hsplit]
  by_cases hnotes : p.before.notes = []
  · refine ⟨p.before.text, _, rfl, hbefore.leads_text.1 hnotes, hentry.head?_text _, hentry.not_as_prefix fun c hc => ?_⟩
    cases htext : p.after.text with
    | nil =>
      rw [htext] at hc
      exact .inr (.inr (hrest c hc))
    | cons d more =>
      rw [htext] at hc
      exact hafter.leads_text.head? c (by rwa [htext])
  · exact (hbefore.leads_text.2 hnotes).startsItem_append _

namespace ImportList

variable {l : ImportList}

theorem startsItem (hl : l.IsProper) : StartsItem l.text := by
  obtain ⟨parts, ending⟩ := l
  cases parts with
  | cons part parts =>
    obtain ⟨hbefore, hafter, hentry, -⟩ := isProper_cons hl
    have hsplit : (ImportList.mk (part :: parts) ending).text =
        part.text ++ (',' :: (ImportList.mk parts ending).text) := by
      simp [ImportList.text]
    rw [hsplit]
    exact ImportedPart.startsItem hbefore hentry hafter (forall_mem_head? rfl)
  | nil =>
    cases ending with
    | comma gap =>
      have hleads := (hl.gaps_areProper gap (by simp [gaps, ImportEnding.gaps])).leads_text
      by_cases hnotes : gap.notes = []
      · exact ⟨gap.text, [], (List.append_nil _).symm, hleads.1 hnotes, by simp, by decide⟩
      · have hstarts := (hleads.2 hnotes).startsItem_append []
        rwa [List.append_nil] at hstarts
    | name part =>
      have hproper := hl.gaps_areProper
      have hgaps : (ImportList.mk [] (.name part)).gaps = [part.before, part.after] := rfl
      rw [hgaps, List.forall_mem_cons, List.forall_mem_singleton] at hproper
      have hstarts : StartsItem (part.text ++ []) :=
        ImportedPart.startsItem hproper.1 (hl.entries_areProper part List.mem_cons_self) hproper.2 (by simp)
      rwa [List.append_nil] at hstarts

theorem getLast?_parts (parts : List ImportedPart) :
    ∀ c ∈ (parts.flatMap fun part => part.text ++ [',']).getLast?, listEdge c = false := by
  induction parts using List.reverseRecOn with
  | nil => simp
  | append_singleton parts part _ =>
    rw [List.flatMap_append, List.flatMap_singleton, ← List.append_assoc, List.getLast?_concat]
    rintro c ⟨⟩
    decide

theorem trimEndBy_text (hl : l.IsProper) :
    trimEndBy listEdge l.text = (l.parts.flatMap fun part => part.text ++ [',']) ++ l.ending.trimmed := by
  rw [text, trimEndBy_append (getLast?_parts l.parts)]
  congr 1
  cases hending : l.ending with
  | comma gap => rfl
  | name part =>
    have hentry := hl.entries_areProper part (by simp [allParts, hending, ImportEnding.parts])
    have hlast : ∀ c ∈ (part.before.text ++ part.entry.text).getLast?, listEdge c = false := by
      rw [List.getLast?_append_of_ne_nil _ hentry.text_ne_nil]
      exact hentry.getLast?_text
    rw [ImportEnding.text, ImportEnding.trimmed, ImportedPart.text, ← List.append_assoc, trimEndBy_append hlast,
      List.append_assoc]

theorem importedNames_text (hl : l.IsProper) :
    importedNames l.text = l.names ↔ l.IsClear := by
  rw [importedNames_eq, itemNames_trimBy (startsItem hl), trimEndBy_text hl]
  exact (itemNames_trimmed hl).2

theorem importedNames_enclosed (l : ImportList) :
    importedNames ('(' :: (l.text ++ [')'])) = importedNames l.text := by
  rw [importedNames_eq, importedNames_eq, ← List.singleton_append, trimBy_append_of_pos
    (List.forall_mem_singleton.mpr rfl) (List.forall_mem_singleton.mpr rfl)]

end ImportList

end CodeCensus
