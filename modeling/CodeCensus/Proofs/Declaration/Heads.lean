import CodeCensus.Proofs.Declaration.Names
import CodeCensus.Proofs.Declaration.Rows
import CodeCensus.Proofs.Pattern.Search

/-! Heads of definitions. A head that stands on a line of its own is matched where the line begins and up to its
colon, and what is read off the match is what the head was written from. No match begins anywhere else than at
the start of a line that opens a definition. -/

namespace CodeCensus

open Text Pattern Cursor

/-! ## Heads as written -/

/-- The head of a definition: its indentation, whether it is asynchronous, its name and parameters, and the result
that stands between an arrow and the colon, if any. -/
structure Head where
  indent : List Char
  isAsync : Bool
  name : List Char
  parameters : List (List Char)
  result : Option (List Char)

namespace Head

def marks (h : Head) : List Char := if h.isAsync then "async def".toList else "def".toList

def note (h : Head) : List Char :=
  match h.result with
  | none => []
  | some result => " ->".toList ++ result

def list (h : Head) : List Char := List.intercalate [',', ' '] h.parameters

def text (h : Head) : List Char :=
  h.indent ++ (h.marks ++ (' ' :: (h.name ++ ('(' :: (h.list ++ (')' :: (h.note ++ [':'])))))))

structure IsProper (h : Head) : Prop where
  indent_isSpace : ∀ c ∈ h.indent, among [' ', '\t'] c = true
  name_isName : IsName h.name
  parameters_areNames : ∀ p ∈ h.parameters, IsName p
  result_isPlain : ∀ r ∈ h.result, ':' ∉ r ∧ '\n' ∉ r ∧ trim r ≠ []

end Head

/-! ## The match of a head -/

variable {text tail : List Char} {i : Nat}

/-- The end of a head, blanks and a colon. -/
theorem takes_headEnd {after : List Char} (hafter : ∀ c ∈ after, isBlank c = true)
    (h : text.drop i = after ++ ':' :: tail) :
    Takes text (inOrder [blanks, ":"]) i (i + after.length + 1) [] := by
  have hblanks : Takes text blanks i (i + after.length) [] := takes_run h hafter (forall_mem_head? (by decide))
  have hcolon : Takes text ":" (i + after.length) (i + after.length + 1) [] := takes_text (drop_add_length h)
  exact hblanks.seq hcolon

/-- No end of a head is read from within a text that has no colon and that no blank ends. -/
theorem not_spans_headEnd {core rest : List Char} {l e : Nat} (hcore : ':' ∉ core)
    (hlast : ∀ c ∈ core.getLast?, isBlank c = false) (h : text.drop i = core ++ rest) (hil : i ≤ l)
    (hl : l < i + core.length) : ¬ (inOrder [blanks, ":"]).Spans text l e := by
  rintro ⟨m, ⟨hlm, hrun⟩, ⟨c, hc, hmark⟩, -⟩
  rcases Nat.lt_or_ge m (i + core.length) with hm | hm
  · obtain ⟨k, rfl⟩ := Nat.exists_eq_add_of_le (hil.trans hlm)
    rw [getElem?_of_drop h (by omega)] at hc
    obtain rfl : c = ':' := beq_iff_eq.mp hmark
    exact hcore (List.mem_of_getElem? hc)
  · obtain ⟨c, hc, hblank⟩ := hrun (i + (core.length - 1)) (by omega) (by omega)
    rw [getElem?_of_drop h (by omega), ← List.getLast?_eq_getElem?] at hc
    rw [hlast c hc] at hblank
    cases hblank

/-- What stands between an arrow and a colon, without a head's result. -/
theorem takes_noResult (h : text.drop i = ':' :: tail) :
    Takes text (inOrder [optional [blanks, "->", blanks, keep 4 [lazy1 (beyond [':'])]], blanks, ":"]) i (i + 1)
      [] := by
  have hnone : ∀ e, ¬ (inOrder [blanks, "->", blanks, keep 4 [lazy1 (beyond [':'])]]).Spans text i e :=
    not_spans_of_drop (by decide) h (by decide)
  exact (takes_opt_none hnone).seq (takes_headEnd (List.forall_mem_nil _) h)

theorem takes_result {result : List Char} (hcolon : ':' ∉ result) (hne : trim result ≠ [])
    (h : text.drop i = " ->".toList ++ (result ++ ':' :: tail)) :
    ∃ s : Stretch, s.text = trim result ∧
      Takes text (inOrder [optional [blanks, "->", blanks, keep 4 [lazy1 (beyond [':'])]], blanks, ":"]) i
        (i + 3 + result.length + 1) [(4, s)] := by
  obtain ⟨before, after, hresult, hbefore, hafter, hhead, hlast⟩ := exists_trim_eq result
  generalize trim result = core at hne hresult hhead hlast
  have hcore : ':' ∉ core := fun hmem => hcolon (by simp [hresult, hmem])
  have hspace : text.drop i = [' '] ++ ("->".toList ++ (result ++ ':' :: tail)) := h
  have harrow : text.drop (i + 1) = "->".toList ++ (result ++ ':' :: tail) := drop_succ_of_drop h
  have hstart : text.drop (i + 3) = before ++ (core ++ (after ++ ':' :: tail)) := by
    have hdrop : text.drop (i + 3) = result ++ ':' :: tail := drop_add_length harrow
    rw [hdrop, hresult, List.append_assoc, List.append_assoc]
  have hgroup : text.drop (i + 3 + before.length) = core ++ (after ++ ':' :: tail) := drop_add_length hstart
  have hend : text.drop (i + 3 + before.length + core.length) = after ++ ':' :: tail := drop_add_length hgroup
  have hlength : i + 3 + result.length + 1 = i + 3 + before.length + core.length + after.length + 1 := by
    rw [hresult, List.length_append, List.length_append]
    omega
  generalize hj : i + 3 + before.length = j at hgroup hend hlength
  have hpos : 0 < core.length := List.length_pos_of_ne_nil hne
  have hgroupRun : Throughout text (beyond [':']) j (j + core.length) := by
    refine throughout_of_drop hgroup fun c hc => ?_
    have hne : c ≠ ':' := fun heq => hcore (heq ▸ hc)
    simpa [beyond] using hne
  have hrest : Takes text (inOrder [blanks, ":"]) (j + core.length) (i + 3 + result.length + 1) [] := by
    rw [hlength]
    exact takes_headEnd hafter hend
  -- the group goes on to the end of the result, as the rest of the head can be read from nowhere before
  have hkeep : Takes text (.seq (keep 4 [lazy1 (beyond [':'])]) (inOrder [blanks, ":"])) j
      (i + 3 + result.length + 1) [(4, ⟨on text j, on text (j + core.length)⟩)] :=
    hrest.keep_lazy1_seq (by omega) hgroupRun fun l hjl hl _ =>
      not_spans_headEnd hcore hlast hgroup (Nat.le_of_lt hjl) hl
  have hspaceTaken : Takes text blanks i (i + 1) [] :=
    takes_run hspace (List.forall_mem_singleton.mpr rfl) (forall_mem_head? (by decide))
  have harrowTaken : Takes text "->" (i + 1) (i + 3) [] := takes_text harrow
  have hbeforeTaken : Takes text blanks (i + 3) j [] := by
    rw [← hj]
    refine takes_run hstart hbefore fun c hc => hhead c ?_
    rwa [List.head?_append_of_ne_nil _ hne] at hc
  refine ⟨_, text_stretch hgroup, Takes.opt_seq ?_⟩
  exact takes_seq_assoc.mpr (hspaceTaken.seq (takes_seq_assoc.mpr (harrowTaken.seq
    (takes_seq_assoc.mpr (hbeforeTaken.seq hkeep)))))

namespace Head

variable {h : Head}

theorem head?_marks (h : Head) {rest : List Char} : ∀ c ∈ (h.marks ++ rest).head?, c = 'a' ∨ c = 'd' := by
  intro c hc
  rw [marks] at hc
  split at hc
  · exact .inl (Option.some.inj hc).symm
  · exact .inr (Option.some.inj hc).symm

theorem takes_marks {rest : List Char} (hdrop : text.drop i = h.marks ++ rest) :
    ∃ j, Takes text (optional ["async", spaces1]) i j [] ∧ text.drop j = "def".toList ++ rest ∧
      j + 3 = i + h.marks.length := by
  rw [marks] at hdrop ⊢
  split at hdrop
  · rename_i hasync
    have hspace : text.drop (i + 5) = [' '] ++ ("def".toList ++ rest) := by
      rw [← List.drop_drop, hdrop]
      rfl
    have hword : Takes text "async" i (i + 5) [] := takes_text hdrop
    have hgap : Takes text spaces1 (i + 5) (i + 6) [] :=
      takes_some1 hspace (List.forall_mem_singleton.mpr rfl) (forall_mem_head? (by decide))
    exact ⟨i + 6, (hword.seq hgap).left, drop_add_length hspace, by rw [if_pos hasync]; rfl⟩
  · rename_i hplain
    have hnone : ∀ e, ¬ (inOrder ["async", spaces1]).Spans text i e :=
      not_spans_of_drop (by decide) hdrop (by decide)
    exact ⟨i, takes_opt_none hnone, hdrop, by rw [if_neg hplain]; rfl⟩

theorem takes_note (hproper : h.IsProper) (hdrop : text.drop i = h.note ++ ':' :: tail) :
    ∃ new, Takes text (inOrder [optional [blanks, "->", blanks, keep 4 [lazy1 (beyond [':'])]], blanks, ":"]) i
        (i + h.note.length + 1) new ∧
      (new.lookup 4).map Stretch.text = h.result.map trim ∧ ∀ entry ∈ new, entry.1 = 4 := by
  rw [note] at hdrop ⊢
  cases hresult : h.result with
  | none =>
    rw [hresult] at hdrop
    exact ⟨[], takes_noResult hdrop, rfl, by simp⟩
  | some result =>
    rw [hresult] at hdrop
    obtain ⟨hcolon, -, hne⟩ := hproper.result_isPlain result hresult
    dsimp only at hdrop
    rw [List.append_assoc] at hdrop
    obtain ⟨s, hs, htakes⟩ := takes_result hcolon hne hdrop
    refine ⟨[(4, s)], ?_, by simp [hs], by simp⟩
    have hlength : i + 3 + result.length + 1 = i + (" ->".toList ++ result).length + 1 := by
      rw [List.length_append, Nat.add_assoc i]
      rfl
    rwa [← hlength]

theorem not_mem_list (hproper : h.IsProper) {c : Char} (hword : isWord c = false) (hsep : c ∉ [',', ' ']) :
    c ∉ h.list := by
  intro hmem
  rcases mem_of_mem_intercalate hmem with hc | ⟨p, hp, hc⟩
  · exact hsep hc
  · exact (hproper.parameters_areNames p hp).not_mem hword hc

/-- A head on a line is matched up to its end, and its parts are what the groups hold. -/
theorem exists_finds (hproper : h.IsProper) (hstart : Edge.lineStart.holds (on text i) = true)
    (hdrop : text.drop i = h.text ++ tail) :
    ∃ m, Functions.pythonHead.Finds text m i (i + h.text.length) ∧ m.text? 1 = some h.indent ∧
      m.text? 2 = some h.name ∧
      (∃ a s, m.group? 2 = some ⟨on text a, s⟩ ∧ i ≤ a ∧ a ≤ i + h.text.length) ∧
      m.text? 3 = some h.list ∧ m.text? 4 = h.result.map trim := by
  have hindent : text.drop i = h.indent ++ (h.marks ++ (' ' :: (h.name ++ ('(' :: (h.list ++
      (')' :: (h.note ++ ':' :: tail))))))) := by
    simp [hdrop, Head.text]
  have hmarks := drop_add_length hindent
  obtain ⟨j, hasync, hword, hj⟩ := takes_marks hmarks
  have hspace : text.drop (j + 3) = [' '] ++ (h.name ++ ('(' :: (h.list ++ (')' :: (h.note ++ ':' :: tail))))) :=
    drop_add_length hword
  have hname : text.drop (j + 4) = h.name ++ ('(' :: (h.list ++ (')' :: (h.note ++ ':' :: tail)))) :=
    drop_add_length hspace
  have hlist := drop_add_length hname
  generalize hk : j + 4 + h.name.length = k at hlist
  have hinside : text.drop (k + 1) = h.list ++ ([')'] ++ (h.note ++ ':' :: tail)) :=
    drop_succ_of_drop hlist
  have hnote : text.drop (k + 1 + h.list.length + 1) = h.note ++ ':' :: tail :=
    drop_succ_of_drop (drop_add_length hinside)
  obtain ⟨new, hnoteTaken, hresult, hkeys⟩ := takes_note hproper hnote
  have hlength : k + 1 + h.list.length + 1 + h.note.length + 1 = i + h.text.length := by
    simp only [Head.text, List.length_append, List.length_cons, List.length_nil]
    omega
  rw [hlength] at hnoteTaken
  have hnameStart : ∀ c ∈ (h.name ++ ('(' :: (h.list ++ (')' :: (h.note ++ ':' :: tail))))).head?,
      isBlank c = false :=
    head?_append_of_forall (Spelled.ne_nil hproper.name_isName) (fun c => hproper.name_isName.isBlank) _
  have hlineTaken : Takes text lineStart i i [] := takes_edge hstart
  have hindentTaken : Takes text (keep 1 [spaces]) i (i + h.indent.length)
      [(1, ⟨on text i, on text (i + h.indent.length)⟩)] := by
    refine (takes_run hindent hproper.indent_isSpace fun c hc => ?_).group
    rcases head?_marks h c hc with rfl | rfl <;> decide
  have hdefTaken : Takes text "def" j (j + 3) [] := takes_text hword
  have hgapTaken : Takes text blanks1 (j + 3) (j + 4) [] :=
    takes_some1 hspace (List.forall_mem_singleton.mpr rfl) hnameStart
  have hnameTaken : Takes text (keep 2 [Pattern.name]) (j + 4) k [(2, ⟨on text (j + 4), on text k⟩)] := by
    rw [← hk]
    exact (takes_spelled hproper.name_isName hname (forall_mem_head? (by decide))).group
  have hnone : Takes text blanks k k [] := takes_run_nil hlist (forall_mem_head? (by decide))
  have hlistTaken : Takes text (Functions.parameterList 3) k (k + 1 + h.list.length + 1)
      [(3, ⟨on text (k + 1), on text (k + 1 + h.list.length)⟩)] :=
    takes_parameterList (not_mem_list hproper (by decide) (by decide)) hlist
  have hall := hlineTaken.seq (hindentTaken.seq (hasync.seq (hdefTaken.seq (hgapTaken.seq (hnameTaken.seq
    (hnone.seq (hlistTaken.seq hnoteTaken)))))))
  have hother (n : Nat) (hn : n ≠ 4) : new.lookup n = none :=
    List.lookup_eq_none_iff.mpr fun entry hentry => by simp [hkeys entry hentry, hn]
  refine ⟨_, hall.finds, ?_, ?_, ⟨j + 4, on text k, ?_, ?_, ?_⟩, ?_, ?_⟩
  · simp [Match.text?, Match.group?, List.lookup_append, List.lookup_cons, hother, text_stretch hindent]
  · simp [Match.text?, Match.group?, List.lookup_append, List.lookup_cons, hother, ← hk, text_stretch hname]
  · simp [Match.group?, List.lookup_append, List.lookup_cons, hother]
  · omega
  · omega
  · simp [Match.text?, Match.group?, List.lookup_append, hother, text_stretch hinside]
  · simp [Match.text?, Match.group?, List.lookup_append, List.lookup_cons, hresult]

end Head

/-! ## Lines that open a definition -/

/-- The words that a definition begins with. -/
def IsMark (mark : List Char) : Prop :=
  mark = "def".toList ∨
    ∃ gap, gap ≠ [] ∧ (∀ c ∈ gap, among [' ', '\t'] c = true) ∧ mark = "async".toList ++ gap ++ "def".toList

/-- After its indentation a line begins with the words of a definition, and nothing or a blank follows them. -/
def OpensDefinition (line : List Char) : Prop :=
  ∃ indent mark rest, line = indent ++ mark ++ rest ∧ (∀ c ∈ indent, among [' ', '\t'] c = true) ∧
    IsMark mark ∧ ∀ c ∈ rest.head?, isBlank c = true

variable {line : List Char}

/-- A run that stops at line feeds stays on its line. -/
theorem exists_append_of_throughout {c : Char → Bool} {j : Nat} (hdrop : text.drop i = line ++ tail)
    (htail : ∀ x ∈ tail.head?, x = '\n') (hc : c '\n' = false) (hij : i ≤ j) (hrun : Throughout text c i j) :
    ∃ front rest, line = front ++ rest ∧ (∀ x ∈ front, c x = true) ∧ front.length = j - i ∧
      text.drop j = rest ++ tail := by
  have hle : j ≤ i + line.length := not_throughout_of_drop hdrop (fun x hx => by rw [htail x hx, hc]) hrun
  refine ⟨line.take (j - i), line.drop (j - i), (List.take_append_drop _ _).symm, fun x hx => ?_,
    List.length_take_of_le (by omega), ?_⟩
  · obtain ⟨k, hk, rfl⟩ := List.mem_iff_getElem.mp hx
    rw [List.length_take_of_le (by omega)] at hk
    obtain ⟨x, hx, hcx⟩ := hrun (i + k) (by omega) (by omega)
    rw [getElem?_of_drop hdrop (by omega), List.getElem?_eq_getElem (by omega)] at hx
    rwa [List.getElem_take, Option.some.inj hx]
  · obtain ⟨l, rfl⟩ := Nat.exists_eq_add_of_le hij
    rw [← List.drop_drop, hdrop, Nat.add_sub_cancel_left, List.drop_append_of_le_length (by omega)]

theorem exists_append_of_spans_chars {cs : List Char} {j : Nat} (hdrop : text.drop i = line ++ tail)
    (htail : ∀ x ∈ tail.head?, x = '\n') (hcs : '\n' ∉ cs)
    (hspans : (inOrder (cs.map fun c => .one (· == c))).Spans text i j) :
    ∃ rest, line = cs ++ rest ∧ text.drop j = rest ++ tail := by
  induction cs generalizing i line with
  | nil =>
    obtain rfl : j = i := hspans
    exact ⟨line, rfl, hdrop⟩
  | cons c cs ih =>
    have hcons : (inOrder ([.one (· == c)] ++ cs.map fun c => .one (· == c))).Spans text i j := hspans
    obtain ⟨m, ⟨⟨x, hx, hxc⟩, rfl⟩, hrest⟩ := spans_inOrder_append.mp hcons
    obtain rfl : x = c := by simpa using hxc
    rw [← List.head?_drop, hdrop] at hx
    cases line with
    | nil => exact absurd (htail x hx ▸ List.mem_cons_self) hcs
    | cons y line =>
      obtain rfl : y = x := by simpa using hx
      have hcsRest : '\n' ∉ cs := fun hmem => hcs (List.mem_cons_of_mem y hmem)
      obtain ⟨rest, rfl, hdropRest⟩ := ih (drop_succ_of_drop hdrop) hcsRest hrest
      exact ⟨rest, rfl, hdropRest⟩

theorem exists_append_of_spans_text {s : String} {j : Nat} (hdrop : text.drop i = line ++ tail)
    (htail : ∀ x ∈ tail.head?, x = '\n') (hs : '\n' ∉ s.toList) (hspans : (Pattern.text s).Spans text i j) :
    ∃ rest, line = s.toList ++ rest ∧ text.drop j = rest ++ tail :=
  exists_append_of_spans_chars hdrop htail hs hspans

theorem exists_mark_of_spans {j e : Nat} (hdrop : text.drop i = line ++ tail)
    (htail : ∀ x ∈ tail.head?, x = '\n') (hasync : (optional ["async", spaces1]).Spans text i j)
    (hdef : (Pattern.text "def").Spans text j e) :
    ∃ mark rest, line = mark ++ rest ∧ IsMark mark ∧ text.drop e = rest ++ tail := by
  rcases hasync with ⟨m, hword, hgap⟩ | hnone
  · obtain ⟨rest, rfl, hrest⟩ := exists_append_of_spans_text hdrop htail (by decide) hword
    have hmj : m < j := hgap.lt (by decide)
    have hrun : Throughout text (among [' ', '\t']) m j := by
      have hwithin : spaces1.Within (among [' ', '\t']) := ⟨fun _ hc => hc, fun _ hc => hc⟩
      exact hwithin.throughout hgap
    obtain ⟨gap, rest', rfl, hgapBlank, hlength, hrest'⟩ :=
      exists_append_of_throughout hrest htail (by decide) (Nat.le_of_lt hmj) hrun
    obtain ⟨rest, rfl, hend⟩ := exists_append_of_spans_text hrest' htail (by decide) hdef
    have hne : gap ≠ [] := List.ne_nil_of_length_pos (by omega)
    exact ⟨_, rest, by simp, .inr ⟨gap, hne, hgapBlank, rfl⟩, hend⟩
  · obtain rfl : j = i := hnone
    obtain ⟨rest, rfl, hend⟩ := exists_append_of_spans_text hdrop htail (by decide) hdef
    exact ⟨_, rest, rfl, .inl rfl, hend⟩

theorem OpensDefinition.of_spans {e : Nat} (hdrop : text.drop i = line ++ tail)
    (htail : ∀ x ∈ tail.head?, x = '\n') (hspans : Functions.pythonHead.Spans text i e) : OpensDefinition line := by
  obtain ⟨_, ⟨-, rfl⟩, a, ⟨hia, hrun⟩, b, hasync, d, hdef, _, ⟨_, ⟨⟨c, hc, hblank⟩, -⟩, -⟩, -⟩ := hspans
  obtain ⟨indent, rest, rfl, hindent, -, hrest⟩ := exists_append_of_throughout hdrop htail (by decide) hia hrun
  obtain ⟨mark, rest, rfl, hmark, hend⟩ := exists_mark_of_spans hrest htail hasync hdef
  refine ⟨indent, mark, rest, (List.append_assoc ..).symm, hindent, hmark, fun x hx => ?_⟩
  rw [← List.head?_drop, hend, List.head?_append, Option.mem_def.mp hx] at hc
  obtain rfl : x = c := Option.some.inj hc
  exact hblank

variable {above below : List (List Char)} {k e : Nat}

theorem not_spans_inside (h : lines text = above ++ line :: below) (hlt : (unlines above).length < k)
    (hle : k ≤ (unlines above).length + line.length) : ¬ Functions.pythonHead.Spans text k e := by
  rintro ⟨_, ⟨hstart, rfl⟩, -⟩
  rw [not_lineStart_row h hlt hle] at hstart
  cases hstart

/-- No match of a head begins on a line that opens no definition. -/
theorem not_spans_of_not_opensDefinition (h : lines text = above ++ line :: below) (hopens : ¬ OpensDefinition line)
    (hk : (unlines above).length ≤ k) (hle : k ≤ (unlines above).length + line.length) :
    ¬ Functions.pythonHead.Spans text k e := by
  intro hspans
  rcases Nat.eq_or_lt_of_le hk with rfl | hlt
  · obtain ⟨tail, htext, htail⟩ := exists_text_eq_of_lines h
    have hdrop : text.drop (unlines above).length = line ++ tail := by rw [htext, List.drop_left]
    exact hopens (.of_spans hdrop htail hspans)
  · exact not_spans_inside h hlt hle hspans

theorem not_opensDefinition_of_isBlank (h : ∀ c ∈ line, isBlank c = true) : ¬ OpensDefinition line := by
  rintro ⟨indent, mark, rest, rfl, -, hmark, -⟩
  have hmem : 'd' ∈ mark := by
    rcases hmark with rfl | ⟨gap, -, -, rfl⟩ <;> simp
  have hblank := h 'd' (by simp [hmem])
  exact absurd hblank (by decide)

end CodeCensus
