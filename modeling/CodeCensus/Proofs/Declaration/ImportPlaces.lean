import CodeCensus.Proofs.Declaration.ImportHeads

/-! Where no statement begins. From the quotation mark of a module on, no word with blanks behind it begins. In front of it
each pattern is told from the statements of the other kinds by what comes last there: a clause ends with its own word, a
binding with a parenthesis behind an equals sign, and an import for its effects with the first word. -/

namespace CodeCensus

open Text Pattern Cursor Imports

variable {text rest back : List Char} {s : ImportStatement} {i k e : Nat}

/-! ## From the quotation mark on -/

/-- A text begins with a word of a statement and blanks, with spaces in front or none. -/
def BeginsStatement (text : List Char) : Prop := ∃ lead word gap rest, text = lead ++ (String.toList word ++ (gap ++ rest)) ∧
  (∀ c ∈ lead, among [' ', '\t'] c = true) ∧ word ∈ "import" :: requireWords ∧ IsBlanks1 gap

theorem beginsStatement_of_spans {p : Pattern} (hp : p ∈ [moduleImport, effectImport, requireBinding])
    (h : p.Spans text k e) : BeginsStatement (text.drop k) := by
  simp only [List.mem_cons, List.not_mem_nil, or_false] at hp
  rcases hp with rfl | rfl | rfl
  · obtain ⟨gap, middle, gap', q, rest, hdrop, hgap, -⟩ := drop_of_spans_moduleImport h
    exact ⟨[], "import", gap, _, hdrop, List.forall_mem_nil _, List.mem_cons_self, hgap⟩
  · obtain ⟨lead, gap, q, rest, hdrop, hlead, hgap, -⟩ := drop_of_spans_effectImport h
    exact ⟨lead, "import", gap, _, hdrop, hlead, List.mem_cons_self, hgap⟩
  · obtain ⟨word, hword, gap, rest, hdrop, hgap, -⟩ := drop_of_spans_requireBinding h
    exact ⟨[], word, gap, rest, hdrop, List.forall_mem_nil _, List.mem_cons_of_mem _ hword, hgap⟩

def ImportStatement.quoted (s : ImportStatement) : List Char :=
  s.quote :: (s.source ++ s.quote :: (s.head.closing ++ s.trail))

theorem isLower_of_mem_word {word : String} (hword : word ∈ "import" :: requireWords) :
    word.toList ≠ [] ∧ ∀ c ∈ word.toList, c.isLower = true := by
  simp only [requireWords, List.mem_cons, List.not_mem_nil, or_false] at hword
  rcases hword with rfl | rfl | rfl | rfl <;> exact ⟨by decide, List.all_eq_true.mp rfl⟩

theorem among_spaces {c : Char} (h : among [' ', '\t'] c = true) : isBlank c = true ∧ c ≠ '\n' ∧ c.isLower = false := by
  simp only [among, List.contains_eq_mem, List.mem_cons, List.not_mem_nil, or_false, decide_eq_true_eq] at h
  rcases h with rfl | rfl <;> decide

theorem BeginsStatement.head? (h : BeginsStatement text) : ∃ c ∈ text.head?, isBlank c = true ∨ c.isLower = true := by
  obtain ⟨lead, word, gap, rest, rfl, hlead, hword, -⟩ := h
  cases lead with
  | cons c lead => exact ⟨c, rfl, .inl (among_spaces (hlead c List.mem_cons_self)).1⟩
  | nil =>
    obtain ⟨hne, hletters⟩ := isLower_of_mem_word hword
    obtain ⟨c, more, hmore⟩ := List.exists_cons_of_ne_nil hne
    rw [hmore]
    exact ⟨c, rfl, .inr (hletters c (hmore ▸ List.mem_cons_self))⟩

theorem not_beginsStatement_quote {q : Char} (hq : quoteMark q = true) (rest : List Char) : ¬ BeginsStatement (q :: rest) := by
  intro h
  obtain ⟨c, hc, hclass⟩ := h.head?
  obtain rfl : q = c := Option.some.inj hc
  rw [quoteMark, among, List.contains_iff_mem] at hq
  simp only [List.mem_cons, List.not_mem_nil, or_false] at hq
  rcases hq with rfl | rfl <;> exact absurd hclass (by decide)

/-- No blank stands in the name of a module, so no word is followed by one there. -/
theorem not_beginsStatement_source {source : List Char} {q : Char} (hsource : ∀ c ∈ source, isBlank c = false ∧ quoteMark c = false)
    (hq : quoteMark q = true) (hne : source ≠ []) (rest : List Char) : ¬ BeginsStatement (source ++ q :: rest) := by
  rintro ⟨lead, word, gap, more, heq, hlead, hword, hgap⟩
  have hleadNil : lead = [] := by
    cases lead with
    | nil => rfl
    | cons c lead =>
      obtain ⟨d, source, rfl⟩ := List.exists_cons_of_ne_nil hne
      obtain rfl : d = c := (List.cons.inj heq).1
      have hblank := (among_spaces (hlead d List.mem_cons_self)).1
      rw [(hsource d List.mem_cons_self).1] at hblank
      cases hblank
  obtain ⟨g, gap, rfl⟩ := List.exists_cons_of_ne_nil hgap.1
  have hblank := hgap.2 g List.mem_cons_self
  rw [hleadNil, List.nil_append, List.cons_append] at heq
  have hsolid : ∀ c ∈ source, (isBlank c || quoteMark c) = false := fun c hc => by
    rw [(hsource c hc).1, (hsource c hc).2]
    rfl
  have hletters : ∀ c ∈ word.toList, (isBlank c || quoteMark c) = false := fun c hc => by
    have hlower := (isLower_of_mem_word hword).2 c hc
    have hletter : c.isAlpha = true := (Bool.or_eq_true ..).mpr (.inr hlower)
    have hquote : quoteMark c = false := not_quoteMark_of_wordOrDollar (by
      rw [wordOrDollar, isWord_of_nameStart (by rw [nameStart, hletter]; rfl)]
      rfl)
    rw [not_isBlank_of_isLower hlower, hquote]
    rfl
  have hmark : (isBlank q || quoteMark q) = true := by rw [hq, Bool.or_true]
  have hgapMark : (isBlank g || quoteMark g) = true := by rw [hblank, Bool.true_or]
  obtain ⟨-, rfl, -⟩ := append_cons_inj_of hsolid hletters hmark hgapMark heq
  rw [not_quoteMark_of_isBlank hblank] at hq
  cases hq

theorem not_beginsStatement_trail (hback : ∀ c ∈ back, isBlank c = true ∨ c = ';' ∨ c = ')') (hrest : ∀ c ∈ rest.head?, c = '\n') :
    ¬ BeginsStatement (back ++ rest) := by
  rintro ⟨lead, word, gap, more, heq, hlead, hword, -⟩
  obtain ⟨hne, hletters⟩ := isLower_of_mem_word hword
  obtain ⟨c, letters, hcons⟩ := List.exists_cons_of_ne_nil hne
  have hc : c.isLower = true := hletters c (hcons ▸ List.mem_cons_self)
  have hbackLower : ∀ x ∈ back, x.isLower = false := by
    intro x hx
    rcases hback x hx with hblank | rfl | rfl
    · exact Bool.eq_false_iff.mpr fun hlower => by simp [not_isBlank_of_isLower hlower] at hblank
    · decide
    · decide
  rw [hcons] at heq
  obtain ⟨between, hleadEq, hmore⟩ := exists_eq_append_of_forall hbackLower hc heq
  cases between with
  | nil =>
    obtain rfl : c = '\n' := hrest c (by rw [hmore]; rfl)
    exact absurd hc (by decide)
  | cons x between =>
    obtain rfl : x = '\n' := hrest x (by rw [hmore]; rfl)
    exact (among_spaces (hlead '\n' (by rw [hleadEq]; simp))).2.1 rfl

theorem closing_isBlank (hs : s.IsProper) : ∀ c ∈ s.head.closing ++ s.trail, isBlank c = true ∨ c = ';' ∨ c = ')' := by
  intro c hc
  rcases List.mem_append.mp hc with hc | hc
  · cases hhead : s.head with
    | module => simp [hhead, ImportHead.closing] at hc
    | effect => simp [hhead, ImportHead.closing] at hc
    | require word gap target before after inner closing =>
      have hproper := hs.head_isProper
      rw [hhead] at hproper
      rw [hhead, ImportHead.closing, List.mem_append] at hc
      rcases hc with hc | hc
      · exact .inl (hproper.2.2.2.2.2.2 c hc)
      · exact .inr (.inr (List.mem_singleton.mp hc))
  · exact (hs.trail_isBlank c hc).imp_right .inl

theorem not_beginsStatement_of_suffix (hs : s.IsProper) (hrest : ∀ c ∈ rest.head?, c = '\n') (h : back <:+ s.quoted) :
    ¬ BeginsStatement (back ++ rest) := by
  rcases List.suffix_cons_iff.mp h with rfl | h
  · exact not_beginsStatement_quote hs.quote_isMark _
  rcases suffix_append_iff.mp h with h | ⟨more, hmore, rfl⟩
  · rcases List.suffix_cons_iff.mp h with rfl | h
    · exact not_beginsStatement_quote hs.quote_isMark _
    · exact not_beginsStatement_trail (fun c hc => closing_isBlank hs c (h.mem hc)) hrest
  · rcases eq_or_ne more [] with rfl | hne
    · exact not_beginsStatement_quote hs.quote_isMark _
    · rw [List.append_assoc]
      exact not_beginsStatement_source (fun c hc => hs.source_isSolid c (hmore.mem hc)) hs.quote_isMark hne _

/-- No statement begins from the quotation mark of a module to the end of its line. -/
theorem not_spans_quoted {p : Pattern} (hp : p ∈ [moduleImport, effectImport, requireBinding]) (hs : s.IsProper)
    (hrest : ∀ c ∈ rest.head?, c = '\n') (h : text.drop i = s.quoted ++ rest) (hik : i ≤ k)
    (hk : k ≤ i + s.quoted.length) : ¬ p.Spans text k e := by
  intro hspans
  obtain ⟨l, rfl⟩ := Nat.exists_eq_add_of_le hik
  have hbegins := beginsStatement_of_spans hp hspans
  rw [← List.drop_drop, h, List.drop_append_of_le_length (by omega)] at hbegins
  exact not_beginsStatement_of_suffix hs hrest (List.drop_suffix l _) hbegins

/-! ## In front of the quotation mark -/

section Front

variable {part pre gap : List Char} {c : Char} {q : Char}

def ImportStatement.front (s : ImportStatement) : List Char := s.indent ++ s.head.text

theorem ImportStatement.text_eq (s : ImportStatement) : s.text = s.front ++ s.quoted := by
  rw [ImportStatement.text, ImportStatement.front, quoted, List.append_assoc]

/-- The last letter in front of a quotation mark, blanks aside. -/
def ImportHead.lastLetter : ImportHead → Char
  | .module .. => 'm'
  | .effect _ => 't'
  | .require .. => '('

theorem ImportHead.lastLetter_not_isBlank (h : ImportHead) : isBlank h.lastLetter = false := by
  cases h with
  | module => exact (by decide : isBlank 'm' = false)
  | effect => exact (by decide : isBlank 't' = false)
  | require => exact (by decide : isBlank '(' = false)

theorem getLast?_append_text {word : String} (front : List Char) (h : word.toList.getLast? = some c) :
    (front ++ word.toList).getLast? = some c := by
  have hne : word.toList ≠ [] := fun hnil => by simp [hnil] at h
  rw [List.getLast?_append_of_ne_nil _ hne, h]

theorem exists_front_eq (hs : s.IsProper) :
    ∃ solid gap, s.front = solid ++ gap ∧ IsBlanks gap ∧ solid.getLast? = some s.head.lastLetter := by
  have hproper := hs.head_isProper
  unfold ImportStatement.front
  cases hhead : s.head with
  | module gap clause ahead behind =>
    rw [hhead] at hproper
    refine ⟨(s.indent ++ ("import".toList ++ (gap ++ (clause.text ++ ahead)))) ++ "from".toList, behind, ?_,
      hproper.2.2.2.2, getLast?_append_text _ rfl⟩
    rw [ImportHead.text_module]
    simp only [List.append_assoc]
  | effect gap =>
    rw [hhead] at hproper
    refine ⟨s.indent ++ "import".toList, gap, ?_, hproper.2, getLast?_append_text _ rfl⟩
    rw [ImportHead.text_effect]
    simp only [List.append_assoc]
  | require word gap target before after inner closing =>
    rw [hhead] at hproper
    refine ⟨(s.indent ++ (word.toList ++ (gap ++ (target.text ++ (before ++ ("=".toList ++ after)))))) ++ "require(".toList,
      inner, ?_, hproper.2.2.2.2.2.1, getLast?_append_text _ rfl⟩
    rw [ImportHead.text_require]
    simp only [List.append_assoc]

theorem eq_lastLetter (hs : s.IsProper) (solid : List Char) (hgap : IsBlanks gap) (hlast : solid.getLast? = some c)
    (hc : isBlank c = false) (h : s.front = solid ++ gap) : c = s.head.lastLetter := by
  obtain ⟨solid', gap', hfront, hgap', hlast'⟩ := exists_front_eq hs
  have hsolid : ∀ x ∈ solid.getLast?, isBlank x = false := fun x hx => Option.some.inj (hlast.symm.trans hx) ▸ hc
  have hsolid' : ∀ x ∈ solid'.getLast?, isBlank x = false := fun x hx =>
    Option.some.inj (hlast'.symm.trans hx) ▸ s.head.lastLetter_not_isBlank
  obtain ⟨rfl, -⟩ := append_inj_of hgap hgap' hsolid hsolid' (h.symm.trans hfront)
  exact Option.some.inj (hlast.symm.trans hlast')

theorem not_spans_moduleImport_front (hs : s.IsProper) (hpart : ∀ c ∈ part, quoteMark c = false) (hq : quoteMark q = true)
    (hfront : s.front = pre ++ part) (hletter : s.head.lastLetter ≠ 'm') (h : text.drop k = part ++ q :: rest) :
    ¬ moduleImport.Spans text k e := by
  intro hspans
  obtain ⟨middle, behind, rfl, -, hbehind⟩ := eq_of_spans_moduleImport hpart hq h hspans
  refine hletter (eq_lastLetter hs ((pre ++ ("import".toList ++ middle)) ++ "from".toList) hbehind.2
    (getLast?_append_text _ (by decide)) (by decide) ?_).symm
  rw [hfront]
  simp only [List.append_assoc]

theorem not_spans_effectImport_front (hs : s.IsProper) (hpart : ∀ c ∈ part, quoteMark c = false) (hq : quoteMark q = true)
    (hfront : s.front = pre ++ part) (hletter : s.head.lastLetter ≠ 't') (h : text.drop k = part ++ q :: rest) :
    ¬ effectImport.Spans text k e := by
  intro hspans
  obtain ⟨lead, behind, rfl, hbehind⟩ := eq_of_spans_effectImport hpart hq h hspans
  refine hletter (eq_lastLetter hs ((pre ++ lead) ++ "import".toList) hbehind.2
    (getLast?_append_text _ (by decide)) (by decide) ?_).symm
  rw [hfront]
  simp only [List.append_assoc]

/-! ## Bindings in front of a quotation mark -/

/-- The characters of gaps and of words in front of a quotation mark. -/
theorem not_mem_of_isBlanks (hc : isBlank c = false) (hgap : IsBlanks gap) : c ∉ gap := fun hmem => by simp [hgap c hmem] at hc

theorem not_mem_indent (hs : s.IsProper) (hc : isBlank c = false) : c ∉ s.indent := fun hmem => by
  simp [(among_spaces (hs.indent_isSpace c hmem)).1] at hc

theorem IsIdentifier.mark_not_mem {name : List Char} (h : IsIdentifier name) (hc : c ∈ ['{', '}', '=']) : c ∉ name := by
  refine h.not_mem ?_
  simp only [List.mem_cons, List.not_mem_nil, or_false] at hc
  rcases hc with rfl | rfl | rfl <;> decide

theorem requireWord_last {word : String} (hword : word ∈ requireWords) :
    ∃ c ∈ word.toList.getLast?, c.isLower = true ∧ ¬ word.toList <:+ "import".toList ∧ '{' ∉ word.toList ∧ '=' ∉ word.toList := by
  simp only [requireWords, List.mem_cons, List.not_mem_nil, or_false] at hword
  rcases hword with rfl | rfl | rfl
  · exact ⟨'t', rfl, by decide⟩
  · exact ⟨'t', rfl, by decide⟩
  · exact ⟨'r', rfl, by decide⟩

theorem not_spans_requireBinding_effect (hs : s.IsProper) (hhead : s.head = .effect gap) (hq : quoteMark q = true)
    (hfront : s.front = pre ++ part) (h : text.drop k = part ++ q :: rest) : ¬ requireBinding.Spans text k e := by
  intro hspans
  have hproper := hs.head_isProper
  have hnone {c : Char} (hc : c ∈ ['{', '=']) : c ∉ s.front := by
    have hmark : isBlank c = false ∧ c ∉ "import".toList := by
      simp only [List.mem_cons, List.not_mem_nil, or_false] at hc
      rcases hc with rfl | rfl <;> decide
    rw [hhead] at hproper
    rw [ImportStatement.front, hhead, ImportHead.text_effect]
    exact List.not_mem_append (not_mem_indent hs hmark.1) (List.not_mem_append hmark.2 (not_mem_of_isBlanks hmark.1 hproper.2))
  cases partBinds_of_spans hq h hspans with
  | braced _ _ hpart => exact hnone (c := '{') (by decide) (by rw [hfront, hpart]; simp)
  | one _ _ _ _ hpart => exact hnone (c := '=') (by decide) (by rw [hfront, hpart]; simp)

/-- A word of a binding with blanks behind it is no import, and no comma. -/
theorem requireWord_ne {word : String} {lead solid behind : List Char} (hword : word ∈ requireWords) (hgap : IsBlanks gap)
    (hbehind : IsBlanks behind) (h : lead ++ (word.toList ++ gap) = solid ++ behind) :
    (∀ front, solid ≠ front ++ "import".toList) ∧ ∀ front, solid ≠ front ++ ",".toList := by
  obtain ⟨c, hlast, hlower, hsuffix, -⟩ := requireWord_last hword
  have hwordLast : ∀ x ∈ (lead ++ word.toList).getLast?, isBlank x = false := by
    intro x hx
    rw [getLast?_append_text lead hlast] at hx
    exact Option.some.inj hx ▸ not_isBlank_of_isLower hlower
  rw [← List.append_assoc] at h
  constructor
  · rintro front rfl
    have himport : ∀ x ∈ (front ++ "import".toList).getLast?, isBlank x = false := by
      intro x hx
      rw [getLast?_append_text front rfl] at hx
      exact Option.some.inj hx ▸ by decide
    obtain ⟨heq, -⟩ := append_inj_of hgap hbehind hwordLast himport h
    have hlong : word.toList.length ≤ "import".toList.length := by
      simp only [requireWords, List.mem_cons, List.not_mem_nil, or_false] at hword
      rcases hword with rfl | rfl | rfl <;> decide
    exact hsuffix (List.suffix_of_suffix_length_le ⟨lead, heq⟩ (List.suffix_append front _) hlong)
  · rintro front rfl
    have hcomma : ∀ x ∈ (front ++ ",".toList).getLast?, isBlank x = false := by
      intro x hx
      rw [getLast?_append_text front rfl] at hx
      exact Option.some.inj hx ▸ by decide
    obtain ⟨heq, -⟩ := append_inj_of hgap hbehind hwordLast hcomma h
    have hmark := congrArg List.getLast? heq
    rw [getLast?_append_text lead hlast, getLast?_append_text front rfl] at hmark
    obtain rfl := Option.some.inj hmark
    exact absurd hlower (by decide)

theorem not_spans_requireBinding_module {clause : ImportClause} {gap ahead behind : List Char} (hs : s.IsProper)
    (hhead : s.head = .module gap clause ahead behind) (hq : quoteMark q = true) (hfront : s.front = pre ++ part)
    (h : text.drop k = part ++ q :: rest) : ¬ requireBinding.Spans text k e := by
  intro hspans
  have hproper := hs.head_isProper
  rw [hhead] at hproper
  obtain ⟨hgap, hclause, hahead, hbehind⟩ := hproper
  have hfrontText : s.front = (s.indent ++ ("import".toList ++ gap)) ++ (clause.text ++ (ahead ++ ("from".toList ++ behind))) := by
    rw [ImportStatement.front, hhead, ImportHead.text_module]
    simp only [List.append_assoc]
  have haround {c : Char} (hc : c ∈ ['{', '=']) : c ∉ s.indent ++ ("import".toList ++ gap) ∧ c ∉ ahead ++ ("from".toList ++ behind) := by
    have hmark : isBlank c = false ∧ c ∉ "import".toList ∧ c ∉ "from".toList := by
      simp only [List.mem_cons, List.not_mem_nil, or_false] at hc
      rcases hc with rfl | rfl <;> decide
    exact ⟨List.not_mem_append (not_mem_indent hs hmark.1) (List.not_mem_append hmark.2.1 (not_mem_of_isBlanks hmark.1 hgap.2)),
      List.not_mem_append (not_mem_of_isBlanks hmark.1 hahead.2)
        (List.not_mem_append hmark.2.2 (not_mem_of_isBlanks hmark.1 hbehind.2))⟩
  cases partBinds_of_spans hq h hspans with
  | one _ _ _ _ hpart =>
    have hequals : '=' ∉ s.front := by
      rw [hfrontText]
      refine List.not_mem_append (haround (by decide)).1 (List.not_mem_append (fun hmem => ?_) (haround (by decide)).2)
      exact absurd (hclause.clauseChar '=' hmem) (by decide)
    exact hequals (by rw [hfront, hpart]; simp)
  | @braced word gap' between inside back hword hgap' hpart hmore hne hmem =>
    obtain ⟨hleft, hright⟩ := haround (c := '{') (by decide)
    rcases hclause.brace with hnone | ⟨lead, after, htext, hlead, hafter, hbefore⟩
    · have hbrace : '{' ∉ s.front := by
        rw [hfrontText]
        exact List.not_mem_append hleft (List.not_mem_append hnone hright)
      exact hbrace (by rw [hfront, hpart]; simp)
    · have heq : ((s.indent ++ ("import".toList ++ gap)) ++ lead) ++ '{' :: (after ++ (ahead ++ ("from".toList ++ behind))) =
          (pre ++ (word.toList ++ gap')) ++ '{' :: between := by
        rw [List.append_assoc pre, ← hpart, ← hfront, hfrontText, htext]
        simp only [List.append_assoc, List.cons_append]
      obtain ⟨hfronts, -⟩ := (List.append_cons_inj_of_notMem (List.not_mem_append hleft hlead)
        (List.not_mem_append hafter hright)).mp heq
      rcases hbefore with rfl | ⟨solid, blanks, rfl, hblanks⟩
      · rw [List.append_nil, ← List.append_assoc] at hfronts
        exact (requireWord_ne hword hgap'.2 hgap.2 hfronts.symm).1 s.indent rfl
      · rw [← List.append_assoc, ← List.append_assoc] at hfronts
        exact (requireWord_ne hword hgap'.2 hblanks hfronts.symm).2 _ rfl

theorem braces_of_not_isRead {list : BoundList} (h : ¬ RequireTarget.IsRead (.named list)) :
    RequireTarget.text (.named list) = "\x7b\x7d".toList := by
  have hempty : list.text .colon = [] := not_not.mp h
  rw [RequireTarget.text, hempty]
  rfl

theorem equals_not_mem_target {target : RequireTarget} (htarget : target.IsProper) (hread : ¬ target.IsRead) :
    '=' ∉ target.text := by
  cases target with
  | one name => exact IsIdentifier.mark_not_mem htarget (by decide)
  | named list =>
    rw [braces_of_not_isRead hread]
    decide

/-- Two texts that end with a name and blanks, and in which a character that is in no name stands before the name, have
the same name. -/
theorem name_eq {lead lead' name name' behind behind' : List Char} (hlead : ∀ c ∈ lead.getLast?, wordOrDollar c = false)
    (hlead' : ∀ c ∈ lead'.getLast?, wordOrDollar c = false) (hname : IsIdentifier name) (hname' : IsIdentifier name')
    (hbehind : IsBlanks behind) (hbehind' : IsBlanks behind')
    (h : lead ++ (name ++ behind) = lead' ++ (name' ++ behind')) : name = name' := by
  have hlast {lead name : List Char} (hname : IsIdentifier name) : ∀ c ∈ (lead ++ name).getLast?, isBlank c = false := by
    intro c hc
    rw [List.getLast?_append_of_ne_nil _ hname.ne_nil] at hc
    exact hname.isBlank (List.mem_of_mem_getLast? hc)
  rw [← List.append_assoc, ← List.append_assoc] at h
  obtain ⟨heq, -⟩ := append_inj_of hbehind hbehind' (hlast hname) (hlast hname') h
  exact (append_inj_of hname.wordOrDollar hname'.wordOrDollar hlead hlead' heq).2

theorem getLast?_append_blanks {lead : List Char} (hgap : IsBlanks1 gap) : ∀ c ∈ (lead ++ gap).getLast?, wordOrDollar c = false := by
  intro c hc
  rw [List.getLast?_append_of_ne_nil _ hgap.1] at hc
  exact not_wordOrDollar_of_isBlank (hgap.2 c (List.mem_of_mem_getLast? hc))

theorem IsScriptName.isIdentifier {name : List Char} (h : IsScriptName name) : IsIdentifier name :=
  ⟨h.ne_nil, fun _ hc => h.wordOrDollar hc⟩

/-- What stands where a name is read, between blanks and an equals sign, is read. -/
theorem RequireTarget.IsProper.isRead_of_eq {target : RequireTarget} {lead lead' gap' name before behind : List Char}
    (htarget : target.IsProper) (hgap : IsBlanks1 gap) (hgap' : IsBlanks1 gap') (hname : IsScriptName name)
    (hbefore : IsBlanks before) (hbehind : IsBlanks behind)
    (h : (lead ++ gap) ++ (target.text ++ before) = (lead' ++ gap') ++ (name ++ behind)) : target.IsRead := by
  cases target with
  | one own =>
    have hsame : own = name := name_eq (getLast?_append_blanks hgap) (getLast?_append_blanks hgap') htarget
      hname.isIdentifier hbefore hbehind h
    exact (IsIdentifier.isScriptName_iff htarget).mp (hsame ▸ hname)
  | named list =>
    by_contra hread
    rw [braces_of_not_isRead hread, ← List.append_assoc, ← List.append_assoc _ name] at h
    have hbraceLast : ∀ c ∈ (lead ++ gap ++ "\x7b\x7d".toList).getLast?, isBlank c = false := by
      intro c hc
      rw [getLast?_append_text _ rfl] at hc
      exact Option.some.inj hc ▸ by decide
    have hnameLast : ∀ c ∈ (lead' ++ gap' ++ name).getLast?, isBlank c = false := by
      intro c hc
      rw [List.getLast?_append_of_ne_nil _ hname.ne_nil] at hc
      exact hname.isIdentifier.isBlank (List.mem_of_mem_getLast? hc)
    -- a brace would be the last letter of a name
    obtain ⟨heq, -⟩ := append_inj_of hbefore hbehind hbraceLast hnameLast h
    have hlast := congrArg List.getLast? heq
    rw [getLast?_append_text _ rfl, List.getLast?_append_of_ne_nil _ hname.ne_nil] at hlast
    exact absurd (hname.wordOrDollar (List.mem_of_mem_getLast? hlast.symm)) (by decide)

section Unread

variable {word : String} {target : RequireTarget} {gap before after inner closing : List Char}

theorem front_require (hhead : s.head = .require word gap target before after inner closing) :
    s.front = (((s.indent ++ word.toList) ++ gap) ++ (target.text ++ before)) ++
      '=' :: (after ++ ("require(".toList ++ inner)) := by
  rw [ImportStatement.front, hhead, ImportHead.text_require]
  simp only [List.append_assoc]
  rfl

theorem mark_not_mem_lead (hs : s.IsProper) (hword : word ∈ requireWords) (hgap : IsBlanks gap) (hc : c ∈ ['{', '=']) :
    c ∉ (s.indent ++ word.toList) ++ gap := by
  obtain ⟨-, -, -, -, hbrace, hequals⟩ := requireWord_last hword
  simp only [List.mem_cons, List.not_mem_nil, or_false] at hc
  rcases hc with rfl | rfl
  · exact List.not_mem_append (List.not_mem_append (not_mem_indent hs (by decide)) hbrace)
      (not_mem_of_isBlanks (by decide) hgap)
  · exact List.not_mem_append (List.not_mem_append (not_mem_indent hs (by decide)) hequals)
      (not_mem_of_isBlanks (by decide) hgap)

theorem mark_not_mem_call (hafter : IsBlanks after) (hinner : IsBlanks inner) (hc : c ∈ ['{', '=']) :
    c ∉ after ++ ("require(".toList ++ inner) := by
  have hmark : isBlank c = false ∧ c ∉ "require(".toList := by
    simp only [List.mem_cons, List.not_mem_nil, or_false] at hc
    rcases hc with rfl | rfl <;> decide
  exact List.not_mem_append (not_mem_of_isBlanks hmark.1 hafter)
    (List.not_mem_append hmark.2 (not_mem_of_isBlanks hmark.1 hinner))

/-- A binding whose name or braces are not read is no match, wherever one might begin. -/
theorem not_spans_requireBinding_unread (hs : s.IsProper)
    (hhead : s.head = .require word gap target before after inner closing) (hread : ¬ target.IsRead)
    (hq : quoteMark q = true) (hfront : s.front = pre ++ part) (h : text.drop k = part ++ q :: rest) :
    ¬ requireBinding.Spans text k e := by
  intro hspans
  have hproper := hs.head_isProper
  rw [hhead] at hproper
  obtain ⟨hword, hgap, htarget, hbefore, hafter, hinner, -⟩ := hproper
  have hfrontText := front_require hhead
  cases partBinds_of_spans hq h hspans with
  | @one word' gap' name behind between _ hgap' hname hbehind hpart =>
    have heq : (((s.indent ++ word.toList) ++ gap) ++ (target.text ++ before)) ++ '=' :: (after ++ ("require(".toList ++ inner)) =
        ((pre ++ word'.toList) ++ gap' ++ (name ++ behind)) ++ '=' :: between := by
      rw [← hfrontText, hfront, hpart]
      simp only [List.append_assoc]
    have htargetEquals : '=' ∉ target.text ++ before :=
      List.not_mem_append (equals_not_mem_target htarget hread) (not_mem_of_isBlanks (by decide) hbefore)
    obtain ⟨hfronts, -⟩ := (List.append_cons_inj_of_notMem
      (List.not_mem_append (mark_not_mem_lead hs hword hgap.2 (by decide)) htargetEquals)
      (mark_not_mem_call hafter hinner (by decide))).mp heq
    exact hread (htarget.isRead_of_eq hgap hgap' hname hbefore hbehind hfronts)
  | @braced word' gap' between inside back _ _ hpart hmore hne hmem =>
    have hlead : '{' ∉ (s.indent ++ word.toList) ++ gap := mark_not_mem_lead hs hword hgap.2 (by decide)
    have hcall : '{' ∉ '=' :: (after ++ ("require(".toList ++ inner)) :=
      List.not_mem_cons_of_ne_of_not_mem (by decide) (mark_not_mem_call hafter hinner (by decide))
    have hbeforeBrace : '{' ∉ before := not_mem_of_isBlanks (by decide) hbefore
    cases target with
    | one own =>
      have hbrace : '{' ∉ s.front := by
        rw [hfrontText]
        exact List.not_mem_append (List.not_mem_append hlead
          (List.not_mem_append (IsIdentifier.mark_not_mem htarget (by decide)) hbeforeBrace)) hcall
      exact hbrace (by rw [hfront, hpart]; simp)
    | named list =>
      have heq : ((s.indent ++ word.toList) ++ gap) ++ '{' :: ('}' :: (before ++ '=' :: (after ++ ("require(".toList ++ inner)))) =
          (pre ++ (word'.toList ++ gap')) ++ '{' :: between := by
        rw [List.append_assoc pre, ← hpart, ← hfront, hfrontText, braces_of_not_isRead hread]
        simp only [List.append_assoc]
        rfl
      have hback : '{' ∉ '}' :: (before ++ '=' :: (after ++ ("require(".toList ++ inner))) :=
        List.not_mem_cons_of_ne_of_not_mem (by decide) (List.not_mem_append hbeforeBrace hcall)
      -- the braces hold nothing, but a match has a character between them
      obtain ⟨-, -, hbetween⟩ := (List.append_cons_inj_of_notMem hlead hback).mp heq
      obtain ⟨c, more, rfl⟩ := List.exists_cons_of_ne_nil hne
      rw [← hbetween, List.cons_append, List.cons_append] at hmore
      exact hmem ((List.cons.inj hmore).1 ▸ List.mem_cons_self)

end Unread

end Front

end CodeCensus
