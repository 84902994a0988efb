import CodeCensus.Proofs.Declaration.ImportClauses
import CodeCensus.Proofs.Text.Cutting

/-! Statements that import a module, as they are written, and what the three patterns for them need: each begins with
a word and blanks, and reaches to a quotation mark or to an equals sign. -/

namespace CodeCensus

open Text Pattern Cursor Imports

/-! ## Statements as written -/

inductive RequireTarget where
  | one (name : List Char)
  | named (list : BoundList)

/-- What stands in front of the quoted name of a module. -/
inductive ImportHead where
  | module (gap : List Char) (clause : ImportClause) (ahead behind : List Char)
  | effect (gap : List Char)
  | require (word : String) (gap : List Char) (target : RequireTarget) (before after inner closing : List Char)

structure ImportStatement where
  indent : List Char
  head : ImportHead
  quote : Char
  source : List Char
  trail : List Char

def RequireTarget.text : RequireTarget → List Char
  | .one name => name
  | .named list => "\x7b".toList ++ (list.text .colon ++ "\x7d".toList)

def RequireTarget.names : RequireTarget → List String
  | .one name => [String.ofList name]
  | .named list => list.names

def ImportHead.text : ImportHead → List Char
  | .module gap clause ahead behind => "import".toList ++ (gap ++ (clause.text ++ (ahead ++ ("from".toList ++ behind))))
  | .effect gap => "import".toList ++ gap
  | .require word gap target before after inner _ =>
    word.toList ++ (gap ++ (target.text ++ (before ++ ("=".toList ++ (after ++ ("require(".toList ++ inner))))))

theorem ImportHead.text_module (gap : List Char) (clause : ImportClause) (ahead behind : List Char) :
    ImportHead.text (.module gap clause ahead behind) =
      "import".toList ++ (gap ++ (clause.text ++ (ahead ++ ("from".toList ++ behind)))) := rfl

theorem ImportHead.text_effect (gap : List Char) : ImportHead.text (.effect gap) = "import".toList ++ gap := rfl

theorem ImportHead.text_require (word : String) (gap : List Char) (target : RequireTarget)
    (before after inner closing : List Char) :
    ImportHead.text (.require word gap target before after inner closing) =
      word.toList ++ (gap ++ (target.text ++ (before ++ ("=".toList ++ (after ++ ("require(".toList ++ inner)))))) := rfl

/-- What stands behind the quoted name of a module. -/
def ImportHead.closing : ImportHead → List Char
  | .module .. | .effect _ => []
  | .require _ _ _ _ _ _ closing => closing ++ ")".toList

def ImportStatement.text (s : ImportStatement) : List Char :=
  s.indent ++ (s.head.text ++ (s.quote :: (s.source ++ s.quote :: (s.head.closing ++ s.trail))))

/-- The names that a statement binds: a default, the whole module, those between braces. -/
def ImportHead.names : ImportHead → List String
  | .module _ clause _ _ => clause.names
  | .effect _ => []
  | .require _ _ target _ _ _ _ => target.names

/-- What a statement imports, at a line. -/
def ImportStatement.import (s : ImportStatement) (line : Nat) : Import := ⟨String.ofList s.source, s.head.names, line⟩

def requireWords : List String := ["const", "let", "var"]

def quoteMark : Char → Bool := among ['\'', '"']

def RequireTarget.IsProper : RequireTarget → Prop
  | .one name => IsIdentifier name
  | .named list => list.IsProper .colon

/-- A name that begins with a letter of the alphabet, an underscore or a dollar sign, or braces that are not empty. -/
def RequireTarget.IsRead : RequireTarget → Prop
  | .one name => name.head?.any nameStartOrDollar = true
  | .named list => list.text .colon ≠ []

instance (target : RequireTarget) : Decidable target.IsRead :=
  match target with
  | .one name => inferInstanceAs (Decidable (name.head?.any nameStartOrDollar = true))
  | .named list => inferInstanceAs (Decidable (list.text .colon ≠ []))

theorem IsIdentifier.isScriptName_iff {name : List Char} (h : IsIdentifier name) :
    IsScriptName name ↔ name.head?.any nameStartOrDollar = true := by
  constructor
  · rintro ⟨first, more, rfl, hfirst, -⟩
    exact hfirst
  · intro hfirst
    obtain ⟨first, more, rfl⟩ := List.exists_cons_of_ne_nil h.ne_nil
    exact ⟨first, more, rfl, hfirst, fun c hc => h.wordOrDollar c (List.mem_cons_of_mem first hc)⟩

def ImportHead.IsProper : ImportHead → Prop
  | .module gap clause ahead behind => IsBlanks1 gap ∧ clause.IsProper ∧ IsBlanks1 ahead ∧ IsBlanks1 behind
  | .effect gap => IsBlanks1 gap
  | .require word gap target before after inner closing =>
    word ∈ requireWords ∧ IsBlanks1 gap ∧ target.IsProper ∧ IsBlanks before ∧ IsBlanks after ∧ IsBlanks inner ∧
      IsBlanks closing

structure ImportStatement.IsProper (s : ImportStatement) : Prop where
  indent_isSpace : ∀ c ∈ s.indent, among [' ', '\t'] c = true
  head_isProper : s.head.IsProper
  quote_isMark : quoteMark s.quote = true
  source_ne_nil : s.source ≠ []
  source_isSolid : ∀ c ∈ s.source, isBlank c = false ∧ quoteMark c = false
  trail_isBlank : ∀ c ∈ s.trail, isBlank c = true ∨ c = ';'

/-! ## What the patterns need -/

variable {text rest : List Char} {k e n : Nat}

def sourceEnd : Pattern := inOrder [blanks1, "from", blanks1, quoted 2]

def clauseEnd : Pattern := .seq (keep 1 [lazy1 clauseChar]) sourceEnd

theorem exists_quote_of_spans_quoted (h : (quoted n).Spans text k e) :
    ∃ q rest, text.drop k = q :: rest ∧ quoteMark q = true := by
  obtain ⟨m, ⟨⟨q, hq, hmark⟩, rfl⟩, -⟩ := h
  exact ⟨q, _, drop_of_getElem? hq, hmark⟩

theorem drop_of_spans_sourceEnd (h : sourceEnd.Spans text k e) : ∃ gap gap' q rest,
    text.drop k = gap ++ ("from".toList ++ (gap' ++ q :: rest)) ∧ IsBlanks1 gap ∧ IsBlanks1 gap' ∧ quoteMark q = true := by
  obtain ⟨a, hgap, b, hfrom, c, hgap', hquoted⟩ := h
  obtain ⟨gap, hdrop, -, hblanks⟩ := exists_gap_of_spans_blanks1 hgap
  obtain ⟨gap', hdrop', -, hblanks'⟩ := exists_gap_of_spans_blanks1 hgap'
  obtain ⟨q, rest, hrest, hq⟩ := exists_quote_of_spans_quoted hquoted
  exact ⟨gap, gap', q, rest, by rw [hdrop, drop_of_spans_text hfrom, hdrop', hrest], hblanks, hblanks', hq⟩

theorem drop_of_spans_clauseEnd (h : clauseEnd.Spans text k e) : ∃ middle gap' q rest,
    text.drop k = middle ++ ("from".toList ++ (gap' ++ q :: rest)) ∧ 2 ≤ middle.length ∧
      (∀ c ∈ middle, clauseChar c = true) ∧ IsBlanks1 gap' ∧ quoteMark q = true := by
  obtain ⟨a, hclause, hend⟩ := h
  have hsome : (some1 clauseChar).Spans text k a := hclause
  obtain ⟨clause, hdrop, -, hne, hchars⟩ := exists_append_of_spans_some1 hsome
  obtain ⟨gap, gap', q, rest, hrest, hgap, hgap', hq⟩ := drop_of_spans_sourceEnd hend
  refine ⟨clause ++ gap, gap', q, rest, by rw [hdrop, hrest, List.append_assoc], ?_, fun c hc => ?_, hgap', hq⟩
  · have hpos := List.length_pos_of_ne_nil hne
    have hpos' := List.length_pos_of_ne_nil hgap.1
    rw [List.length_append]
    omega
  · rcases List.mem_append.mp hc with hc | hc
    · exact hchars c hc
    · simp [clauseChar, hgap.2 c hc]

theorem drop_of_spans_moduleImport (h : moduleImport.Spans text k e) : ∃ gap middle gap' q rest,
    text.drop k = "import".toList ++ (gap ++ (middle ++ ("from".toList ++ (gap' ++ q :: rest)))) ∧ IsBlanks1 gap ∧
      (∀ c ∈ middle, clauseChar c = true) ∧ IsBlanks1 gap' ∧ quoteMark q = true := by
  obtain ⟨a, ⟨-, rfl⟩, b, himport, c, hgap, d, htype, hend⟩ := h
  obtain ⟨gap, hdrop, -, hblanks⟩ := exists_gap_of_spans_blanks1 hgap
  have hclause : clauseEnd.Spans text d e := hend
  obtain ⟨middle, gap', q, rest, hrest, -, hchars, hgap', hq⟩ := drop_of_spans_clauseEnd hclause
  have hfront : ∃ front, text.drop c = front ++ text.drop d ∧ ∀ x ∈ front, clauseChar x = true := by
    rcases htype with ⟨m, hword, htypeGap⟩ | rfl
    · obtain ⟨typeGap, hdrop', -, hblanks'⟩ := exists_gap_of_spans_blanks1 htypeGap
      refine ⟨"type".toList ++ typeGap, by rw [drop_of_spans_text hword, hdrop', List.append_assoc], fun x hx => ?_⟩
      rcases List.mem_append.mp hx with hx | hx
      · exact List.all_eq_true.mp (by decide : "type".toList.all clauseChar = true) x hx
      · simp [clauseChar, hblanks'.2 x hx]
    · exact ⟨[], rfl, List.forall_mem_nil _⟩
  obtain ⟨front, hfrontDrop, hfrontChars⟩ := hfront
  refine ⟨gap, front ++ middle, gap', q, rest, ?_, hblanks, List.forall_mem_append.mpr ⟨hfrontChars, hchars⟩, hgap', hq⟩
  rw [drop_of_spans_text himport, hdrop, hfrontDrop, hrest, List.append_assoc]

theorem drop_of_spans_effectImport (h : effectImport.Spans text k e) : ∃ lead gap q rest,
    text.drop k = lead ++ ("import".toList ++ (gap ++ q :: rest)) ∧ (∀ c ∈ lead, among [' ', '\t'] c = true) ∧
      IsBlanks1 gap ∧ quoteMark q = true := by
  obtain ⟨a, ⟨-, rfl⟩, b, hspaces, c, himport, d, hgap, hquoted⟩ := h
  obtain ⟨lead, hlead, -, hleadChars⟩ := exists_append_of_spans_run hspaces
  obtain ⟨gap, hdrop, -, hblanks⟩ := exists_gap_of_spans_blanks1 hgap
  obtain ⟨q, rest, hrest, hq⟩ := exists_quote_of_spans_quoted hquoted
  exact ⟨lead, gap, q, rest, by rw [hlead, drop_of_spans_text himport, hdrop, hrest], hleadChars, hblanks, hq⟩

/-- What a match of a binding goes on with behind its first word: names between braces, or one name and an equals sign. -/
inductive BindsOn : List Char → Prop
  | braced {inside back : List Char} (ne_nil : inside ≠ []) (not_mem : '}' ∉ inside) :
    BindsOn ("\x7b".toList ++ (inside ++ '}' :: back))
  | one {name gap back : List Char} (name_isName : IsScriptName name) (gap_isBlanks : IsBlanks gap) :
    BindsOn (name ++ (gap ++ '=' :: back))

theorem drop_of_spans_requireBinding (h : requireBinding.Spans text k e) : ∃ word ∈ requireWords, ∃ gap rest,
    text.drop k = word.toList ++ (gap ++ rest) ∧ IsBlanks1 gap ∧ BindsOn rest := by
  obtain ⟨a, ⟨-, rfl⟩, b, hword, c, hgap, d, htarget, f, hbefore, g, hequals, -⟩ := h
  obtain ⟨word, hmem, hword⟩ := spans_oneWord hword
  obtain ⟨gap, hdrop, -, hblanks⟩ := exists_gap_of_spans_blanks1 hgap
  refine ⟨word, hmem, gap, text.drop c, by rw [drop_of_spans_text hword, hdrop], hblanks, ?_⟩
  rcases htarget with ⟨m, hopen, l, hinside, hclose⟩ | ⟨m, ⟨⟨first, hfirst, hstart⟩, rfl⟩, hrun⟩
  · have hsome : (some1 (beyond ['}'])).Spans text m l := hinside
    obtain ⟨inside, hinsideDrop, -, hne, hchars⟩ := exists_append_of_spans_some1 hsome
    have hcloseDrop : text.drop l = '}' :: text.drop d := drop_of_spans_text hclose
    have hbrace : '}' ∉ inside := fun hmem => absurd (hchars '}' hmem) (by decide)
    rw [drop_of_spans_text hopen, hinsideDrop, hcloseDrop]
    exact .braced hne hbrace
  · obtain ⟨more, hmore, -, hmoreChars⟩ := exists_append_of_spans_run hrun
    obtain ⟨gap', hgap', -, hblanks'⟩ := exists_append_of_spans_run hbefore
    have hequalsDrop : text.drop f = '=' :: text.drop g := drop_of_spans_text hequals
    have hname : IsScriptName (first :: more) := ⟨first, more, rfl, hstart, hmoreChars⟩
    have hsplit : text.drop c = (first :: more) ++ (gap' ++ '=' :: text.drop g) := by
      rw [drop_of_getElem? hfirst, hmore, hgap', hequalsDrop, List.cons_append]
    rw [hsplit]
    exact .one hname hblanks'

/-! ## In front of a quotation mark -/

section Part

variable {part : List Char} {q : Char}

theorem not_quoteMark_of_isBlank {c : Char} (h : isBlank c = true) : quoteMark c = false := by
  have hne : c ≠ '\'' ∧ c ≠ '"' := ⟨ne_of_isBlank h (by decide), ne_of_isBlank h (by decide)⟩
  simpa [quoteMark, among] using hne

theorem not_isBlank_of_quoteMark {c : Char} (h : quoteMark c = true) : isBlank c = false :=
  Bool.eq_false_iff.mpr fun hblank => by simp [not_quoteMark_of_isBlank hblank] at h

theorem not_quoteMark_of_wordOrDollar {c : Char} (h : wordOrDollar c = true) : quoteMark c = false := by
  have hne : c ≠ '\'' ∧ c ≠ '"' := by
    constructor <;> rintro rfl <;> exact absurd h (by decide)
  simpa [quoteMark, among] using hne

theorem not_quoteMark_of_clauseChar {c : Char} (h : clauseChar c = true) : quoteMark c = false := by
  have hne : c ≠ '\'' ∧ c ≠ '"' := by
    constructor <;> rintro rfl <;> exact absurd h (by decide)
  simpa [quoteMark, among] using hne

theorem not_quoteMark_of_isBlanks {gap : List Char} (h : IsBlanks gap) : ∀ c ∈ gap, quoteMark c = false :=
  fun c hc => not_quoteMark_of_isBlank (h c hc)

theorem not_quoteMark_of_requireWord {word : String} (h : word ∈ requireWords) : ∀ c ∈ word.toList, quoteMark c = false := by
  simp only [requireWords, List.mem_cons, List.not_mem_nil, or_false] at h
  rcases h with rfl | rfl | rfl <;> exact forall_of_any_eq_false rfl

theorem eq_of_spans_sourceEnd (hpart : ∀ c ∈ part, quoteMark c = false) (hq : quoteMark q = true)
    (h : text.drop k = part ++ q :: rest) (hspans : sourceEnd.Spans text k e) :
    ∃ gap gap', part = gap ++ ("from".toList ++ gap') ∧ IsBlanks1 gap ∧ IsBlanks1 gap' := by
  obtain ⟨gap, gap', q', rest', hdrop, hgap, hgap', hq'⟩ := drop_of_spans_sourceEnd hspans
  have hfree : ∀ c ∈ gap ++ ("from".toList ++ gap'), quoteMark c = false :=
    List.forall_mem_append.mpr ⟨not_quoteMark_of_isBlanks hgap.2,
      List.forall_mem_append.mpr ⟨forall_of_any_eq_false rfl, not_quoteMark_of_isBlanks hgap'.2⟩⟩
  have heq : part ++ q :: rest = (gap ++ ("from".toList ++ gap')) ++ q' :: rest' := by
    rw [← h, hdrop]
    simp only [List.append_assoc]
  exact ⟨gap, gap', (append_cons_inj_of hpart hfree hq hq' heq).1, hgap, hgap'⟩

theorem eq_of_spans_clauseEnd (hpart : ∀ c ∈ part, quoteMark c = false) (hq : quoteMark q = true)
    (h : text.drop k = part ++ q :: rest) (hspans : clauseEnd.Spans text k e) :
    ∃ middle gap', part = middle ++ ("from".toList ++ gap') ∧ 2 ≤ middle.length ∧ IsBlanks1 gap' := by
  obtain ⟨middle, gap', q', rest', hdrop, hlength, hmiddle, hgap', hq'⟩ := drop_of_spans_clauseEnd hspans
  have hfree : ∀ c ∈ middle ++ ("from".toList ++ gap'), quoteMark c = false :=
    List.forall_mem_append.mpr ⟨fun c hc => not_quoteMark_of_clauseChar (hmiddle c hc),
      List.forall_mem_append.mpr ⟨forall_of_any_eq_false rfl, not_quoteMark_of_isBlanks hgap'.2⟩⟩
  have heq : part ++ q :: rest = (middle ++ ("from".toList ++ gap')) ++ q' :: rest' := by
    rw [← h, hdrop]
    simp only [List.append_assoc]
  exact ⟨middle, gap', (append_cons_inj_of hpart hfree hq hq' heq).1, hlength, hgap'⟩

theorem eq_of_spans_moduleImport (hpart : ∀ c ∈ part, quoteMark c = false) (hq : quoteMark q = true)
    (h : text.drop k = part ++ q :: rest) (hspans : moduleImport.Spans text k e) :
    ∃ middle gap', part = "import".toList ++ (middle ++ ("from".toList ++ gap')) ∧
      (∀ c ∈ middle, clauseChar c = true) ∧ IsBlanks1 gap' := by
  obtain ⟨gap, middle, gap', q', rest', hdrop, hgap, hmiddle, hgap', hq'⟩ := drop_of_spans_moduleImport hspans
  have hclause : ∀ c ∈ gap ++ middle, clauseChar c = true :=
    List.forall_mem_append.mpr ⟨fun c hc => by simp [clauseChar, hgap.2 c hc], hmiddle⟩
  have hfree : ∀ c ∈ "import".toList ++ ((gap ++ middle) ++ ("from".toList ++ gap')), quoteMark c = false :=
    List.forall_mem_append.mpr ⟨forall_of_any_eq_false rfl, List.forall_mem_append.mpr
      ⟨fun c hc => not_quoteMark_of_clauseChar (hclause c hc),
        List.forall_mem_append.mpr ⟨forall_of_any_eq_false rfl, not_quoteMark_of_isBlanks hgap'.2⟩⟩⟩
  have heq : part ++ q :: rest = ("import".toList ++ ((gap ++ middle) ++ ("from".toList ++ gap'))) ++ q' :: rest' := by
    rw [← h, hdrop]
    simp only [List.append_assoc]
  exact ⟨gap ++ middle, gap', (append_cons_inj_of hpart hfree hq hq' heq).1, hclause, hgap'⟩

theorem eq_of_spans_effectImport (hpart : ∀ c ∈ part, quoteMark c = false) (hq : quoteMark q = true)
    (h : text.drop k = part ++ q :: rest) (hspans : effectImport.Spans text k e) :
    ∃ lead gap, part = lead ++ ("import".toList ++ gap) ∧ IsBlanks1 gap := by
  obtain ⟨lead, gap, q', rest', hdrop, hlead, hgap, hq'⟩ := drop_of_spans_effectImport hspans
  have hleadFree : ∀ c ∈ lead, quoteMark c = false := by
    intro c hc
    have hspace := hlead c hc
    simp only [among, List.contains_eq_mem, List.mem_cons, List.not_mem_nil, or_false, decide_eq_true_eq] at hspace
    rcases hspace with rfl | rfl <;> decide
  have hfree : ∀ c ∈ lead ++ ("import".toList ++ gap), quoteMark c = false :=
    List.forall_mem_append.mpr ⟨hleadFree, List.forall_mem_append.mpr ⟨forall_of_any_eq_false rfl, not_quoteMark_of_isBlanks hgap.2⟩⟩
  have heq : part ++ q :: rest = (lead ++ ("import".toList ++ gap)) ++ q' :: rest' := by
    rw [← h, hdrop]
    simp only [List.append_assoc]
  exact ⟨lead, gap, (append_cons_inj_of hpart hfree hq hq' heq).1, hgap⟩

/-- What a match of a binding needs in front of a quotation mark. -/
inductive PartBinds (part more : List Char) : Prop
  | braced {word : String} {gap between inside back : List Char} (word_mem : word ∈ requireWords) (gap_isBlanks : IsBlanks1 gap)
    (part_eq : part = (word.toList ++ gap) ++ '{' :: between) (more_eq : between ++ more = inside ++ '}' :: back)
    (ne_nil : inside ≠ []) (not_mem : '}' ∉ inside)
  | one {word : String} {gap name behind between : List Char} (word_mem : word ∈ requireWords) (gap_isBlanks : IsBlanks1 gap)
    (name_isName : IsScriptName name) (behind_isBlanks : IsBlanks behind)
    (part_eq : part = ((word.toList ++ gap) ++ (name ++ behind)) ++ '=' :: between)

theorem partBinds_of_spans (hq : quoteMark q = true)
    (h : text.drop k = part ++ q :: rest) (hspans : requireBinding.Spans text k e) : PartBinds part (q :: rest) := by
  obtain ⟨word, hword, gap, more, hdrop, hgap, hbinds⟩ := drop_of_spans_requireBinding hspans
  have hwordFree := not_quoteMark_of_requireWord hword
  rw [h] at hdrop
  cases hbinds with
  | @braced inside back hne hmem =>
    have hfree : ∀ c ∈ (word.toList ++ gap) ++ ['{'], quoteMark c = false :=
      List.forall_mem_append.mpr ⟨List.forall_mem_append.mpr ⟨hwordFree, not_quoteMark_of_isBlanks hgap.2⟩,
        forall_of_any_eq_false rfl⟩
    have heq : (word.toList ++ gap) ++ ['{'] ++ (inside ++ '}' :: back) = part ++ q :: rest := by
      rw [hdrop]
      simp only [List.append_assoc, List.cons_append, List.nil_append]
      rfl
    obtain ⟨between, hpart, hmore⟩ := exists_eq_append_of_forall hfree hq heq
    rw [List.append_assoc, List.singleton_append] at hpart
    exact .braced hword hgap hpart hmore.symm hne hmem
  | @one name behind back hname hbehind =>
    have hfree : ∀ c ∈ ((word.toList ++ gap) ++ (name ++ behind)) ++ ['='], quoteMark c = false :=
      List.forall_mem_append.mpr ⟨List.forall_mem_append.mpr
        ⟨List.forall_mem_append.mpr ⟨hwordFree, not_quoteMark_of_isBlanks hgap.2⟩, List.forall_mem_append.mpr
          ⟨fun c hc => not_quoteMark_of_wordOrDollar (hname.wordOrDollar hc), not_quoteMark_of_isBlanks hbehind⟩⟩,
        forall_of_any_eq_false rfl⟩
    have heq : ((word.toList ++ gap) ++ (name ++ behind)) ++ ['='] ++ back = part ++ q :: rest := by
      rw [hdrop]
      simp only [List.append_assoc, List.cons_append, List.nil_append]
    obtain ⟨between, hpart, -⟩ := exists_eq_append_of_forall hfree hq heq
    rw [List.append_assoc, List.singleton_append] at hpart
    exact .one hword hgap hname hbehind hpart

end Part

end CodeCensus
