import CodeCensus.Declaration.Imports
import CodeCensus.Proofs.Declaration.BoundNames

/-! Clauses of imports: a default name, the whole module under one name, a list of names between braces, or the first
with one of the others. The list and the whole module are taken out of a clause, and what is left holds the default. -/

namespace CodeCensus

open Text Pattern Cursor Imports

/-! ## Clauses as written -/

/-- A star, and behind it the word `as` and the name of the whole module. -/
structure WholeModule where
  before : List Char
  after : List Char
  name : List Char

inductive ClausePart where
  | whole (m : WholeModule)
  | named (list : BoundList)

inductive ImportClause where
  | own (name : List Char)
  | part (p : ClausePart)
  | both (name before after : List Char) (p : ClausePart)

def WholeModule.text (m : WholeModule) : List Char := "*".toList ++ (m.before ++ ("as".toList ++ (m.after ++ m.name)))

def ClausePart.text : ClausePart → List Char
  | .whole m => m.text
  | .named list => "\x7b".toList ++ (list.text .word ++ "\x7d".toList)

def ImportClause.text : ImportClause → List Char
  | .own name => name
  | .part p => p.text
  | .both name before after p => name ++ (before ++ (",".toList ++ (after ++ p.text)))

def ClausePart.names : ClausePart → List String
  | .whole m => [String.ofList m.name]
  | .named list => list.names

/-- The names that a clause binds: its default, then the whole module or the names between braces. -/
def ImportClause.names : ImportClause → List String
  | .own name => [String.ofList name]
  | .part p => p.names
  | .both name _ _ p => String.ofList name :: p.names

structure WholeModule.IsProper (m : WholeModule) : Prop where
  before_isBlanks : IsBlanks m.before
  after_isBlanks : IsBlanks1 m.after
  name_isIdentifier : IsIdentifier m.name

def ClausePart.IsProper : ClausePart → Prop
  | .whole m => m.IsProper
  | .named list => list.IsProper .word

def ImportClause.IsProper : ImportClause → Prop
  | .own name => IsIdentifier name
  | .part p => p.IsProper
  | .both name before after p => IsIdentifier name ∧ IsBlanks before ∧ IsBlanks after ∧ p.IsProper

theorem ImportClause.text_both (name before after : List Char) (p : ClausePart) :
    ImportClause.text (.both name before after p) = (name ++ (before ++ (",".toList ++ after))) ++ p.text := by
  rw [ImportClause.text]
  simp only [List.append_assoc]

/-! ## Characters of a clause -/

/-- The characters that a clause may hold. -/
def clauseChar (c : Char) : Bool := isWord c || isBlank c || ['$', '*', '{', '}', ','].contains c

theorem clauseChar_of_wordOrDollar {x : Char} (h : wordOrDollar x = true) : clauseChar x = true := by
  rw [wordOrDollar, Bool.or_eq_true, beq_iff_eq] at h
  rcases h with h | rfl
  · rw [clauseChar, h]
    rfl
  · decide

theorem clauseChar_of_isBlank {x : Char} (h : isBlank x = true) : clauseChar x = true := by
  rw [clauseChar, h, Bool.or_true]
  rfl

theorem IsIdentifier.clauseChar {name : List Char} (h : IsIdentifier name) : ∀ x ∈ name, clauseChar x = true :=
  fun x hx => clauseChar_of_wordOrDollar (h.wordOrDollar x hx)

theorem clauseChar_of_isBlanks {gap : List Char} (h : IsBlanks gap) : ∀ x ∈ gap, clauseChar x = true :=
  fun x hx => clauseChar_of_isBlank (h x hx)

theorem ClausePart.IsProper.clauseChar {p : ClausePart} (hp : p.IsProper) : ∀ x ∈ p.text, clauseChar x = true := by
  cases p with
  | whole m =>
    have hm : m.IsProper := hp
    exact List.forall_mem_append.mpr ⟨List.all_eq_true.mp rfl, List.forall_mem_append.mpr ⟨clauseChar_of_isBlanks hm.before_isBlanks,
      List.forall_mem_append.mpr ⟨List.all_eq_true.mp rfl, List.forall_mem_append.mpr
        ⟨clauseChar_of_isBlanks hm.after_isBlanks.2, hm.name_isIdentifier.clauseChar⟩⟩⟩⟩
  | named list =>
    have hlist : list.IsProper .word := hp
    refine List.forall_mem_append.mpr ⟨List.all_eq_true.mp rfl,
      List.forall_mem_append.mpr ⟨fun x hx => ?_, List.all_eq_true.mp rfl⟩⟩
    rcases hlist.listChar x hx with hchar | rfl
    · rw [AliasMark.itemChar, Bool.or_eq_true, Bool.or_eq_true, List.contains_iff_mem] at hchar
      rcases hchar with (hword | hblank) | hletter
      · exact clauseChar_of_wordOrDollar hword
      · exact clauseChar_of_isBlank hblank
      · exact List.all_eq_true.mp (by decide : "as".toList.all CodeCensus.clauseChar = true) x hletter
    · decide

theorem ImportClause.IsProper.clauseChar {c : ImportClause} (hc : c.IsProper) : ∀ x ∈ c.text, clauseChar x = true := by
  cases c with
  | own name => exact IsIdentifier.clauseChar hc
  | part p => exact ClausePart.IsProper.clauseChar hc
  | both name before after p =>
    obtain ⟨hname, hbefore, hafter, hp⟩ := hc
    exact List.forall_mem_append.mpr ⟨hname.clauseChar, List.forall_mem_append.mpr ⟨clauseChar_of_isBlanks hbefore,
      List.forall_mem_append.mpr ⟨List.all_eq_true.mp rfl, List.forall_mem_append.mpr
        ⟨clauseChar_of_isBlanks hafter, hp.clauseChar⟩⟩⟩⟩

theorem ClausePart.text_ne_nil (p : ClausePart) : p.text ≠ [] := by
  cases p with
  | whole m => exact List.cons_ne_nil '*' _
  | named list => exact List.cons_ne_nil '{' _

theorem ClausePart.IsProper.getLast? {p : ClausePart} (hp : p.IsProper) : ∃ x ∈ p.text.getLast?, isBlank x = false := by
  cases p with
  | whole m =>
    have hname : IsIdentifier m.name := WholeModule.IsProper.name_isIdentifier hp
    refine ⟨m.name.getLast hname.ne_nil, ?_, hname.isBlank (List.getLast_mem hname.ne_nil)⟩
    rw [ClausePart.text, WholeModule.text]
    simp only [← List.append_assoc]
    rw [List.getLast?_append_of_ne_nil _ hname.ne_nil]
    exact List.getLast?_eq_some_getLast hname.ne_nil
  | named list =>
    refine ⟨'}', ?_, by decide⟩
    rw [ClausePart.text, ← List.append_assoc, List.getLast?_append_of_ne_nil _ (by decide)]
    rfl

theorem ClausePart.head?_append (p : ClausePart) (rest : List Char) : ∀ x ∈ (p.text ++ rest).head?, isBlank x = false := by
  cases p with
  | whole m => exact forall_mem_head? (by decide : isBlank '*' = false)
  | named list => exact forall_mem_head? (by decide : isBlank '{' = false)

theorem ImportClause.IsProper.head?_append {c : ImportClause} (hc : c.IsProper) (rest : List Char) :
    ∀ x ∈ (c.text ++ rest).head?, isBlank x = false := by
  cases c with
  | own name => exact fun x hx => not_isBlank_of_wordOrDollar (IsIdentifier.head?_append hc rest x hx)
  | part p => exact p.head?_append rest
  | both name before after p =>
    rw [ImportClause.text_both, List.append_assoc, List.append_assoc]
    exact fun x hx => not_isBlank_of_wordOrDollar (hc.1.head?_append _ x hx)

theorem ImportClause.IsProper.getLast? {c : ImportClause} (hc : c.IsProper) : ∃ x ∈ c.text.getLast?, isBlank x = false := by
  cases c with
  | own name =>
    have hname : IsIdentifier name := hc
    exact ⟨_, List.getLast?_eq_some_getLast hname.ne_nil, hname.isBlank (List.getLast_mem hname.ne_nil)⟩
  | part p => exact ClausePart.IsProper.getLast? hc
  | both name before after p =>
    obtain ⟨x, hx, hblank⟩ := hc.2.2.2.getLast?
    refine ⟨x, ?_, hblank⟩
    rw [ImportClause.text]
    simp only [← List.append_assoc]
    rwa [List.getLast?_append_of_ne_nil _ p.text_ne_nil]

/-! ## Parts taken out -/

variable {front inside : List Char} {m : WholeModule} {p : ClausePart} {c : ImportClause}

theorem takeOut_of_none {q : Pattern} {clause : List Char} (h : ∀ k e, ¬ q.Spans clause k e) :
    takeOut q clause = (none, clause) := by
  rw [takeOut, find?_eq_none_of h]

theorem takeOut_of_takes {q : Pattern} {clause kept : List Char} {i j : Nat} {new : Groups}
    (hfirst : ∀ k e, k < i → ¬ q.Spans clause k e) (hi : i ≤ clause.length) (h : Takes clause q i j new)
    (hkept : Match.groupText ⟨⟨on clause i, on clause j⟩, new⟩ 1 = kept) :
    takeOut q clause = (some kept, clause.take i ++ clause.drop j) := by
  rw [takeOut, find?_of_takes h hfirst hi]
  dsimp only
  rw [hkept]
  rfl

/-- A pattern that begins with a certain character covers nothing from a text without it. -/
theorem not_spans_of_not_mem {q : Pattern} {mark : Char} (hq : q.opening.mayBeEmpty = false)
    (hmark : ∀ c, q.opening.chars c = true → c = mark) {text : List Char} (h : mark ∉ text) (k e : Nat) :
    ¬ q.Spans text k e := by
  intro hspans
  rcases hspans.begins with ⟨-, hempty⟩ | ⟨-, c, hc, hopens⟩
  · simp [hq] at hempty
  · exact h (hmark c hopens ▸ List.mem_of_getElem? hc)

theorem not_spans_in_front {q : Pattern} {mark : Char} (hq : q.opening.mayBeEmpty = false)
    (hmark : ∀ c, q.opening.chars c = true → c = mark) (h : mark ∉ front) {rest : List Char} {k : Nat}
    (hk : k < front.length) (e : Nat) : ¬ q.Spans (front ++ rest) k e := by
  intro hspans
  rcases hspans.begins with ⟨-, hempty⟩ | ⟨-, c, hc, hopens⟩
  · simp [hq] at hempty
  · rw [List.getElem?_append_left hk] at hc
    exact h (hmark c hopens ▸ List.mem_of_getElem? hc)

theorem opening_bracedNames {c : Char} (h : bracedNames.opening.chars c = true) : c = '{' := beq_iff_eq.mp h

theorem opening_namespaceName {c : Char} (h : namespaceName.opening.chars c = true) : c = '*' := beq_iff_eq.mp h

theorem takeOut_bracedNames (hfront : '{' ∉ front) (hinside : '}' ∉ inside) :
    takeOut bracedNames (front ++ ("\x7b".toList ++ (inside ++ "\x7d".toList))) = (some inside, front) := by
  generalize htext : front ++ ("\x7b".toList ++ (inside ++ "\x7d".toList)) = text
  have hopen : text.drop front.length = "\x7b".toList ++ (inside ++ ("\x7d".toList ++ [])) := by
    rw [← htext, List.drop_left, List.append_nil]
  have hdrop := drop_add_length hopen
  have hclose := drop_add_length hdrop
  have hrun : Takes text (.run (beyond ['}'])) (front.length + "\x7b".toList.length)
      (front.length + "\x7b".toList.length + inside.length) [] := by
    refine takes_run hdrop (fun c hc => ?_) (forall_mem_head? (by decide))
    have hne : c ≠ '}' := fun heq => hinside (heq ▸ hc)
    simpa [beyond] using hne
  have htaken := ((hrun.group (n := 1)).seq (takes_text hclose)).after (takes_text hopen)
  have hfirst : ∀ k e, k < front.length → ¬ bracedNames.Spans text k e := fun k e hk =>
    htext ▸ not_spans_in_front (by decide) (fun c => opening_bracedNames) hfront hk e
  have hlength : front.length ≤ text.length := by rw [← htext, List.length_append]; omega
  have hleft : text.take front.length ++ text.drop (front.length + "\x7b".toList.length + inside.length +
      "\x7d".toList.length) = front := by
    rw [drop_add_length hclose, ← htext, List.take_left, List.append_nil]
  rw [takeOut_of_takes hfirst hlength htaken (text_stretch hdrop), hleft]

theorem takeOut_namespaceName (hm : m.IsProper) (hfront : '*' ∉ front) :
    takeOut namespaceName (front ++ m.text) = (some m.name, front) := by
  generalize htext : front ++ m.text = text
  have hstar : text.drop front.length = "*".toList ++ (m.before ++ ("as".toList ++ (m.after ++ (m.name ++ [])))) := by
    rw [← htext, List.drop_left, List.append_nil, WholeModule.text]
  have hbefore := drop_add_length hstar
  have hword := drop_add_length hbefore
  have hafter := drop_add_length hword
  have hname := drop_add_length hafter
  have hbeforeTaken := takes_blanks hbefore hm.before_isBlanks (forall_mem_head? (by decide))
  have hafterTaken := takes_blanks1 hafter hm.after_isBlanks fun c hc =>
    not_isBlank_of_wordOrDollar (hm.name_isIdentifier.head?_append [] c hc)
  have hkept := (takes_some1_of_ne_nil hm.name_isIdentifier.ne_nil hname hm.name_isIdentifier.wordOrDollar
    (by rintro _ ⟨⟩)).group (n := 1)
  have htaken := ((((hkept.after hafterTaken).after (takes_text hword)).after hbeforeTaken).after (takes_text hstar))
  have hfirst : ∀ k e, k < front.length → ¬ namespaceName.Spans text k e := fun k e hk =>
    htext ▸ not_spans_in_front (by decide) (fun c => opening_namespaceName) hfront hk e
  have hlength : front.length ≤ text.length := by rw [← htext, List.length_append]; omega
  rw [takeOut_of_takes hfirst hlength htaken (text_stretch hname), drop_add_length hname, ← htext, List.take_left,
    List.append_nil]

/-! ## The names of a clause -/

variable {name before after gap : List Char}

/-- The default that is left once the other parts are taken out. -/
def ownNames (front : List Char) : List String :=
  if (trim (trimBy (· == ',') (trim front))).isEmpty then [] else [String.ofList (trim (trimBy (· == ',') (trim front)))]

theorem ownNames_of_trim_eq_nil (h : trim (trimBy (· == ',') (trim front)) = []) : ownNames front = [] := by
  rw [ownNames, h]
  rfl

theorem ownNames_of_trim_eq (hname : IsIdentifier name) (h : trim (trimBy (· == ',') (trim front)) = name) :
    ownNames front = [String.ofList name] := by
  rw [ownNames, h, if_neg (by simpa using hname.ne_nil)]

theorem trimBy_comma_of_not_mem {text : List Char} (h : ',' ∉ text) : trimBy (· == ',') text = text := by
  have hnot : ∀ c ∈ text, (c == ',') = false := fun c hc => beq_eq_false_iff_ne.mpr fun heq => h (heq ▸ hc)
  rw [trimBy, trimEndBy_eq_self fun c hc => hnot c (List.dropWhile_sublist _ |>.mem hc)]
  cases text with
  | nil => rfl
  | cons c text => rw [List.dropWhile_cons_of_neg (by simp [hnot c List.mem_cons_self])]

theorem trim_of_isBlanks (h : IsBlanks gap) : trim gap = [] := by
  rw [← List.append_nil gap, trim_blanks_append h]
  rfl

theorem ownNames_blanks (h : IsBlanks gap) : ownNames gap = [] := by
  refine ownNames_of_trim_eq_nil ?_
  rw [trim_of_isBlanks h]
  rfl

theorem ownNames_identifier (hname : IsIdentifier name) : ownNames name = [String.ofList name] := by
  refine ownNames_of_trim_eq hname ?_
  rw [hname.trim_eq, trimBy_comma_of_not_mem (hname.not_mem (by decide)), hname.trim_eq]

/-- The comma behind a default, with the blanks around it, is trimmed off. -/
theorem ownNames_comma (hname : IsIdentifier name) (hbefore : IsBlanks before) (hafter : IsBlanks after) :
    ownNames (name ++ (before ++ (",".toList ++ after))) = [String.ofList name] := by
  have hcommas : ∀ c ∈ ",".toList, (c == ',') = true := List.all_eq_true.mp rfl
  have hcomma : ',' ∉ name ++ before :=
    List.not_mem_append (hname.not_mem (by decide)) fun hmem => absurd (hbefore ',' hmem) (by decide)
  have hinner : trim (name ++ (before ++ (",".toList ++ after))) = name ++ before ++ ",".toList := by
    have hsplit : name ++ (before ++ (",".toList ++ after)) = [] ++ ((name ++ before ++ ",".toList) ++ after) := by
      simp only [List.append_assoc, List.nil_append]
    rw [hsplit, trim, trimBy_append_of_pos (List.forall_mem_nil _) hafter]
    refine trim_eq_self (fun c hc => ?_) fun c hc => ?_
    · rw [List.append_assoc] at hc
      exact not_isBlank_of_wordOrDollar (hname.head?_append _ c hc)
    · rw [List.getLast?_append_of_ne_nil _ (by decide)] at hc
      exact Option.some.inj hc ▸ by decide
  have houter : trimBy (· == ',') (name ++ before ++ ",".toList) = name ++ before := by
    rw [← List.nil_append (name ++ before ++ ",".toList), trimBy_append_of_pos (List.forall_mem_nil _) hcommas,
      trimBy_comma_of_not_mem hcomma]
  refine ownNames_of_trim_eq hname ?_
  rw [hinner, houter, ← List.nil_append (name ++ before), trim, trimBy_append_of_pos (List.forall_mem_nil _) hbefore]
  exact hname.trim_eq

theorem ownNames_onlyComma (hafter : IsBlanks after) : ownNames (",".toList ++ after) = [] := by
  refine ownNames_of_trim_eq_nil ?_
  have hinner : trim (",".toList ++ after) = ",".toList := by
    rw [← List.nil_append (",".toList ++ after), trim, trimBy_append_of_pos (List.forall_mem_nil _) hafter]
    decide
  rw [hinner]
  decide

theorem clauseNames_of_not_mem (hbrace : '{' ∉ front) (hstar : '*' ∉ front) : clauseNames front = ownNames front := by
  have hbraced := takeOut_of_none (not_spans_of_not_mem (by decide) (fun c => opening_bracedNames) hbrace)
  have hwhole := takeOut_of_none (not_spans_of_not_mem (by decide) (fun c => opening_namespaceName) hstar)
  rw [clauseNames, hbraced]
  dsimp only
  rw [hwhole]
  simp [ownNames]

theorem WholeModule.IsProper.not_mem (hm : m.IsProper) {c : Char} (hc : c ∈ ['{', '}', ',']) : c ∉ m.text := by
  have hblank : isBlank c = false ∧ wordOrDollar c = false ∧ c ∉ "*".toList ∧ c ∉ "as".toList := by
    simp only [List.mem_cons, List.not_mem_nil, or_false] at hc
    rcases hc with rfl | rfl | rfl <;> decide
  have hgap {gap : List Char} (h : IsBlanks gap) : c ∉ gap := fun hmem => by simp [h c hmem] at hblank
  unfold WholeModule.text
  exact List.not_mem_append hblank.2.2.1 (List.not_mem_append (hgap hm.before_isBlanks)
    (List.not_mem_append hblank.2.2.2 (List.not_mem_append (hgap hm.after_isBlanks.2)
      (hm.name_isIdentifier.not_mem hblank.2.1))))

theorem BoundList.IsProper.brace_not_mem {list : BoundList} (h : list.IsProper mark) {c : Char} (hc : c ∈ ['{', '}', '*']) :
    c ∉ list.text mark := by
  intro hmem
  simp only [List.mem_cons, List.not_mem_nil, or_false] at hc
  rcases h.listChar c hmem with hchar | hcomma
  · rcases hc with rfl | rfl | rfl <;> cases mark <;> exact absurd hchar (by decide)
  · rcases hc with rfl | rfl | rfl <;> cases hcomma

/-- What stands in front of a part of a clause gives the default, and the part its names. -/
theorem clauseNames_append (hp : p.IsProper) (hbrace : '{' ∉ front) (hstar : '*' ∉ front) :
    clauseNames (front ++ p.text) = ownNames front ++ p.names := by
  cases p with
  | whole m =>
    have hm : m.IsProper := hp
    have hnone : '{' ∉ front ++ m.text := List.not_mem_append hbrace (hm.not_mem (by decide))
    have hbraced := takeOut_of_none (not_spans_of_not_mem (by decide) (fun c => opening_bracedNames) hnone)
    rw [ClausePart.text, clauseNames, hbraced]
    dsimp only
    rw [takeOut_namespaceName hm hstar]
    simp [ownNames, ClausePart.names]
  | named list =>
    have hlist : list.IsProper .word := hp
    have hwhole := takeOut_of_none (not_spans_of_not_mem (by decide) (fun c => opening_namespaceName) hstar)
    rw [ClausePart.text, clauseNames, takeOut_bracedNames hbrace (hlist.brace_not_mem (by decide))]
    dsimp only
    rw [hwhole]
    simp [ownNames, ClausePart.names, hlist.boundNames_text]

theorem not_mem_front (hname : IsIdentifier name) (hbefore : IsBlanks before) (hafter : IsBlanks after) {c : Char}
    (hc : c ∈ ['{', '*']) : c ∉ name ++ (before ++ (",".toList ++ after)) := by
  have hmark : isBlank c = false ∧ wordOrDollar c = false ∧ c ∉ ",".toList := by
    simp only [List.mem_cons, List.not_mem_nil, or_false] at hc
    rcases hc with rfl | rfl <;> decide
  have hgap {gap : List Char} (h : IsBlanks gap) : c ∉ gap := fun hmem => by simp [h c hmem] at hmark
  exact List.not_mem_append (hname.not_mem hmark.2.1) (List.not_mem_append (hgap hbefore)
    (List.not_mem_append hmark.2.2 (hgap hafter)))

theorem ImportClause.IsProper.clauseNames_text (hc : c.IsProper) : clauseNames c.text = c.names := by
  cases c with
  | own name =>
    have hname : IsIdentifier name := hc
    exact (clauseNames_of_not_mem (hname.not_mem (by decide)) (hname.not_mem (by decide))).trans (ownNames_identifier hname)
  | part p =>
    have hnames : clauseNames ([] ++ p.text) = ownNames [] ++ p.names :=
      clauseNames_append hc List.not_mem_nil List.not_mem_nil
    exact hnames
  | both name before after p =>
    obtain ⟨hname, hbefore, hafter, hp⟩ := hc
    rw [ImportClause.text_both, clauseNames_append hp (not_mem_front hname hbefore hafter (by decide))
      (not_mem_front hname hbefore hafter (by decide)), ownNames_comma hname hbefore hafter]
    rfl

/-- Without its default, a clause binds the names of its part only. -/
theorem clauseNames_withoutOwn (hafter : IsBlanks after) (hp : p.IsProper) :
    clauseNames (",".toList ++ (after ++ p.text)) = p.names := by
  have hnot {c : Char} (hc : c ∈ ['{', '*']) : c ∉ ",".toList ++ after := by
    have hmark : isBlank c = false ∧ c ∉ ",".toList := by
      simp only [List.mem_cons, List.not_mem_nil, or_false] at hc
      rcases hc with rfl | rfl <;> decide
    exact List.not_mem_append hmark.2 fun hmem => by simp [hafter c hmem] at hmark
  rw [← List.append_assoc, clauseNames_append hp (hnot (by decide)) (hnot (by decide)), ownNames_onlyComma hafter,
    List.nil_append]

theorem clauseNames_blanks (hgap : IsBlanks gap) : clauseNames gap = [] := by
  have hnot {c : Char} (hc : isBlank c = false) : c ∉ gap := fun hmem => by simp [hgap c hmem] at hc
  rw [clauseNames_of_not_mem (hnot (by decide)) (hnot (by decide)), ownNames_blanks hgap]

/-! ## The brace of a clause -/

theorem ClausePart.IsProper.brace (hp : p.IsProper) : '{' ∉ p.text ∨ ∃ back, p.text = '{' :: back ∧ '{' ∉ back := by
  cases p with
  | whole m => exact .inl (WholeModule.IsProper.not_mem hp (by decide))
  | named list =>
    have hlist : list.IsProper .word := hp
    have hbrace : '{' ∉ list.text .word := hlist.brace_not_mem (by decide)
    exact .inr ⟨list.text .word ++ "\x7d".toList, rfl, List.not_mem_append hbrace (by decide)⟩

/-- A brace of a clause opens it or stands, blanks aside, behind a comma. -/
theorem ImportClause.IsProper.brace (hc : c.IsProper) : '{' ∉ c.text ∨ ∃ lead back, c.text = lead ++ '{' :: back ∧
    '{' ∉ lead ∧ '{' ∉ back ∧ (lead = [] ∨ ∃ solid gap, lead = (solid ++ ",".toList) ++ gap ∧ IsBlanks gap) := by
  cases c with
  | own name => exact .inl (IsIdentifier.not_mem hc (by decide))
  | part p =>
    refine (ClausePart.IsProper.brace hc).imp_right fun ⟨back, htext, hback⟩ => ?_
    exact ⟨[], back, htext, List.not_mem_nil, hback, .inl rfl⟩
  | both name before after p =>
    obtain ⟨hname, hbefore, hafter, hp⟩ := hc
    have hlead : '{' ∉ name ++ (before ++ (",".toList ++ after)) := not_mem_front hname hbefore hafter (by decide)
    rw [ImportClause.text_both]
    refine hp.brace.imp (fun hnone => List.not_mem_append hlead hnone) fun ⟨back, htext, hback⟩ => ?_
    refine ⟨_, back, by rw [htext], hlead, hback, .inr ⟨name ++ before, after, ?_, hafter⟩⟩
    simp only [List.append_assoc]

end CodeCensus
