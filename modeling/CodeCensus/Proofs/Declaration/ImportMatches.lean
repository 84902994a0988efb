import CodeCensus.Proofs.Declaration.ImportPlaces

/-! The matches of statements. A default name `type` with blanks behind it is passed over as a word of the statement if
the rest still makes a clause; in all other cases a clause is kept whole. -/

namespace CodeCensus

open Text Pattern Cursor Imports

variable {text rest source gap ahead behind : List Char} {q : Char} {i n : Nat} {s : ImportStatement} {c : ImportClause}

/-! ## Quoted names -/

theorem takes_quoted (hne : source ≠ []) (hsource : ∀ x ∈ source, quoteMark x = false) (hq : quoteMark q = true)
    (h : text.drop i = q :: (source ++ q :: rest)) :
    ∃ t : Stretch, t.text = source ∧ Takes text (quoted n) i (i + (source.length + 2)) [(n, t)] := by
  have hinside : text.drop (i + 1) = source ++ q :: rest := drop_succ_of_drop h
  have hclose : text.drop (i + 1 + source.length) = q :: rest := drop_add_length hinside
  have hopenTaken : Takes text quote i (i + 1) [] := takes_one h hq
  have hbeyond : ∀ x ∈ source, beyond ['\'', '"'] x = true := fun x hx => congrArg not (hsource x hx)
  have hend : ∀ x ∈ (q :: rest).head?, beyond ['\'', '"'] x = false := forall_mem_head? (congrArg not hq)
  have hkept := (takes_some1_of_ne_nil hne hinside hbeyond hend).group (n := n)
  have hcloseTaken : Takes text quote (i + 1 + source.length) (i + 1 + source.length + 1) [] := takes_one hclose hq
  have htaken := (hkept.seq hcloseTaken).after hopenTaken
  rw [show i + 1 + source.length + 1 = i + (source.length + 2) by omega] at htaken
  exact ⟨_, text_stretch hinside, htaken⟩

/-! ## Clauses -/

/-- What is read off a clause, with the blanks behind it. -/
def ImportClause.read (ahead : List Char) : ImportClause → List String
  | .own name => if name = "type".toList ∧ 2 < ahead.length then [] else [String.ofList name]
  | .part p => p.names
  | .both name before _ p =>
    if name = "type".toList ∧ before ≠ [] then p.names else String.ofList name :: p.names

/-- The default of a clause is not passed over: it is not `type`, or a comma stands right behind it, or no more than two
blanks where nothing else comes. -/
def ImportClause.IsWhole (ahead : List Char) : ImportClause → Prop
  | .own name => name = "type".toList → ahead.length ≤ 2
  | .part _ => True
  | .both name before _ _ => name = "type".toList → before = []

theorem ImportClause.read_eq_names_iff (ahead : List Char) (c : ImportClause) : c.read ahead = c.names ↔ c.IsWhole ahead := by
  cases c with
  | own name =>
    rw [read, names, IsWhole]
    split
    · rename_i h
      exact iff_of_false (List.cons_ne_nil _ _).symm fun hwhole => absurd (hwhole h.1) (by omega)
    · rename_i h
      exact iff_of_true rfl fun htype => Nat.le_of_not_lt fun hlong => h ⟨htype, hlong⟩
  | part p => exact iff_of_true rfl trivial
  | both name before after p =>
    rw [read, names, IsWhole]
    split
    · rename_i h
      refine iff_of_false (fun heq => ?_) fun hwhole => h.2 (hwhole h.1)
      have hlength := congrArg List.length heq
      rw [List.length_cons] at hlength
      omega
    · rename_i h
      exact iff_of_true rfl fun htype => not_not.mp fun hbefore => h ⟨htype, hbefore⟩

/-- What stands from the quotation mark of a module on. -/
def afterFrom (behind : List Char) (q : Char) (source rest : List Char) : List Char :=
  "from".toList ++ (behind ++ q :: (source ++ q :: rest))

theorem quote_free_end {front : List Char} (hfront : ∀ x ∈ front, quoteMark x = false) (hbehind : IsBlanks behind) :
    ∀ x ∈ front ++ ("from".toList ++ behind), quoteMark x = false :=
  List.forall_mem_append.mpr ⟨hfront, List.forall_mem_append.mpr ⟨forall_of_any_eq_false rfl, not_quoteMark_of_isBlanks hbehind⟩⟩

/-- In front of the word `from` stands what stands there in any other reading. -/
theorem eq_of_from {front front' behind' : List Char} (hbehind : IsBlanks behind) (hbehind' : IsBlanks behind')
    (h : front ++ ("from".toList ++ behind) = front' ++ ("from".toList ++ behind')) : front = front' := by
  have hlast (front : List Char) : ∀ x ∈ (front ++ "from".toList).getLast?, isBlank x = false := by
    intro x hx
    rw [getLast?_append_text front rfl] at hx
    exact Option.some.inj hx ▸ by decide
  rw [← List.append_assoc, ← List.append_assoc] at h
  exact List.append_cancel_right (append_inj_of hbehind hbehind' (hlast front) (hlast front') h).1

theorem not_spans_clauseEnd_of_short {between : List Char} (hbetween : IsBlanks between) (hshort : between.length ≤ 1)
    (hbehind : IsBlanks behind) (hq : quoteMark q = true) (h : text.drop i = between ++ afterFrom behind q source rest)
    (e : Nat) : ¬ clauseEnd.Spans text i e := by
  intro hspans
  have hdrop : text.drop i = (between ++ ("from".toList ++ behind)) ++ q :: (source ++ q :: rest) := by
    rw [h, afterFrom]
    simp only [List.append_assoc]
  obtain ⟨middle, behind', heq, hlength, hbehind'⟩ :=
    eq_of_spans_clauseEnd (quote_free_end (not_quoteMark_of_isBlanks hbetween) hbehind) hq hdrop hspans
  obtain rfl := eq_of_from hbehind hbehind'.2 heq
  omega

/-- A clause is kept up to the blanks in front of the word `from`, if no blanks end it. -/
theorem takes_clauseEnd {clause : List Char} (hne : clause ≠ []) (hclause : ∀ x ∈ clause, clauseChar x = true)
    (hsolid : ∀ front back, clause = front ++ back → front ≠ [] → back ≠ [] → ¬ IsBlanks back) (hahead : IsBlanks1 ahead)
    (hbehind : IsBlanks1 behind) (hsourceNe : source ≠ []) (hsource : ∀ x ∈ source, quoteMark x = false)
    (hq : quoteMark q = true) (h : text.drop i = clause ++ (ahead ++ afterFrom behind q source rest)) :
    ∃ t t' : Stretch, t.text = clause ∧ t'.text = source ∧
      Takes text clauseEnd i (i + (clause.length + ahead.length + (4 + behind.length) + (source.length + 2)))
        [(2, t'), (1, t)] := by
  have haheadDrop := drop_add_length h
  have hfrom : text.drop (i + clause.length + ahead.length) =
      "from".toList ++ (behind ++ q :: (source ++ q :: rest)) := drop_add_length haheadDrop
  have hbehindDrop := drop_add_length hfrom
  have hquoted := drop_add_length hbehindDrop
  obtain ⟨t', ht', hquotedTaken⟩ := takes_quoted (n := 2) hsourceNe hsource hq hquoted
  have hbehindTaken := takes_blanks1 hbehindDrop hbehind (forall_mem_head? (not_isBlank_of_quoteMark hq))
  have haheadTaken := takes_blanks1 haheadDrop hahead (forall_mem_head? (by decide))
  have hend := ((hquotedTaken.after hbehindTaken).after (takes_text hfrom)).after haheadTaken
  have hpos := List.length_pos_of_ne_nil hne
  have htaken := hend.keep_lazy1_seq (n := 1) (c := clauseChar) (by omega) (throughout_of_drop h hclause) fun l hil hlj e hspans => by
    obtain ⟨m, rfl⟩ := Nat.exists_eq_add_of_le (Nat.le_of_lt hil)
    have hdrop : text.drop (i + m) = (clause.drop m ++ ahead ++ ("from".toList ++ behind)) ++ q :: (source ++ q :: rest) := by
      rw [← List.drop_drop, h, List.drop_append_of_le_length (by omega), afterFrom]
      simp only [List.append_assoc]
    have hfree : ∀ x ∈ clause.drop m ++ ahead, quoteMark x = false := List.forall_mem_append.mpr
      ⟨fun x hx => not_quoteMark_of_clauseChar (hclause x (List.mem_of_mem_drop hx)), not_quoteMark_of_isBlanks hahead.2⟩
    obtain ⟨gap, behind', heq, hgap, hbehind'⟩ :=
      eq_of_spans_sourceEnd (quote_free_end hfree hbehind.2) hq hdrop hspans
    obtain rfl := eq_of_from hbehind.2 hbehind'.2 heq
    refine hsolid (clause.take m) (clause.drop m) (List.take_append_drop m clause).symm ?_ ?_ fun x hx => ?_
    · exact List.ne_nil_of_length_pos (by rw [List.length_take]; omega)
    · exact List.ne_nil_of_length_pos (by rw [List.length_drop]; omega)
    · exact hgap.2 x (List.mem_append_left _ hx)
  have hlength : i + clause.length + ahead.length + "from".toList.length + behind.length + (source.length + 2) =
      i + (clause.length + ahead.length + (4 + behind.length) + (source.length + 2)) := by
    have hfour : "from".toList.length = 4 := rfl
    omega
  rw [hlength] at htaken
  exact ⟨_, t', text_stretch h, ht', htaken⟩

/-- The name of a default that is taken for a word of the statement. -/
def typeMark : Pattern := inOrder ["type", blanks1]

theorem exists_gap_of_spans_typeMark {e : Nat} (h : typeMark.Spans text i e) :
    ∃ gap, text.drop i = "type".toList ++ (gap ++ text.drop e) ∧ IsBlanks1 gap := by
  obtain ⟨m, hword, hgap⟩ := h
  obtain ⟨gap, hdrop, -, hblanks⟩ := exists_gap_of_spans_blanks1 hgap
  exact ⟨gap, by rw [drop_of_spans_text hword, hdrop], hblanks⟩

/-- Where a name is followed by a character that is in no name, it is `type` if that word and a blank stand there. -/
theorem eq_type_of_append {name : List Char} {x : Char} {more : List Char} (hname : IsIdentifier name) (hx : wordOrDollar x = false)
    (hgap : IsBlanks1 gap) (h : name ++ x :: more = "type".toList ++ (gap ++ rest)) :
    name = "type".toList ∧ isBlank x = true := by
  obtain ⟨first, gap, rfl⟩ := List.exists_cons_of_ne_nil hgap.1
  have hblank := hgap.2 first List.mem_cons_self
  have hnameChars : ∀ y ∈ name, (!wordOrDollar y) = false := fun y hy => congrArg not (hname.wordOrDollar y hy)
  have hletters : ∀ y ∈ "type".toList, (!wordOrDollar y) = false := forall_of_any_eq_false rfl
  obtain ⟨rfl, rfl, -⟩ := append_cons_inj_of hnameChars hletters (congrArg not hx)
    (congrArg not (not_wordOrDollar_of_isBlank hblank)) h
  exact ⟨rfl, hblank⟩

/-- What the option for the word `type` covers of a clause that is kept whole leaves no clause behind it. -/
theorem not_spans_clauseEnd_of_isWhole (hc : c.IsProper) (hwhole : c.IsWhole ahead) (hahead : IsBlanks1 ahead)
    (hbehind : IsBlanks1 behind) (hq : quoteMark q = true)
    (h : text.drop i = c.text ++ (ahead ++ afterFrom behind q source rest)) {m : Nat} (hm : typeMark.Spans text i m) (e : Nat) :
    ¬ clauseEnd.Spans text m e := by
  obtain ⟨gap, hdrop, hgap⟩ := exists_gap_of_spans_typeMark hm
  rw [h] at hdrop
  cases c with
  | own name =>
    have hname : IsIdentifier name := hc
    obtain ⟨first, ahead, rfl⟩ := List.exists_cons_of_ne_nil hahead.1
    have hfirst := not_wordOrDollar_of_isBlank (hahead.2 first List.mem_cons_self)
    obtain ⟨rfl, -⟩ := eq_type_of_append hname hfirst hgap hdrop
    have hrest : gap ++ text.drop m = (first :: ahead) ++ 'f' :: ("rom".toList ++ (behind ++ q :: (source ++ q :: rest))) :=
      (List.append_cancel_left hdrop).symm
    have hgapChars : ∀ x ∈ gap, (!isBlank x) = false := fun x hx => congrArg not (hgap.2 x hx)
    have hletter : (!isBlank 'f') = true := by decide
    obtain ⟨between, hsplit, hmore⟩ := exists_eq_append_of_forall hgapChars hletter hrest
    have hlength := congrArg List.length hsplit
    have hpos := List.length_pos_of_ne_nil hgap.1
    have hshort := hwhole rfl
    rw [List.length_append] at hlength
    refine not_spans_clauseEnd_of_short (fun x hx => hahead.2 x (hsplit ▸ List.mem_append_right gap hx)) (by omega) hbehind.2 hq
      hmore e
  | part p =>
    obtain ⟨first, more, hcons⟩ := List.exists_cons_of_ne_nil p.text_ne_nil
    have hfirst : first = 't' := by
      rw [ImportClause.text, hcons] at hdrop
      exact (List.cons.inj hdrop).1
    cases p with
    | whole w => exact absurd ((List.cons.inj hcons).1.trans hfirst) (by decide)
    | named list => exact absurd ((List.cons.inj hcons).1.trans hfirst) (by decide)
  | both name before after p =>
    obtain ⟨hname, hbefore, -, -⟩ := hc
    rw [ImportClause.text, List.append_assoc] at hdrop
    cases hbeforeEq : before with
    | nil =>
      rw [hbeforeEq] at hdrop
      obtain ⟨-, hblank⟩ := eq_type_of_append hname (by decide : wordOrDollar ',' = false) hgap hdrop
      exact absurd hblank (by decide)
    | cons first more =>
      rw [hbeforeEq] at hdrop hbefore
      obtain ⟨htype, -⟩ := eq_type_of_append hname (not_wordOrDollar_of_isBlank (hbefore first List.mem_cons_self)) hgap hdrop
      rw [hwhole htype] at hbeforeEq
      cases hbeforeEq

/-- A clause as the pattern takes it, with the option for the word `type` in front. -/
def TakesClause (text : List Char) (i e : Nat) (source : List Char) (names : List String) : Prop :=
  ∃ t t' : Stretch, clauseNames t.text = names ∧ t'.text = source ∧
    Takes text (.seq (opt typeMark) clauseEnd) i e [(2, t'), (1, t)]

section Clause

variable (hahead : IsBlanks1 ahead) (hbehind : IsBlanks1 behind) (hsourceNe : source ≠ [])
  (hsource : ∀ x ∈ source, quoteMark x = false) (hq : quoteMark q = true)

include hahead hbehind hsourceNe hsource hq

theorem takesClause_of_isWhole (hc : c.IsProper) (hwhole : c.IsWhole ahead)
    (h : text.drop i = c.text ++ (ahead ++ afterFrom behind q source rest)) :
    TakesClause text i (i + (c.text.length + ahead.length + (4 + behind.length) + (source.length + 2))) source c.names := by
  obtain ⟨x, hlast, hblank⟩ := hc.getLast?
  have hne : c.text ≠ [] := fun hnil => by simp [hnil] at hlast
  have hsolid (front back : List Char) (hsplit : c.text = front ++ back) (_ : front ≠ []) (hback : back ≠ []) :
      ¬ IsBlanks back := by
    intro hblanks
    rw [hsplit, List.getLast?_append_of_ne_nil _ hback] at hlast
    simp [hblanks x (List.mem_of_mem_getLast? hlast)] at hblank
  obtain ⟨t, t', ht, ht', htaken⟩ := takes_clauseEnd hne hc.clauseChar hsolid hahead hbehind hsourceNe hsource hq h
  exact ⟨t, t', by rw [ht, hc.clauseNames_text], ht', htaken.opt_seq_none fun m e hm =>
    not_spans_clauseEnd_of_isWhole hc hwhole hahead hbehind hq h hm e⟩

/-- Behind a default that is passed over, the clause begins with its comma. -/
theorem takesClause_comma {before after : List Char} {p : ClausePart} (hbefore : IsBlanks1 before) (hafter : IsBlanks after)
    (hp : p.IsProper)
    (h : text.drop i = "type".toList ++ (before ++ ((",".toList ++ (after ++ p.text)) ++ (ahead ++ afterFrom behind q source rest)))) :
    TakesClause text i (i + ((4 + before.length + (1 + (after.length + p.text.length))) + ahead.length + (4 + behind.length) +
      (source.length + 2))) source p.names := by
  have hbeforeDrop := drop_add_length h
  have hclauseDrop := drop_add_length hbeforeDrop
  have hclause : ∀ x ∈ ",".toList ++ (after ++ p.text), clauseChar x = true :=
    List.forall_mem_append.mpr ⟨List.all_eq_true.mp rfl, List.forall_mem_append.mpr
      ⟨clauseChar_of_isBlanks hafter, hp.clauseChar⟩⟩
  have hsolid (front back : List Char) (hsplit : ",".toList ++ (after ++ p.text) = front ++ back) (_ : front ≠ [])
      (hback : back ≠ []) : ¬ IsBlanks back := by
    intro hblanks
    obtain ⟨x, hlast, hblank⟩ := hp.getLast?
    have hend := congrArg List.getLast? hsplit
    rw [← List.append_assoc, List.getLast?_append_of_ne_nil _ p.text_ne_nil, List.getLast?_append_of_ne_nil _ hback] at hend
    rw [hend] at hlast
    simp [hblanks x (List.mem_of_mem_getLast? hlast)] at hblank
  have hne : ",".toList ++ (after ++ p.text) ≠ [] := List.append_ne_nil_of_left_ne_nil (by decide) _
  obtain ⟨t, t', ht, ht', htaken⟩ := takes_clauseEnd hne hclause hsolid hahead hbehind hsourceNe hsource hq hclauseDrop
  have hmark := (takes_blanks1 hbeforeDrop hbefore (forall_mem_head? (by decide))).after (takes_text h)
  have htype := (htaken.after hmark).opt_seq
  have hlength : i + "type".toList.length + before.length + ((",".toList ++ (after ++ p.text)).length + ahead.length +
      (4 + behind.length) + (source.length + 2)) = i + ((4 + before.length + (1 + (after.length + p.text.length))) +
      ahead.length + (4 + behind.length) + (source.length + 2)) := by
    have hfour : "type".toList.length = 4 := rfl
    have hone : ",".toList.length = 1 := rfl
    rw [List.length_append, List.length_append]
    omega
  rw [hlength] at htype
  exact ⟨t, t', by rw [ht, clauseNames_withoutOwn hafter hp], ht', htype⟩

/-- Behind a default that is passed over, one of the blanks makes the clause. -/
theorem takesClause_blanks (hlong : 2 < ahead.length)
    (h : text.drop i = "type".toList ++ (ahead ++ afterFrom behind q source rest)) :
    TakesClause text i (i + (4 + ahead.length + (4 + behind.length) + (source.length + 2))) source [] := by
  -- all but two of the blanks go with the word, one is the clause, and one is left in front of `from`
  obtain ⟨first, more, x, y, rfl⟩ : ∃ first more x y, ahead = first :: (more ++ [x, y]) := by
    obtain ⟨first, others, rfl⟩ := List.exists_cons_of_ne_nil hahead.1
    rcases List.eq_nil_or_concat' others with rfl | ⟨others, y, rfl⟩
    · simp at hlong
    rcases List.eq_nil_or_concat' others with rfl | ⟨more, x, rfl⟩
    · simp at hlong
    · exact ⟨first, more, x, y, by rw [List.append_assoc]; rfl⟩
  have hblank : isBlank first = true ∧ IsBlanks more ∧ isBlank x = true ∧ isBlank y = true :=
    ⟨hahead.2 first (by simp), fun c hc => hahead.2 c (by simp [hc]), hahead.2 x (by simp), hahead.2 y (by simp)⟩
  obtain ⟨hfirst, hmore, hx, hy⟩ := hblank
  have hfirstDrop : text.drop (i + 4) = first :: (more ++ ([x] ++ ([y] ++ afterFrom behind q source rest))) := by
    rw [show i + 4 = i + "type".toList.length from rfl, drop_add_length h]
    simp only [List.append_assoc, List.cons_append, List.nil_append]
  have hmoreDrop := drop_succ_of_drop hfirstDrop
  have hxDrop := drop_add_length hmoreDrop
  have hyDrop : text.drop (i + 4 + 1 + more.length + 1) = [y] ++ afterFrom behind q source rest := drop_add_length hxDrop
  have hfromDrop : text.drop (i + 4 + 1 + more.length + 1 + 1) = [] ++ afterFrom behind q source rest := drop_add_length hyDrop
  have hclause : ∀ c ∈ [x], clauseChar c = true := List.forall_mem_singleton.mpr (clauseChar_of_isBlank hx)
  have hsolid (front back : List Char) (hsplit : [x] = front ++ back) (hfront : front ≠ []) (hback : back ≠ []) :
      ¬ IsBlanks back := by
    have hlength := congrArg List.length hsplit
    have hpos := List.length_pos_of_ne_nil hfront
    have hpos' := List.length_pos_of_ne_nil hback
    rw [List.length_append, List.length_singleton] at hlength
    omega
  have hyBlanks : IsBlanks1 [y] := ⟨List.cons_ne_nil y [], List.forall_mem_singleton.mpr hy⟩
  obtain ⟨t, t', ht, ht', htaken⟩ := takes_clauseEnd (List.cons_ne_nil x []) hclause hsolid hyBlanks hbehind hsourceNe hsource
    hq hxDrop
  have hrun := htaken.run_seq (Nat.le_add_right _ _) (throughout_of_drop hmoreDrop hmore) fun l hl hthrough e hspans => by
    have hall : text.drop (i + 4 + 1) = (more ++ [x, y]) ++ afterFrom behind q source rest := by
      rw [hmoreDrop]
      simp only [List.append_assoc, List.cons_append, List.nil_append]
    have hle := not_throughout_of_drop hall (forall_mem_head? (by decide)) hthrough
    rw [List.length_append, List.length_cons, List.length_cons, List.length_nil] at hle
    rcases Nat.eq_or_lt_of_le hl with rfl | hl
    · exact not_spans_clauseEnd_of_short hyBlanks.2 (Nat.le_refl 1) hbehind.2 hq hyDrop e hspans
    · obtain rfl : l = i + 4 + 1 + more.length + 1 + 1 := by omega
      exact not_spans_clauseEnd_of_short (List.forall_mem_nil _) (Nat.zero_le 1) hbehind.2 hq hfromDrop e hspans
  have hone : Takes text (.one isBlank) (i + 4) (i + 4 + 1) [] := takes_one hfirstDrop hfirst
  have hmark : Takes text (.seq typeMark clauseEnd) i _ _ := (hrun.after hone).after (takes_text h)
  have hlength : i + 4 + 1 + more.length + ([x].length + [y].length + (4 + behind.length) + (source.length + 2)) =
      i + (4 + (first :: (more ++ [x, y])).length + (4 + behind.length) + (source.length + 2)) := by
    simp only [List.length_cons, List.length_append, List.length_nil]
    omega
  rw [hlength] at hmark
  have hx' : clauseNames t.text = [] := by
    rw [ht]
    exact clauseNames_blanks (List.forall_mem_singleton.mpr hx)
  exact ⟨t, t', hx', ht', hmark.opt_seq⟩

theorem takesClause (hc : c.IsProper) (h : text.drop i = c.text ++ (ahead ++ afterFrom behind q source rest)) :
    TakesClause text i (i + (c.text.length + ahead.length + (4 + behind.length) + (source.length + 2))) source (c.read ahead) := by
  by_cases hwhole : c.IsWhole ahead
  · rw [(c.read_eq_names_iff ahead).mpr hwhole]
    exact takesClause_of_isWhole hahead hbehind hsourceNe hsource hq hc hwhole h
  · cases c with
    | own name =>
      obtain ⟨rfl, hlong⟩ : name = "type".toList ∧ 2 < ahead.length := by
        rw [ImportClause.IsWhole] at hwhole
        exact ⟨by tauto, by omega⟩
      rw [ImportClause.read, if_pos ⟨rfl, hlong⟩]
      exact takesClause_blanks hahead hbehind hsourceNe hsource hq hlong h
    | part p => exact absurd trivial hwhole
    | both name before after p =>
      obtain ⟨hname, hbefore, hafter, hp⟩ := hc
      obtain ⟨rfl, hne⟩ : name = "type".toList ∧ before ≠ [] := by
        rw [ImportClause.IsWhole] at hwhole
        tauto
      have hsplit : text.drop i = "type".toList ++ (before ++ ((",".toList ++ (after ++ p.text)) ++
          (ahead ++ afterFrom behind q source rest))) := by
        rw [h, ImportClause.text]
        simp only [List.append_assoc]
      have htaken := takesClause_comma hahead hbehind hsourceNe hsource hq ⟨hne, hbefore⟩ hafter hp hsplit
      have hlength : (ImportClause.text (.both "type".toList before after p)).length =
          4 + before.length + (1 + (after.length + p.text.length)) := by
        rw [ImportClause.text]
        simp only [List.length_append]
        have hfour : "type".toList.length = 4 := rfl
        have hone : ",".toList.length = 1 := rfl
        omega
      rw [hlength, ImportClause.read, if_pos ⟨rfl, hne⟩]
      exact htaken

end Clause

/-! ## Statements that are taken -/

/-- No statement begins among the spaces in front of one. -/
theorem not_spans_indent (hp : p = moduleImport ∨ p = requireBinding) (hs : s.IsProper)
    (h : text.drop i = s.front ++ (s.quoted ++ rest)) (hik : i ≤ k) (hk : k < i + s.indent.length) : ¬ p.Spans text k e := by
  have hindent : text.drop i = s.indent ++ (s.head.text ++ (s.quoted ++ rest)) := by
    rw [h, ImportStatement.front, List.append_assoc]
  obtain ⟨x, hx, hspace⟩ := throughout_of_drop hindent hs.indent_isSpace k hik hk
  have hdrop := drop_of_getElem? hx
  simp only [among, List.contains_eq_mem, List.mem_cons, List.not_mem_nil, or_false, decide_eq_true_eq] at hspace
  rcases hp with rfl | rfl
  · refine not_spans_of_drop (by decide) hdrop ?_ e
    rcases hspace with rfl | rfl <;> decide
  · refine not_spans_of_drop (by decide) hdrop ?_ e
    rcases hspace with rfl | rfl <;> decide

theorem head_drop (h : text.drop i = s.front ++ (s.quoted ++ rest)) :
    text.drop (i + s.indent.length) = s.head.text ++ (s.quoted ++ rest) := by
  rw [ImportStatement.front, List.append_assoc] at h
  exact drop_add_length h

theorem length_front (s : ImportStatement) : s.front.length = s.indent.length + s.head.text.length := by
  rw [ImportStatement.front, List.length_append]

theorem quoted_eq (s : ImportStatement) (rest : List Char) : s.quoted ++ rest =
    s.quote :: (s.source ++ s.quote :: (s.head.closing ++ s.trail ++ rest)) := by
  rw [ImportStatement.quoted]
  simp only [List.append_assoc, List.cons_append]

namespace ImportStatement.IsProper

theorem source_not_quoteMark (hs : s.IsProper) : ∀ x ∈ s.source, quoteMark x = false :=
  fun x hx => (hs.source_isSolid x hx).2

theorem head?_quoted (hs : s.IsProper) (rest : List Char) : ∀ c ∈ (s.quoted ++ rest).head?, isBlank c = false :=
  forall_mem_head? (not_isBlank_of_quoteMark hs.quote_isMark)

/-- The name of a module is taken with its marks, and what closes the statement stands behind them. -/
theorem takes_source (hs : s.IsProper) (n : Nat) (h : text.drop i = s.quoted ++ rest) :
    (∃ t : Stretch, t.text = s.source ∧ Takes text (Imports.quoted n) i (i + (s.source.length + 2)) [(n, t)]) ∧
      text.drop (i + (s.source.length + 2)) = s.head.closing ++ (s.trail ++ rest) := by
  rw [quoted_eq] at h
  refine ⟨takes_quoted hs.source_ne_nil hs.source_not_quoteMark hs.quote_isMark h, ?_⟩
  have hparts : text.drop i = (s.quote :: (s.source ++ [s.quote])) ++ (s.head.closing ++ (s.trail ++ rest)) := by
    rw [h]
    simp only [List.append_assoc, List.cons_append, List.nil_append]
  have hwidth : (s.quote :: (s.source ++ [s.quote])).length = s.source.length + 2 := by
    rw [List.length_cons, List.length_append, List.length_singleton]
  exact hwidth ▸ drop_add_length hparts

end ImportStatement.IsProper

theorem takes_moduleImport {gap ahead behind : List Char} {clause : ImportClause} (hs : s.IsProper)
    (hhead : s.head = .module gap clause ahead behind) (hedge : Edge.word.holds (on text i) = true)
    (h : text.drop i = s.head.text ++ (s.quoted ++ rest)) :
    ∃ t t' : Stretch, clauseNames t.text = clause.read ahead ∧ t'.text = s.source ∧
      Takes text moduleImport i (i + (s.head.text.length + (s.source.length + 2))) [(2, t'), (1, t)] := by
  have hproper := hs.head_isProper
  rw [hhead] at hproper
  obtain ⟨hgap, hclause, hahead, hbehind⟩ := hproper
  have himport : text.drop i = "import".toList ++ (gap ++ (clause.text ++ (ahead ++
      afterFrom behind s.quote s.source (s.head.closing ++ s.trail ++ rest)))) := by
    rw [h, quoted_eq, hhead, ImportHead.text_module, afterFrom]
    simp only [List.append_assoc]
  have hgapDrop := drop_add_length himport
  have hclauseDrop := drop_add_length hgapDrop
  obtain ⟨t, t', ht, ht', htaken⟩ := takesClause hahead hbehind hs.source_ne_nil hs.source_not_quoteMark hs.quote_isMark
    hclause hclauseDrop
  have hgapTaken := takes_blanks1 hgapDrop hgap (ImportClause.IsProper.head?_append hclause _)
  have hwhole := ((htaken.after hgapTaken).after (takes_text himport)).after (takes_edge hedge)
  have hlength : i + "import".toList.length + gap.length + (clause.text.length + ahead.length + (4 + behind.length) +
      (s.source.length + 2)) = i + (s.head.text.length + (s.source.length + 2)) := by
    have hfour : "from".toList.length = 4 := rfl
    rw [hhead, ImportHead.text_module]
    simp only [List.length_append]
    omega
  rw [hlength] at hwhole
  exact ⟨t, t', ht, ht', hwhole⟩

theorem takes_effectImport {gap : List Char} (hs : s.IsProper) (hhead : s.head = .effect gap)
    (hline : Edge.lineStart.holds (on text i) = true) (h : text.drop i = s.front ++ (s.quoted ++ rest)) :
    ∃ t : Stretch, t.text = s.source ∧
      Takes text effectImport i (i + (s.front.length + (s.source.length + 2))) [(1, t)] := by
  have hproper := hs.head_isProper
  rw [hhead] at hproper
  have hindent : text.drop i = s.indent ++ ("import".toList ++ (gap ++ (s.quoted ++ rest))) := by
    rw [h, ImportStatement.front, hhead, ImportHead.text_effect]
    simp only [List.append_assoc]
  have himport := drop_add_length hindent
  have hgap := drop_add_length himport
  obtain ⟨⟨t, ht, hquotedTaken⟩, -⟩ := hs.takes_source 1 (drop_add_length hgap)
  have hindentTaken := takes_run hindent hs.indent_isSpace (forall_mem_head? (by decide))
  have hgapTaken := takes_blanks1 hgap hproper (hs.head?_quoted rest)
  have htaken := (((hquotedTaken.after hgapTaken).after (takes_text himport)).after hindentTaken).after (takes_edge hline)
  have hlength : i + s.indent.length + "import".toList.length + gap.length + (s.source.length + 2) =
      i + (s.front.length + (s.source.length + 2)) := by
    rw [length_front, hhead, ImportHead.text_effect, List.length_append]
    omega
  rw [hlength] at htaken
  exact ⟨t, ht, htaken⟩

theorem takes_requireWord {word : String} (hword : word ∈ requireWords) (h : text.drop i = word.toList ++ rest) :
    Takes text (oneWord ["const", "let", "var"]) i (i + word.toList.length) [] := by
  have hother (other : String) (hother : (Pattern.text other).opening.mayBeEmpty = false)
      (hhead : ∀ c ∈ (word.toList ++ rest).head?, (Pattern.text other).opening.chars c = false) (e : Nat) :
      ¬ (Pattern.text other).Spans text i e :=
    not_spans_of_head? hother (by rwa [h]) e
  simp only [requireWords, List.mem_cons, List.not_mem_nil, or_false] at hword
  rcases hword with rfl | rfl | rfl
  · exact takes_oneOf [] (List.forall_mem_nil _) (takes_text h)
  · exact takes_oneOf ["const"] (List.forall_mem_singleton.mpr (hother "const" (by decide) (forall_mem_head? (by decide))))
      (takes_text h)
  · refine takes_oneOf ["const", "let"] (List.forall_mem_cons.mpr ⟨?_, List.forall_mem_singleton.mpr ?_⟩) (takes_text h)
    · exact hother "const" (by decide) (forall_mem_head? (by decide))
    · exact hother "let" (by decide) (forall_mem_head? (by decide))

def targetPattern : Pattern :=
  .alt (inOrder ["\x7b", keep 1 [some1 (beyond ['}'])], "\x7d"]) (keep 2 [dollarName])

theorem takes_target {target : RequireTarget} (htarget : target.IsProper) (hread : target.IsRead)
    (hrest : ∀ c ∈ rest.head?, wordOrDollar c = false) (h : text.drop i = target.text ++ rest) :
    ∃ new, Takes text targetPattern i (i + target.text.length) new ∧ ∀ (m : Match) (t : Stretch), m.groups = (3, t) :: new →
      ((m.text? 1).map boundNames).getD [String.ofList (m.groupText 2)] = target.names := by
  cases target with
  | one name =>
    have hname : IsScriptName name := (IsIdentifier.isScriptName_iff htarget).mpr hread
    have hkept := (takes_spelled hname h hrest).group (n := 2)
    have hbrace : ∀ e, ¬ (inOrder ["\x7b", keep 1 [some1 (beyond ['}'])], "\x7d"]).Spans text i e := by
      refine not_spans_of_head? (by decide) fun c hc => ?_
      rw [h] at hc
      have hword := IsIdentifier.head?_append htarget rest c hc
      exact beq_eq_false_iff_ne.mpr (by rintro rfl; exact absurd hword (by decide))
    refine ⟨_, hkept.right hbrace, fun m t hgroups => ?_⟩
    have hnone : m.text? 1 = none := by rw [Match.text?, Match.group?, hgroups]; rfl
    have htext : m.groupText 2 = name := by
      rw [Match.groupText, Match.text?, Match.group?, hgroups]
      exact text_stretch h
    rw [hnone, htext]
    rfl
  | named list =>
    have hlist : list.IsProper .colon := htarget
    have hopen : text.drop i = "\x7b".toList ++ (list.text .colon ++ ("\x7d".toList ++ rest)) := by
      rw [h, RequireTarget.text]
      simp only [List.append_assoc]
    have hinside := drop_add_length hopen
    have hclose := drop_add_length hinside
    have hchars : ∀ x ∈ list.text .colon, beyond ['}'] x = true := by
      intro x hx
      have hne : x ≠ '}' := fun heq => hlist.brace_not_mem (by decide) (heq ▸ hx)
      simpa [beyond] using hne
    have hkept := (takes_some1_of_ne_nil hread hinside hchars (forall_mem_head? (by decide))).group (n := 1)
    have htaken := ((hkept.seq (takes_text hclose)).after (takes_text hopen)).left (q := keep 2 [dollarName])
    have hlength : i + "\x7b".toList.length + (list.text .colon).length + "\x7d".toList.length =
        i + (RequireTarget.text (.named list)).length := by
      rw [RequireTarget.text, List.length_append, List.length_append]
      omega
    rw [hlength] at htaken
    refine ⟨_, htaken, fun m t hgroups => ?_⟩
    have htext : m.text? 1 = some (list.text .colon) := by
      rw [Match.text?, Match.group?, hgroups]
      exact congrArg some (text_stretch hinside)
    rw [htext, Option.map_some, Option.getD_some, hlist.boundNames_text]
    rfl

theorem RequireTarget.IsProper.head?_append {target : RequireTarget} (h : target.IsProper) (rest : List Char) :
    ∀ x ∈ (target.text ++ rest).head?, isBlank x = false := by
  cases target with
  | one name => exact fun x hx => not_isBlank_of_wordOrDollar (IsIdentifier.head?_append h rest x hx)
  | named list => exact forall_mem_head? (by decide : isBlank '{' = false)

/-- What comes behind the name or the braces of a binding. -/
def requireEnd : Pattern := inOrder [blanks, "=", blanks, "require(", blanks, quoted 3, blanks, ")"]

theorem takes_requireEnd {before after inner closing : List Char} (hs : s.IsProper)
    (hclosingEq : s.head.closing = closing ++ ")".toList) (hbefore : IsBlanks before) (hafter : IsBlanks after)
    (hinner : IsBlanks inner) (hclosing : IsBlanks closing)
    (h : text.drop i = before ++ ("=".toList ++ (after ++ ("require(".toList ++ (inner ++ (s.quoted ++ rest)))))) :
    ∃ t : Stretch, t.text = s.source ∧ Takes text requireEnd i (i + ((before ++ ("=".toList ++ (after ++
      ("require(".toList ++ inner)))).length + (s.source.length + 2) + s.head.closing.length)) [(3, t)] := by
  have hequals := drop_add_length h
  have hafterDrop := drop_add_length hequals
  have hcall := drop_add_length hafterDrop
  have hinnerDrop := drop_add_length hcall
  obtain ⟨⟨t, ht, hquotedTaken⟩, hclosingDrop⟩ := hs.takes_source 3 (drop_add_length hinnerDrop)
  rw [hclosingEq, List.append_assoc] at hclosingDrop
  have hparen := drop_add_length hclosingDrop
  have hend := (takes_text hparen).after (takes_blanks hclosingDrop hclosing (forall_mem_head? (by decide)))
  have hargument := (hquotedTaken.seq hend).after (takes_blanks hinnerDrop hinner (hs.head?_quoted rest))
  have hbound := (hargument.after (takes_text hcall)).after (takes_blanks hafterDrop hafter (forall_mem_head? (by decide)))
  have htaken := (hbound.after (takes_text hequals)).after (takes_blanks h hbefore (forall_mem_head? (by decide)))
  have hlength : i + before.length + "=".toList.length + after.length + "require(".toList.length + inner.length +
      (s.source.length + 2) + closing.length + ")".toList.length = i + ((before ++ ("=".toList ++ (after ++
        ("require(".toList ++ inner)))).length + (s.source.length + 2) + s.head.closing.length) := by
    rw [hclosingEq]
    simp only [List.length_append]
    omega
  rw [hlength] at htaken
  exact ⟨t, ht, htaken⟩

theorem takes_requireBinding {word : String} {target : RequireTarget} {gap before after inner closing : List Char}
    (hs : s.IsProper) (hhead : s.head = .require word gap target before after inner closing) (hread : target.IsRead)
    (hedge : Edge.word.holds (on text i) = true) (h : text.drop i = s.head.text ++ (s.quoted ++ rest)) :
    ∃ (t : Stretch) (new : Groups), t.text = s.source ∧
      Takes text requireBinding i (i + (s.head.text.length + (s.source.length + 2) + s.head.closing.length)) ((3, t) :: new) ∧
      ∀ m : Match, m.groups = (3, t) :: new →
        ((m.text? 1).map boundNames).getD [String.ofList (m.groupText 2)] = target.names := by
  have hproper := hs.head_isProper
  rw [hhead] at hproper
  obtain ⟨hword, hgap, htarget, hbefore, hafter, hinner, hclosing⟩ := hproper
  have hwordDrop : text.drop i = word.toList ++ (gap ++ (target.text ++ (before ++ ("=".toList ++ (after ++
      ("require(".toList ++ (inner ++ (s.quoted ++ rest)))))))) := by
    rw [h, hhead, ImportHead.text_require]
    simp only [List.append_assoc]
  have hgapDrop := drop_add_length hwordDrop
  have htargetDrop := drop_add_length hgapDrop
  obtain ⟨t, ht, hendTaken⟩ := takes_requireEnd hs (by rw [hhead]; rfl) hbefore hafter hinner hclosing
    (drop_add_length htargetDrop)
  have hbehind : ∀ c ∈ (before ++ ("=".toList ++ (after ++ ("require(".toList ++ (inner ++ (s.quoted ++ rest)))))).head?,
      wordOrDollar c = false := by
    cases hbeforeEq : before with
    | nil => exact forall_mem_head? (by decide)
    | cons c before =>
      rw [hbeforeEq] at hbefore
      exact forall_mem_head? (not_wordOrDollar_of_isBlank (hbefore c List.mem_cons_self))
  obtain ⟨new, htargetTaken, hnames⟩ := takes_target htarget hread hbehind htargetDrop
  have htaken := (((htargetTaken.seq hendTaken).after (takes_blanks1 hgapDrop hgap (htarget.head?_append _))).after
    (takes_requireWord hword hwordDrop)).after (takes_edge hedge)
  refine ⟨t, new, ht, ?_, fun m hm => hnames m t hm⟩
  have hlength : i + word.toList.length + gap.length + target.text.length + ((before ++ ("=".toList ++ (after ++
      ("require(".toList ++ inner)))).length + (s.source.length + 2) + s.head.closing.length) =
      i + (s.head.text.length + (s.source.length + 2) + s.head.closing.length) := by
    rw [show s.head.text = word.toList ++ (gap ++ (target.text ++ (before ++ ("=".toList ++ (after ++ ("require(".toList ++
      inner)))))) by rw [hhead, ImportHead.text_require]]
    simp only [List.length_append]
    omega
  rw [hlength] at htaken
  exact htaken

end CodeCensus
