import CodeCensus.Proofs.Declaration.Series

/-! Heads that begin with a keyword and end with the brace that opens a body. Such a head is matched from its keyword
to its brace. Its result is read as it is written, except that a clause can be seen at the end of it where the pattern
admits one. -/

namespace CodeCensus

open Text Pattern Cursor

variable {text rest name list type : List Char} {p q : Pattern} {i j : Nat} {new : Groups}

/-! ## What heads have in common -/

theorem Declared.IsProper.head?_call {d : Declared} (hd : d.IsProper) (rest : List Char) :
    ∀ c ∈ (d.call ++ rest).head?, isWord c = true := by
  rw [Declared.call, List.append_assoc]
  exact hd.name_isName.head?_append _

theorem takes_keyword {word : String} (hedge : Edge.word.holds (on text i) = true)
    (hrest : ∀ c ∈ rest.head?, isBlank c = false) (h : text.drop i = word.toList ++ ' ' :: rest)
    (hq : Takes text q (i + word.toList.length + 1) j new) :
    Takes text (.seq wordEdge (.seq (Pattern.text word) (.seq blanks1 q))) i j new := by
  have hblank : Takes text blanks1 (i + word.toList.length) (i + word.toList.length + 1) [] :=
    takes_blank1 hrest (drop_add_length h)
  exact ((hq.after hblank).after (takes_text h)).after (takes_edge hedge)

theorem takes_called (hname : IsName name) (h : text.drop i = name ++ '(' :: rest)
    (hq : Takes text q (i + name.length) j new) :
    Takes text (.seq (keep 1 [Pattern.name]) (.seq blanks q)) i j
      (new ++ [(1, ⟨on text i, on text (i + name.length)⟩)]) := by
  have hspelled : Takes text Pattern.name i (i + name.length) [] :=
    takes_spelled hname h (forall_mem_head? (by decide))
  exact hspelled.group.seq (hq.after (takes_noBlank (forall_mem_head? (by decide)) (drop_add_length h)))

theorem takes_unopened (hp : p.opening.mayBeEmpty = false) (hparen : p.opening.chars '(' = false)
    (h : text.drop i = '(' :: rest) (hq : Takes text q i j new) :
    Takes text (.seq (opt p) (.seq blanks q)) i j new := by
  have hblanks : Takes text blanks i i [] := takes_noBlank (forall_mem_head? (by decide)) h
  exact (hq.after hblanks).after (takes_opt_none (not_spans_of_drop hp h hparen))

/-- The name and the parameters of a declaration, whatever may stand between them. -/
theorem takes_call {d : Declared} {r : Pattern} (hd : d.IsProper) (h : text.drop i = d.call ++ rest)
    (hq : Takes text q (i + d.call.length) j new)
    (hr : ∀ rest new, text.drop (i + d.name.length) = '(' :: rest →
      Takes text (.seq (Functions.parameterList 2) q) (i + d.name.length) j new →
      Takes text r (i + d.name.length) j new) :
    ∃ groups, Takes text (.seq (keep 1 [Pattern.name]) (.seq blanks r)) i j (new ++ groups) ∧
      textsOf groups = [(2, d.list), (1, d.name)] := by
  have hname : text.drop i = d.name ++ '(' :: (d.list ++ ')' :: rest) := by
    rw [h, Declared.call, List.append_assoc, List.cons_append, List.append_assoc, List.singleton_append]
  have hparen : text.drop (i + d.name.length) = '(' :: (d.list ++ ')' :: rest) := drop_add_length hname
  have hlist : text.drop (i + d.name.length + 1) = d.list ++ ')' :: rest := drop_succ_of_drop hparen
  have hlength : i + d.name.length + 1 + d.list.length + 1 = i + d.call.length := by
    rw [Declared.call, List.length_append, List.length_cons, List.length_append, List.length_singleton]
    omega
  have hparameters := takes_parameterList (n := 2) (hd.paren_not_mem_list (.inr rfl)) hparen
  rw [hlength] at hparameters
  have hcall := takes_called hd.name_isName hname (hr _ _ hparen (hparameters.seq hq))
  rw [List.append_assoc] at hcall
  refine ⟨_, hcall, ?_⟩
  unfold textsOf
  rw [List.map_append, List.map_singleton, List.map_singleton, text_stretch hlist, text_stretch hname]
  rfl

theorem takes_result_brace (hp : Takes text p i j new) (h : text.drop j = ' ' :: '{' :: rest) :
    Takes text (.seq p (.seq blanks "\x7b")) i (j + 2) new := by
  have hbrace : Takes text "\x7b" (j + 1) (j + 2) [] := takes_brace (drop_succ_of_drop h)
  exact hp.seq (hbrace.after (takes_blank (forall_mem_head? (by decide)) h))

/-- A result that is written as one word, where a run of word characters and some marks is kept. -/
theorem takes_wordOr {marks : List Char} (htype : IsName type) (hstop : either isWord (among marks) ' ' = false)
    (h : text.drop i = type ++ ' ' :: rest) :
    Takes text (some1 (either isWord (among marks))) i (i + type.length) [] :=
  takes_some1_of_ne_nil htype.ne_nil h (fun c hc => by rw [either, htype.isWord hc, Bool.true_or])
    (forall_mem_head? hstop)

/-! ## Languages -/

/-- How declarations are written in a language with a keyword: the keyword, and what stands before a result. The
pattern for heads keeps a result in some group, and of a result it keeps a certain part. -/
structure HeadStyle where
  keyword : String
  mark : String
  head : Pattern
  group : Nat
  kept : List Char → List Char := id

namespace HeadStyle

def note (s : HeadStyle) (d : Declared) : List Char :=
  match d.result with
  | none => []
  | some type => s.mark.toList ++ type

def written (s : HeadStyle) (d : Declared) : List Char :=
  s.keyword.toList ++ ' ' :: (d.call ++ (s.note d ++ [' ']))

theorem note_of_none (s : HeadStyle) {d : Declared} (h : d.result = none) : s.note d = [] := by
  rw [note, h]

theorem note_of_some (s : HeadStyle) {d : Declared} (h : d.result = some type) : s.note d = s.mark.toList ++ type := by
  rw [note, h]

def result (s : HeadStyle) (d : Declared) : Groups → Prop :=
  fun groups => textsOf groups = (d.result.map fun type => (s.group, s.kept type)).toList

/-- A language with a pattern for what follows the parameters in a head. -/
structure EndsWith (s : HeadStyle) (tail : Pattern) : Prop where
  keyword_isName : IsName s.keyword.toList
  lt_group : 2 < s.group
  kept_isName : ∀ type, IsName type → IsName (s.kept type)
  spans_keyword : ∀ {text : List Char} {i j : Nat}, s.head.Spans text i j → ∃ m, (Pattern.text s.keyword).Spans text i m
  takes_front : ∀ {d : Declared} {text rest : List Char} {i j : Nat} {new : Groups}, d.IsProper →
    Edge.word.holds (on text i) = true → text.drop i = s.keyword.toList ++ ' ' :: (d.call ++ rest) →
    Takes text tail (i + s.keyword.toList.length + 1 + d.call.length) j new →
    ∃ groups, Takes text s.head i j (new ++ groups) ∧ textsOf groups = [(2, d.list), (1, d.name)]
  takes_tail : ∀ {d : Declared} {text rest : List Char} {i : Nat}, d.IsProper →
    text.drop i = s.note d ++ ' ' :: '{' :: rest →
    ∃ new, Takes text tail i (i + (s.note d).length + 2) new ∧ s.result d new

/-- A head is matched where it stands, up to the brace behind it, and what it is written from is recorded. -/
theorem EndsWith.exists_takes {s : HeadStyle} {tail : Pattern} (hs : s.EndsWith tail) {d : Declared} (hd : d.IsProper)
    (hedge : Edge.word.holds (on text i) = true) (h : text.drop i = s.written d ++ '{' :: rest) :
    ∃ groups, Takes text s.head i (i + (s.written d).length + 1) groups ∧
      textsOf groups = (d.result.map fun type => (s.group, s.kept type)).toList ++ [(2, d.list), (1, d.name)] := by
  have hkeyword : text.drop i = s.keyword.toList ++ ' ' :: (d.call ++ (s.note d ++ ' ' :: '{' :: rest)) := by
    rw [h, written, List.append_assoc, List.cons_append, List.append_assoc, List.append_assoc, List.singleton_append]
  have hcall : text.drop (i + s.keyword.toList.length + 1) = d.call ++ (s.note d ++ ' ' :: '{' :: rest) :=
    drop_succ_of_drop (drop_add_length hkeyword)
  obtain ⟨new, htaken, hnew⟩ := hs.takes_tail hd (drop_add_length hcall)
  obtain ⟨groups, hhead, hgroups⟩ := hs.takes_front hd hedge hkeyword htaken
  have hlength : i + s.keyword.toList.length + 1 + d.call.length + (s.note d).length + 2 =
      i + (s.written d).length + 1 := by
    rw [written, List.length_append, List.length_cons, List.length_append, List.length_append, List.length_singleton]
    omega
  rw [hlength] at hhead
  refine ⟨new ++ groups, hhead, ?_⟩
  unfold result textsOf at hnew
  unfold textsOf at hgroups ⊢
  rw [List.map_append, hnew, hgroups]

/-- A head without a result ends with a blank and its brace. -/
theorem exists_takes_noResult {s : HeadStyle} {d : Declared} (hp : p.opening.mayBeEmpty = false)
    (hbrace : p.opening.chars '{' = false) (hresult : d.result = none) (h : text.drop i = s.note d ++ ' ' :: '{' :: rest)
    (hq : text.drop (i + 1) = '{' :: rest → Takes text q (i + 1) (i + 2) []) :
    ∃ new, Takes text (.seq blanks (.seq (opt p) (.seq blanks q))) i (i + (s.note d).length + 2) new ∧
      s.result d new := by
  rw [note_of_none s hresult] at h ⊢
  have hdrop : text.drop (i + 1) = '{' :: rest := drop_succ_of_drop h
  have hblanks : Takes text blanks (i + 1) (i + 1) [] := takes_noBlank (forall_mem_head? (by decide)) hdrop
  have hoption : Takes text (opt p) (i + 1) (i + 1) [] := takes_opt_none (not_spans_of_drop hp hdrop hbrace)
  refine ⟨[], (((hq hdrop).after hblanks).after hoption).after (takes_blank (forall_mem_head? (by decide)) h), ?_⟩
  unfold result
  rw [hresult]
  rfl

theorem result_of_some {s : HeadStyle} {d : Declared} (hresult : d.result = some type) (h : text.drop i = s.kept type ++ rest) :
    s.result d [(s.group, ⟨on text i, on text (i + (s.kept type).length)⟩)] := by
  unfold result textsOf
  rw [hresult, List.map_singleton, text_stretch h]
  rfl

def go : HeadStyle where
  keyword := "func"
  mark := " "
  head := Functions.goHead
  group := 4

def rust : HeadStyle where
  keyword := "fn"
  mark := " -> "
  head := Functions.rustHead
  group := 3
  kept := fun type => if "where".toList <:+ type ∧ type ≠ "where".toList then type.take (type.length - 5) else type

def php : HeadStyle where
  keyword := "function"
  mark := ": "
  head := Functions.phpHead
  group := 3

end HeadStyle

namespace HeadStyle

/-! ## Go -/

def goEnd : Pattern :=
  inOrder [blanks, opt (.alt (Functions.parameterList 3) (keep 4 [some1 (either isWord (among ['.', '*', '[', ']']))])),
    blanks, "\x7b"]

theorem go_endsWith : go.EndsWith goEnd where
  keyword_isName := ⟨'f', "unc".toList, rfl, rfl, List.all_eq_true.mp rfl⟩
  lt_group := by decide
  kept_isName := fun _ htype => htype
  spans_keyword := fun ⟨_, ⟨_, rfl⟩, m, hword, _⟩ => ⟨m, hword⟩
  takes_front {d text rest i j new} hd hedge h htail := by
    have hcall : text.drop (i + "func".toList.length + 1) = d.call ++ rest := drop_succ_of_drop (drop_add_length h)
    have hword := hd.head?_call rest
    have hreceiver : Takes text (optional ["(", .run (beyond [')']), ")", blanks]) (i + "func".toList.length + 1)
        (i + "func".toList.length + 1) [] := by
      refine takes_opt_none (not_spans_of_head? (by decide) fun c hc => ?_)
      exact beq_of_isWord (by decide) (hword c (hcall ▸ hc))
    obtain ⟨groups, hcalled, hgroups⟩ := takes_call hd hcall htail fun _ _ hdrop hlist =>
      takes_unopened (p := inOrder ["[", .run (beyond [']']), "]"]) (by decide) (by decide) hdrop hlist
    have hhead := takes_keyword hedge (fun c hc => not_isBlank_of_isWord (hword c hc)) h (hcalled.after hreceiver)
    exact ⟨groups, hhead, hgroups⟩
  takes_tail {d text rest i} hd h := by
    cases hresult : d.result with
    | none => exact exists_takes_noResult (by decide) (by decide) hresult h takes_brace
    | some type =>
      rw [note_of_some go hresult] at h ⊢
      have htype : IsName type := hd.result_isName type hresult
      have hdrop : text.drop (i + 1) = type ++ ' ' :: '{' :: rest := drop_succ_of_drop h
      have hword := htype.head?_append (' ' :: '{' :: rest)
      have hlist : ∀ e, ¬ (Functions.parameterList 3).Spans text (i + 1) e :=
        not_spans_of_head? (by decide) fun c hc => beq_of_isWord (by decide) (hword c (hdrop ▸ hc))
      have hrun : Takes text (some1 (either isWord (among ['.', '*', '[', ']']))) (i + 1) (i + 1 + type.length) [] :=
        takes_wordOr htype (by decide) hdrop
      have hkept := ((hrun.group (n := 4)).right hlist).left (q := .empty)
      have htail := (takes_result_brace hkept (drop_add_length hdrop)).after
        (takes_blank (fun c hc => not_isBlank_of_isWord (hword c hc)) h)
      have hlength : i + (go.mark.toList ++ type).length + 2 = i + 1 + type.length + 2 := by
        rw [List.length_append, ← Nat.add_assoc]
        rfl
      exact ⟨_, hlength ▸ htail, result_of_some hresult hdrop⟩

/-! ## PHP -/

def phpEnd : Pattern :=
  inOrder [blanks, optional [":", blanks, keep 3 [some1 (either isWord (among ['?', '\\', '|']))]], blanks, "\x7b"]

theorem php_endsWith : php.EndsWith phpEnd where
  keyword_isName := ⟨'f', "unction".toList, rfl, rfl, List.all_eq_true.mp rfl⟩
  lt_group := by decide
  kept_isName := fun _ htype => htype
  spans_keyword := fun ⟨_, ⟨_, rfl⟩, m, hword, _⟩ => ⟨m, hword⟩
  takes_front {d text rest i j new} hd hedge h htail := by
    have hcall : text.drop (i + "function".toList.length + 1) = d.call ++ rest :=
      drop_succ_of_drop (drop_add_length h)
    have hword := hd.head?_call rest
    have hreference : Takes text (opt "&") (i + "function".toList.length + 1) (i + "function".toList.length + 1) [] := by
      refine takes_opt_none (not_spans_of_head? (by decide) fun c hc => ?_)
      exact beq_of_isWord (by decide) (hword c (hcall ▸ hc))
    obtain ⟨groups, hcalled, hgroups⟩ := takes_call hd hcall htail fun _ _ _ hlist => hlist
    have hhead := takes_keyword hedge (fun c hc => not_isBlank_of_isWord (hword c hc)) h (hcalled.after hreference)
    exact ⟨groups, hhead, hgroups⟩
  takes_tail {d text rest i} hd h := by
    cases hresult : d.result with
    | none => exact exists_takes_noResult (by decide) (by decide) hresult h takes_brace
    | some type =>
      rw [note_of_some php hresult] at h ⊢
      have htype : IsName type := hd.result_isName type hresult
      have hblank : text.drop (i + 1) = ' ' :: (type ++ ' ' :: '{' :: rest) := drop_succ_of_drop h
      have hdrop : text.drop (i + 2) = type ++ ' ' :: '{' :: rest := drop_succ_of_drop hblank
      have hword := htype.head?_append (' ' :: '{' :: rest)
      have hrun : Takes text (some1 (either isWord (among ['?', '\\', '|']))) (i + 2) (i + 2 + type.length) [] :=
        takes_wordOr htype (by decide) hdrop
      have hcolon : Takes text ":" i (i + 1) [] := takes_text h
      have hkept := (((hrun.group (n := 3)).after
        (takes_blank (fun c hc => not_isBlank_of_isWord (hword c hc)) hblank)).after hcolon).left (q := .empty)
      have htail := (takes_result_brace hkept (drop_add_length hdrop)).after
        (takes_noBlank (forall_mem_head? (by decide)) h)
      have hlength : i + (php.mark.toList ++ type).length + 2 = i + 2 + type.length + 2 := by
        rw [List.length_append, ← Nat.add_assoc]
        rfl
      exact ⟨_, hlength ▸ htail, result_of_some hresult hdrop⟩

/-! ## Rust -/

def rustClause : Pattern :=
  inOrder [blanks, optional ["where", .one isBlank, .run (beyond ['{', ';'])], "\x7b"]

def rustEnd : Pattern :=
  .seq blanks (.seq (optional ["->", blanks, keep 3 [lazy1 (beyond ['{', ';'])]]) rustClause)

/-- The rest of a head is read from within a word only where the word goes on with `where`. -/
theorem not_spans_rustClause {word : List Char} (hne : word ≠ []) (hword : ∀ c ∈ word, isWord c = true)
    (hclause : word ≠ "where".toList) (h : text.drop i = word ++ ' ' :: rest) (e : Nat) : ¬ rustClause.Spans text i e := by
  obtain ⟨first, more, rfl⟩ := List.exists_cons_of_ne_nil hne
  have hfirst : isWord first = true := hword first List.mem_cons_self
  have hat : text[i]? = some first := by rw [← List.head?_drop, h]; rfl
  rintro ⟨a, ⟨hia, hblanks⟩, b, hoption, hbrace⟩
  obtain rfl : a = i := by
    by_contra hne
    have hblank := (hblanks.holds (by omega)).eq_true hat
    rw [not_isBlank_of_isWord hfirst] at hblank
    cases hblank
  rcases hoption with ⟨m, hwhere, _, ⟨hblank, rfl⟩, -⟩ | hnone
  · have hwithin : Throughout text isWord a m := (within_text (by decide)).throughout hwhere
    have hm : m = a + (first :: more).length :=
      eq_add_of_stop (fun c hc => not_isBlank_of_isWord (hword c hc)) (by decide) h hwhere.le hwithin hblank
    have hlength := eq_add_of_spans_text hwhere
    have htext := (drop_of_spans_text hwhere).symm.trans h
    exact hclause (List.append_inj_left htext (by omega)).symm
  · obtain rfl : b = a := hnone
    have hmark := hbrace.1.eq_true hat
    rw [beq_of_isWord (by decide) hfirst] at hmark
    cases hmark

theorem takes_noClause (h : text.drop i = '{' :: rest) :
    Takes text (.seq (optional ["where", .one isBlank, .run (beyond ['{', ';'])]) "\x7b") i (i + 1) [] :=
  (takes_brace h).after (takes_opt_none (not_spans_of_drop (by decide) h (by decide)))

theorem takes_rustClause {word : List Char} (hword : word = [] ∨ word = "where".toList)
    (h : text.drop i = word ++ ' ' :: '{' :: rest) : Takes text rustClause i (i + word.length + 2) [] := by
  rcases hword with rfl | rfl
  · have hdrop : text.drop (i + 1) = '{' :: rest := drop_succ_of_drop h
    exact (takes_noClause hdrop).after (takes_blank (forall_mem_head? (by decide)) h)
  · have hblank : text.drop (i + 5) = ' ' :: '{' :: rest := drop_add_length h
    have hdrop : text.drop (i + 6) = '{' :: rest := drop_succ_of_drop hblank
    have hrun : Takes text (.run (beyond ['{', ';'])) (i + 6) (i + 6) [] :=
      takes_run_nil hdrop (forall_mem_head? (by decide))
    have hone : Takes text (.one isBlank) (i + 5) (i + 6) [] := takes_one hblank (by decide)
    have hclause := ((hrun.after hone).after (takes_text h)).left (q := .empty)
    exact ((takes_brace hdrop).after hclause).after (takes_noBlank (forall_mem_head? (by decide)) h)

/-- A result falls into what is kept of it and a clause that is seen behind that, and no clause is seen earlier. -/
theorem exists_rust_kept (type : List Char) (hne : type ≠ []) : ∃ clause, type = rust.kept type ++ clause ∧
    (clause = [] ∨ clause = "where".toList) ∧ rust.kept type ≠ [] ∧
    ∀ l, 0 < l → l < (rust.kept type).length → type.drop l ≠ "where".toList := by
  have hkept : rust.kept type =
    if "where".toList <:+ type ∧ type ≠ "where".toList then type.take (type.length - 5) else type := rfl
  rw [hkept]
  split
  · rename_i hends
    obtain ⟨⟨front, rfl⟩, hwhole⟩ := hends
    have hfront : (front ++ "where".toList).take ((front ++ "where".toList).length - 5) = front := by
      rw [List.length_append]
      exact List.take_left
    rw [hfront]
    refine ⟨"where".toList, rfl, .inr rfl, fun hnil => hwhole (by rw [hnil, List.nil_append]), ?_⟩
    intro l _ hlt heq
    have hlength := congrArg List.length heq
    rw [List.length_drop, List.length_append] at hlength
    omega
  · rename_i hends
    refine ⟨[], (List.append_nil type).symm, .inl rfl, hne, fun l hl hlt heq => hends ⟨heq ▸ List.drop_suffix l type, ?_⟩⟩
    intro hwhole
    have hlength := congrArg List.length heq
    rw [List.length_drop, ← hwhole] at hlength
    omega

theorem kept_isName_of_rust (htype : IsName type) : IsName (rust.kept type) := by
  obtain ⟨clause, hsplit, -, hne, -⟩ := exists_rust_kept type htype.ne_nil
  obtain ⟨first, more, hkept⟩ := List.exists_cons_of_ne_nil hne
  obtain ⟨first', more', htext, hfirst, hmore⟩ := htype
  have hcons : first' :: more' = first :: (more ++ clause) := by rw [← htext, hsplit, hkept, List.cons_append]
  obtain ⟨rfl, rfl⟩ := List.cons.inj hcons
  exact ⟨first', more, hkept, hfirst, fun c hc => hmore c (List.mem_append_left clause hc)⟩

/-- Of a result the part before a clause is kept: the group stops where the clause is seen, or else where the result
ends. -/
theorem takes_rustResult (htype : IsName type) (h : text.drop i = type ++ ' ' :: '{' :: rest) :
    Takes text (.seq (keep 3 [lazy1 (beyond ['{', ';'])]) rustClause) i (i + type.length + 2)
      [(3, ⟨on text i, on text (i + (rust.kept type).length)⟩)] := by
  obtain ⟨clause, hsplit, hclause, hkept, hearlier⟩ := exists_rust_kept type htype.ne_nil
  have hlength : type.length = (rust.kept type).length + clause.length := by
    rw [← List.length_append, ← hsplit]
  have hkeptDrop : text.drop i = rust.kept type ++ (clause ++ ' ' :: '{' :: rest) := by
    rw [h, ← List.append_assoc, ← hsplit]
  have hrest := takes_rustClause hclause (drop_add_length hkeptDrop)
  have hrun : Throughout text (beyond ['{', ';']) i (i + (rust.kept type).length) := by
    refine throughout_of_drop hkeptDrop fun c hc => ?_
    have hcword : isWord c = true := htype.isWord (hsplit ▸ List.mem_append_left clause hc)
    rw [beyond, List.contains_cons, List.contains_cons, beq_of_isWord (by decide) hcword,
      beq_of_isWord (by decide) hcword]
    rfl
  have hbefore : ∀ l, i < l → l < i + (rust.kept type).length → ∀ e, ¬ rustClause.Spans text l e := by
    intro l hl hlt
    obtain ⟨m, rfl⟩ := Nat.exists_eq_add_of_lt hl
    have hm : m + 1 < (rust.kept type).length := by omega
    have hwithin : text.drop (i + m + 1) = type.drop (m + 1) ++ ' ' :: '{' :: rest := by
      rw [Nat.add_assoc, ← List.drop_drop, h, List.drop_append_of_le_length (by omega)]
    refine not_spans_rustClause ?_ (fun c hc => htype.isWord (List.mem_of_mem_drop hc))
      (hearlier (m + 1) (Nat.succ_pos m) hm) hwithin
    exact List.ne_nil_of_length_pos (by rw [List.length_drop]; omega)
  have hpos : 0 < (rust.kept type).length := List.length_pos_of_ne_nil hkept
  have hkeep := hrest.keep_lazy1_seq (n := 3) (by omega) hrun hbefore
  rw [hlength, ← Nat.add_assoc]
  exact hkeep

theorem rust_endsWith : rust.EndsWith rustEnd where
  keyword_isName := ⟨'f', "n".toList, rfl, rfl, List.all_eq_true.mp rfl⟩
  lt_group := by decide
  kept_isName := fun _ htype => kept_isName_of_rust htype
  spans_keyword := fun ⟨_, ⟨_, rfl⟩, m, hword, _⟩ => ⟨m, hword⟩
  takes_front {d text rest i j new} hd hedge h htail := by
    have hcall : text.drop (i + "fn".toList.length + 1) = d.call ++ rest := drop_succ_of_drop (drop_add_length h)
    have hword := hd.head?_call rest
    obtain ⟨groups, hcalled, hgroups⟩ := takes_call hd hcall htail fun _ _ hdrop hlist =>
      takes_unopened (p := inOrder ["<", .run (beyond ['>']), ">"]) (by decide) (by decide) hdrop hlist
    exact ⟨groups, takes_keyword hedge (fun c hc => not_isBlank_of_isWord (hword c hc)) h hcalled, hgroups⟩
  takes_tail {d text rest i} hd h := by
    cases hresult : d.result with
    | none => exact exists_takes_noResult (by decide) (by decide) hresult h takes_noClause
    | some type =>
      rw [note_of_some rust hresult] at h ⊢
      have htype : IsName type := hd.result_isName type hresult
      have harrow : text.drop (i + 1) = "->".toList ++ ' ' :: (type ++ ' ' :: '{' :: rest) := drop_succ_of_drop h
      have hblank : text.drop (i + 3) = ' ' :: (type ++ ' ' :: '{' :: rest) := drop_add_length harrow
      have hdrop : text.drop (i + 4) = type ++ ' ' :: '{' :: rest := drop_succ_of_drop hblank
      have hword := htype.head?_append (' ' :: '{' :: rest)
      have hkeep := takes_rustResult htype hdrop
      have harrowTaken : Takes text "->" (i + 1) (i + 3) [] := takes_text harrow
      have hblankTaken : Takes text blanks (i + 3) (i + 4) [] :=
        takes_blank (fun c hc => not_isBlank_of_isWord (hword c hc)) hblank
      have hoption := Takes.opt_seq (takes_seq_assoc.mpr ((takes_seq_assoc.mpr (hkeep.after hblankTaken)).after harrowTaken))
      have htail := hoption.after (takes_blank (forall_mem_head? (by decide)) h)
      have hlength : i + (rust.mark.toList ++ type).length + 2 = i + 4 + type.length + 2 := by
        rw [List.length_append, ← Nat.add_assoc]
        rfl
      obtain ⟨clause, hsplit, -⟩ := exists_rust_kept type htype.ne_nil
      have hkeptDrop : text.drop (i + 4) = rust.kept type ++ (clause ++ ' ' :: '{' :: rest) := by
        rw [hdrop, ← List.append_assoc, ← hsplit]
      exact ⟨_, hlength ▸ htail, result_of_some hresult hkeptDrop⟩

/-! ## What is read off a declaration -/

variable {s : HeadStyle} {tail : Pattern} {d : Declared} {above : List Char} {k e : Nat}

/-- No head is matched from within a body that does not hold the keyword, nor from the end of its line. -/
theorem EndsWith.not_spans_body (hs : s.EndsWith tail) {body : List Char} (hbody : ¬ s.keyword.toList <:+: body)
    (hrest : ∀ c ∈ rest.head?, c = '\n') (h : text.drop i = body ++ '}' :: rest) (hik : i ≤ k)
    (hk : k < i + (body ++ ['}']).length + 1) : ¬ s.head.Spans text k e := by
  intro hspans
  obtain ⟨m, hword⟩ := hs.spans_keyword hspans
  have hdrop : text.drop i = (body ++ ['}']) ++ rest := by rw [h, List.append_assoc, List.singleton_append]
  have hbrace : '}' ∉ s.keyword.toList := hs.keyword_isName.not_mem (by decide)
  have hfront : ¬ s.keyword.toList <:+: body ++ ['}'] := by
    intro hinfix
    rcases List.infix_concat_iff.mp hinfix with hsuffix | hinfix
    · rcases List.suffix_concat_iff.mp hsuffix with hnil | ⟨front, hlast, -⟩
      · exact hs.keyword_isName.ne_nil hnil
      · exact hbrace (hlast ▸ List.mem_append_right _ List.mem_cons_self)
    · exact hbody hinfix
  have hlast : ∀ c ∈ (body ++ ['}']).getLast?, c ∉ s.keyword.toList := by
    rw [List.getLast?_concat]
    intro c hc
    obtain rfl := Option.some.inj hc
    exact hbrace
  rcases Nat.lt_or_ge k (i + (body ++ ['}']).length) with hlt | hge
  · exact not_spans_text hdrop hfront hlast hik hlt hword
  · obtain rfl : k = i + (body ++ ['}']).length := by omega
    have hbegins := (drop_add_length hdrop).symm.trans (drop_of_spans_text hword)
    obtain ⟨first, more, hkeyword, hfirst, -⟩ := hs.keyword_isName
    rw [hkeyword] at hbegins
    have hnewline := hrest first (by rw [hbegins]; rfl)
    rw [hnewline] at hfirst
    cases hfirst

theorem EndsWith.lookup_texts (hs : s.EndsWith tail) {n : Nat} (hn : n ≤ 2) (result : Option (List Char))
    (more : List (Nat × List Char)) :
    ((result.map fun type => (s.group, type)).toList ++ more).lookup n = more.lookup n := by
  have hgroup : (n == s.group) = false := by
    have hlt := hs.lt_group
    rw [beq_eq_false_iff_ne]
    omega
  cases result with
  | none => rfl
  | some type => rw [Option.map_some, Option.toList_some, List.singleton_append, List.lookup_cons, hgroup]

/-- What a match of a head tells is what the declaration stands for on its line. -/
theorem EndsWith.ofHead_eq (hs : s.EndsWith tail) (score : Scorer) (hd : d.IsProper) {m : Match} {line : Nat}
    (hgroups : textsOf m.groups =
      (d.result.map fun type => (s.group, s.kept type)).toList ++ [(2, d.list), (1, d.name)])
    (hline : m.start.line = line) (hstop : m.stop.rest = d.body ++ '}' :: rest) :
    Functions.ofHead score m (d.result.map s.kept) = d.function score line (d.result.map s.kept) := by
  have hmap : (d.result.map fun type => (s.group, s.kept type)) =
      (d.result.map s.kept).map fun type => (s.group, type) := Option.map_map .. |>.symm
  rw [hmap] at hgroups
  have hname : m.text? 1 = some d.name := by
    rw [m.text?_eq_lookup, hgroups, hs.lookup_texts (by decide)]
    rfl
  have hlist : m.text? 2 = some d.list := by
    rw [m.text?_eq_lookup, hgroups, hs.lookup_texts (by decide)]
    rfl
  have hresult : Functions.tidy (d.result.map s.kept) = (d.result.map s.kept).map String.ofList := by
    cases hresult : d.result with
    | none => rfl
    | some type => exact tidy_name (hs.kept_isName type (hd.result_isName type hresult))
  unfold Functions.ofHead Declared.function
  rw [Match.groupText, hname, hlist, hline, hstop, hd.bracedOpen_body, hd.parametersOf_list, hresult]
  rfl

/-- A declaration on lines of its own is read as it is written, with what is kept of its result. -/
theorem EndsWith.readsOn (hs : s.EndsWith tail) (score : Scorer) (read : Match → Option Function) (hd : d.IsProper)
    (hbody : ¬ s.keyword.toList <:+: d.body)
    (hread : ∀ m, textsOf m.groups =
      (d.result.map fun type => (s.group, s.kept type)).toList ++ [(2, d.list), (1, d.name)] →
      read m = some (Functions.ofHead score m (d.result.map s.kept))) :
    s.head.ReadsOn read (s.written d ++ d.block) fun line => [d.function score line (d.result.map s.kept)] := by
  intro above rest habove hrest
  generalize htext : above ++ (s.written d ++ d.block ++ rest) = text
  have hdrop : text.drop above.length = s.written d ++ '{' :: (d.body ++ '}' :: rest) := by
    rw [← htext, List.drop_left, Declared.block, List.append_assoc, List.cons_append, List.append_assoc,
      List.singleton_append]
  have hbodyDrop : text.drop (above.length + (s.written d).length + 1) = d.body ++ '}' :: rest :=
    drop_succ_of_drop (drop_add_length hdrop)
  have hedge : Edge.word.holds (on text above.length) = true := by
    rw [← htext]
    refine wordEdge_append (fun c hc => by rw [habove c hc]; decide) ?_
    obtain ⟨first, more, hkeyword, hfirst, -⟩ := hs.keyword_isName
    rw [written, hkeyword]
    exact isWord_of_nameStart hfirst
  obtain ⟨groups, htaken, hgroups⟩ := hs.exists_takes hd hedge hdrop
  have hfunction := hread ⟨⟨on text above.length, on text (above.length + (s.written d).length + 1)⟩, groups⟩ hgroups
  have hmatch := reads_match read htaken.finds
  have hlength : above.length + (s.written d ++ d.block).length + 1 =
      above.length + (s.written d).length + 1 + (d.body ++ ['}']).length + 1 := by
    rw [List.length_append, Declared.block, List.length_cons]
    omega
  have hafter : s.head.Reads read text (above.length + (s.written d).length + 1)
      (above.length + (s.written d ++ d.block).length + 1) [] := by
    rw [hlength]
    exact reads_nil (by omega) fun k e hik hk => hs.not_spans_body hbody hrest hbodyDrop hik hk
  have hreads := hmatch.trans hafter
  have hline : (on text above.length).line = above.count '\n' + 1 := by rw [line_on, ← htext, List.take_left]
  rw [hfunction, List.append_nil, hs.ofHead_eq score hd hgroups hline hbodyDrop] at hreads
  exact hreads

end HeadStyle

end CodeCensus
