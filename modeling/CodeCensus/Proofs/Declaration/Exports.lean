import CodeCensus.Declaration.Exports
import CodeCensus.Proofs.Declaration.Names
import CodeCensus.Proofs.Pattern.Search
import CodeCensus.Proofs.Pattern.Words

/-! Which words are reported as the names of exports. The word behind the words that declare something is taken
without a look at what it is, so a reserved word is reported where one stands in that place. -/

namespace CodeCensus.Exports

open Text Pattern Cursor

def reservedWords : List String := ["class", "extends", "function", "new", "enum", "const", "var"]

/-! ## Exports as written -/

/-- A word that is no part of a longer one. -/
structure IsWhole (word after : List Char) : Prop where
  ne_nil : word ≠ []
  isWord : ∀ c ∈ word, wordOrDollar c = true
  ends : ∀ c ∈ after.head?, wordOrDollar c = false

/-- A word with blanks behind it, or nothing where it is left out. -/
def IsMark (word : String) (mark : List Char) : Prop :=
  mark = [] ∨ ∃ gap, IsBlanks1 gap ∧ mark = word.toList ++ gap

def IsClassLead (lead : List Char) : Prop := ∃ gap, IsBlanks1 gap ∧ lead = "class".toList ++ gap

def IsFunctionLead (lead : List Char) : Prop :=
  ∃ gap star gap', IsBlanks gap ∧ (star = [] ∨ star = ['*']) ∧ IsBlanks gap' ∧
    lead = "function".toList ++ (gap ++ (star ++ gap'))

/-- A text begins with a default export in which a certain word stands where a name would. -/
def PutsStandard (text word : List Char) : Prop :=
  ∃ gap gap' mark lead after, IsBlanks1 gap ∧ IsBlanks1 gap' ∧ IsMark "async" mark ∧
    (IsClassLead lead ∨ IsFunctionLead lead ∨ lead = [] ∧ ¬ "function".toList <+: word) ∧ IsWhole word after ∧
    text = "export".toList ++ (gap ++ ("default".toList ++ (gap' ++ (mark ++ (lead ++ (word ++ after))))))

def declaringWords : List String :=
  ["const", "let", "var", "function", "function*", "class", "interface", "type", "enum"]

def IsKind (kind : List Char) : Prop :=
  (∃ word ∈ declaringWords, kind = word.toList) ∨
    ∃ gap, IsBlanks1 gap ∧ kind = "abstract".toList ++ (gap ++ "class".toList)

/-- A text begins with an exported declaration in which a certain word stands where a name would. -/
def PutsNamed (text word : List Char) : Prop :=
  ∃ gap mark mark' kind gap' after, IsBlanks1 gap ∧ IsMark "declare" mark ∧ IsMark "async" mark' ∧ IsKind kind ∧
    IsBlanks1 gap' ∧ IsWhole word after ∧
    text = "export".toList ++ (gap ++ (mark ++ (mark' ++ (kind ++ (gap' ++ (word ++ after))))))

/-! ## Words and marks -/

variable {text word word' after after' gap rest mark : List Char} {i j k e : Nat} {new : Groups}

namespace IsWhole

theorem takeWhile_eq (h : IsWhole word after) : (word ++ after).takeWhile wordOrDollar = word := by
  rw [List.takeWhile_append_of_pos h.isWord]
  cases after with
  | nil => exact List.append_nil word
  | cons c after =>
    have hc := h.ends c rfl
    rw [List.takeWhile_cons_of_neg (by rw [hc]; decide), List.append_nil]

theorem eq_of_append (h : IsWhole word after) (h' : IsWhole word' after') (heq : word ++ after = word' ++ after') :
    word = word' := by
  rw [← h.takeWhile_eq, heq, h'.takeWhile_eq]

theorem eq_of_gap (h : IsWhole word after) (hne : word' ≠ []) (hword : ∀ c ∈ word', wordOrDollar c = true)
    (hgap : IsBlanks1 gap) (heq : word ++ after = word' ++ (gap ++ rest)) : word = word' :=
  h.eq_of_append ⟨hne, hword, fun c hc => not_wordOrDollar_of_isBlank (hgap.head?_append rest c hc)⟩ heq

theorem prefix_of_prefix_append (h : IsWhole word after) {front : List Char}
    (hfront : ∀ c ∈ front, wordOrDollar c = true) (hbegins : front <+: word ++ after) : front <+: word := by
  obtain ⟨more, hmore⟩ := hbegins
  have htake := h.takeWhile_eq
  rw [← hmore, List.takeWhile_append_of_pos hfront] at htake
  exact ⟨_, htake⟩

theorem head?_append (h : IsWhole word after) : ∀ c ∈ (word ++ after).head?, isBlank c = false :=
  head?_append_of_forall h.ne_nil (fun c hc => not_isBlank_of_wordOrDollar (h.isWord c hc)) after

theorem exists_of_spans (h : (some1 wordOrDollar).Spans text i j) :
    ∃ word after, text.drop i = word ++ after ∧ IsWhole word after := by
  obtain ⟨front, hdrop, -, hne, hfront⟩ := exists_append_of_spans_some1 h
  obtain ⟨more, after, hmore, hword, hafter⟩ := exists_run wordOrDollar (text.drop j)
  refine ⟨front ++ more, after, by rw [hdrop, hmore, List.append_assoc], ?_, fun c hc => ?_, hafter⟩
  · exact List.append_ne_nil_of_left_ne_nil hne more
  · exact (List.mem_append.mp hc).elim (hfront c) (hword c)

theorem takes (h : IsWhole word after) (hdrop : text.drop i = word ++ after) :
    Takes text (some1 wordOrDollar) i (i + word.length) [] :=
  takes_some1_of_ne_nil h.ne_nil hdrop h.isWord h.ends

end IsWhole

theorem takes_mark {word : String} (hmark : IsMark word mark) (h : text.drop i = mark ++ rest)
    (hrest : ∀ c ∈ rest.head?, isBlank c = false)
    (hnone : mark = [] → ¬ ∃ gap rest', IsBlanks1 gap ∧ rest = word.toList ++ (gap ++ rest')) :
    Takes text (Pattern.optional [Pattern.text word, blanks1]) i (i + mark.length) [] := by
  rcases hmark with rfl | ⟨gap, hgap, rfl⟩
  · refine takes_opt_none fun e hspans => hnone rfl ?_
    obtain ⟨m, hword, hblanks⟩ := hspans
    obtain ⟨gap, hdrop, -, hgap⟩ := exists_gap_of_spans_blanks1 hblanks
    rw [List.nil_append] at h
    exact ⟨gap, _, hgap, by rw [← h, drop_of_spans_text hword, hdrop]⟩
  · rw [List.append_assoc] at h
    have hblanks := takes_blanks1 (drop_add_length h) hgap hrest
    rw [List.length_append, ← Nat.add_assoc]
    exact ((takes_text h).seq hblanks).left

/-- Behind some blanks, a word with blanks behind it is there or is left out. -/
theorem exists_mark_of_spans {word : String} (h : (Pattern.optional [Pattern.text word, blanks1]).Spans text i j) :
    ∃ mark, IsMark word mark ∧ text.drop i = mark ++ text.drop j := by
  rcases h with ⟨m, hword, hblanks⟩ | rfl
  · obtain ⟨gap, hdrop, -, hgap⟩ := exists_gap_of_spans_blanks1 hblanks
    exact ⟨_, .inr ⟨gap, hgap, rfl⟩, by rw [drop_of_spans_text hword, hdrop, List.append_assoc]⟩
  · exact ⟨[], .inl rfl, rfl⟩

/-! ## Default exports -/

def classWord : Pattern := inOrder ["class", blanks1, keep 1 [some1 wordOrDollar]]

def functionWord : Pattern := inOrder ["function", blanks, opt "*", blanks, keep 2 [some1 wordOrDollar]]

def otherWord : Pattern := keep 3 [some1 wordOrDollar]

def subject : Pattern := opt (oneOf [classWord, functionWord, otherWord])

/-- Where the marks of a default export end, its subject is looked for. -/
theorem exists_takes_standard {gap' tail : List Char} (hedge : Edge.word.holds (on text i) = true)
    (hgap : IsBlanks1 gap) (hgap' : IsBlanks1 gap') (hmark : IsMark "async" mark)
    (htail : ∀ c ∈ tail.head?, isBlank c = false)
    (hnone : mark = [] → ¬ ∃ gap rest, IsBlanks1 gap ∧ tail = "async".toList ++ (gap ++ rest))
    (h : text.drop i = "export".toList ++ (gap ++ ("default".toList ++ (gap' ++ (mark ++ tail))))) :
    ∃ k, text.drop k = tail ∧ ∀ e new, Takes text subject k e new → Takes text standardExport i e new := by
  have hgapDrop := drop_add_length h
  have hdefault := drop_add_length hgapDrop
  have hgapDrop' := drop_add_length hdefault
  have hmarkDrop := drop_add_length hgapDrop'
  have hmarkHead : ∀ c ∈ (mark ++ tail).head?, isBlank c = false := by
    rcases hmark with rfl | ⟨more, -, rfl⟩
    · exact htail
    · exact forall_mem_head? (by decide)
  refine ⟨_, drop_add_length hmarkDrop, fun e new hsubject => ?_⟩
  have hasync := hsubject.after (takes_mark hmark hmarkDrop htail hnone)
  have hdefaultTaken := (hasync.after (takes_blanks1 hgapDrop' hgap' hmarkHead)).after (takes_text hdefault)
  exact ((hdefaultTaken.after (takes_blanks1 hgapDrop hgap (forall_mem_head? (by decide)))).after (takes_text h)).after
    (takes_edge hedge)

theorem takes_classWord (hgap : IsBlanks1 gap) (hword : IsWhole word after)
    (h : text.drop k = "class".toList ++ (gap ++ (word ++ after))) :
    ∃ a, text.drop a = word ++ after ∧
      Takes text subject k (a + word.length) [(1, ⟨on text a, on text (a + word.length)⟩)] := by
  have hgapDrop := drop_add_length h
  have hwordDrop := drop_add_length hgapDrop
  have hname := (hword.takes hwordDrop).group (n := 1)
  exact ⟨_, hwordDrop,
    ((hname.after (takes_blanks1 hgapDrop hgap hword.head?_append)).after (takes_text h)).left.left⟩

theorem takes_functionWord {gap' star : List Char} (hgap : IsBlanks gap) (hstar : star = [] ∨ star = ['*'])
    (hgap' : IsBlanks gap') (hword : IsWhole word after)
    (h : text.drop k = "function".toList ++ (gap ++ (star ++ (gap' ++ (word ++ after))))) :
    ∃ a, text.drop a = word ++ after ∧
      Takes text subject k (a + word.length) [(2, ⟨on text a, on text (a + word.length)⟩)] := by
  have hgapDrop := drop_add_length h
  have hnotClass : ∀ e, ¬ classWord.Spans text k e := not_spans_of_drop (by decide) h (by decide)
  have htaken {l : Nat} (hwordDrop : text.drop l = word ++ after)
      (hmarks : ∀ new, Takes text (keep 2 [some1 wordOrDollar]) l (l + word.length) new →
        Takes text functionWord k (l + word.length) new) :
      Takes text subject k (l + word.length) [(2, ⟨on text l, on text (l + word.length)⟩)] :=
    ((hmarks _ ((hword.takes hwordDrop).group (n := 2))).left.right hnotClass).left
  rcases hstar with rfl | rfl
  · have hboth : text.drop (k + "function".toList.length) = (gap ++ gap') ++ (word ++ after) := by
      rw [hgapDrop, List.nil_append, List.append_assoc]
    have hwordDrop := drop_add_length hboth
    have hblanks := takes_blanks hboth (List.forall_mem_append.mpr ⟨hgap, hgap'⟩) hword.head?_append
    have hnotStar : ∀ c ∈ (word ++ after).head?, (c == '*') = false :=
      head?_append_of_forall hword.ne_nil (fun c hc => by
        rw [beq_eq_false_iff_ne]
        rintro rfl
        exact absurd (hword.isWord _ hc) (by decide)) after
    refine ⟨_, hwordDrop, htaken hwordDrop fun new hname => ?_⟩
    have hrest := hname.after (takes_run_nil hwordDrop hword.head?_append)
    have hnoStar := takes_opt_none (not_spans_of_head? (p := Pattern.text "*") (by decide) (hwordDrop ▸ hnotStar))
    exact ((hrest.after hnoStar).after hblanks).after (takes_text h)
  · have hstarDrop := drop_add_length hgapDrop
    have hgapDrop' := drop_add_length hstarDrop
    have hwordDrop := drop_add_length hgapDrop'
    refine ⟨_, hwordDrop, htaken hwordDrop fun new hname => ?_⟩
    have hrest := hname.after (takes_blanks hgapDrop' hgap' hword.head?_append)
    have hstarTaken : Takes text (opt "*") _ _ [] := (takes_text hstarDrop).left
    exact ((hrest.after hstarTaken).after (takes_blanks hgapDrop hgap (forall_mem_head? (by decide)))).after
      (takes_text h)

theorem takes_otherWord (hclass : ∀ e, ¬ classWord.Spans text k e) (hfunction : ∀ e, ¬ functionWord.Spans text k e)
    (hword : IsWhole word after) (h : text.drop k = word ++ after) :
    Takes text subject k (k + word.length) [(3, ⟨on text k, on text (k + word.length)⟩)] :=
  ((((hword.takes h).group (n := 3)).right hfunction).right hclass).left

theorem exists_of_spans_classWord (h : classWord.Spans text k e) : ∃ gap word after, IsBlanks1 gap ∧
    IsWhole word after ∧ text.drop k = "class".toList ++ (gap ++ (word ++ after)) := by
  obtain ⟨m, hclass, l, hblanks, hname⟩ := h
  obtain ⟨gap, hgapDrop, -, hgap⟩ := exists_gap_of_spans_blanks1 hblanks
  obtain ⟨word, after, hwordDrop, hword⟩ := IsWhole.exists_of_spans hname
  exact ⟨gap, word, after, hgap, hword, by rw [drop_of_spans_text hclass, hgapDrop, hwordDrop]⟩

theorem exists_of_spans_functionWord (h : functionWord.Spans text k e) : ∃ lead word after, IsFunctionLead lead ∧
    IsWhole word after ∧ text.drop k = lead ++ (word ++ after) := by
  obtain ⟨m, hfunction, l, hblanks, n, hstar, r, hblanks', hname⟩ := h
  obtain ⟨gap, hgapDrop, -, hgap⟩ := exists_append_of_spans_run hblanks
  obtain ⟨gap', hgapDrop', -, hgap'⟩ := exists_append_of_spans_run hblanks'
  obtain ⟨word, after, hwordDrop, hword⟩ := IsWhole.exists_of_spans hname
  have hstarDrop : ∃ star, (star = [] ∨ star = ['*']) ∧ text.drop l = star ++ text.drop n := by
    rcases hstar with hstar | rfl
    · exact ⟨['*'], .inr rfl, drop_of_spans_text hstar⟩
    · exact ⟨[], .inl rfl, rfl⟩
  obtain ⟨star, hstar, hstarDrop⟩ := hstarDrop
  refine ⟨_, word, after, ⟨gap, star, gap', hgap, hstar, hgap', rfl⟩, hword, ?_⟩
  rw [drop_of_spans_text hfunction, hgapDrop, hstarDrop, hgapDrop', hwordDrop]
  simp only [List.append_assoc]

theorem takes_noWord (hclass : ∀ e, ¬ classWord.Spans text k e) (hfunction : ∀ e, ¬ functionWord.Spans text k e)
    (hother : ∀ e, ¬ otherWord.Spans text k e) : Takes text subject k k [] := by
  refine takes_opt_none fun e hspans => ?_
  rcases hspans with h | h | h
  · exact hclass e h
  · exact hfunction e h
  · exact hother e h

/-- What the subject of a default export is taken for, if it is any word. -/
structure TakesWord (text : List Char) (k : Nat) (word : List Char) (a n : Nat) : Prop where
  ne_nil : word ≠ []
  isGroup : n = 1 ∨ n = 2 ∨ n = 3
  stretch : Stretch.text ⟨on text a, on text (a + word.length)⟩ = word
  takes : Takes text subject k (a + word.length) [(n, ⟨on text a, on text (a + word.length)⟩)]

theorem exists_takes_lead {lead : List Char} (hlead : IsClassLead lead ∨ IsFunctionLead lead)
    (hword : IsWhole word after) (h : text.drop k = lead ++ (word ++ after)) : ∃ a n, TakesWord text k word a n := by
  rcases hlead with ⟨gap, hgap, rfl⟩ | ⟨gap, star, gap', hgap, hstar, hgap', rfl⟩
  · rw [List.append_assoc] at h
    obtain ⟨a, ha, htakes⟩ := takes_classWord hgap hword h
    exact ⟨a, 1, hword.ne_nil, .inl rfl, text_stretch ha, htakes⟩
  · simp only [List.append_assoc] at h
    obtain ⟨a, ha, htakes⟩ := takes_functionWord hgap hstar hgap' hword h
    exact ⟨a, 2, hword.ne_nil, .inr (.inl rfl), text_stretch ha, htakes⟩

/-- A word that no other word of the language leads to is taken itself, unless it begins with one of them. -/
theorem exists_takes_plain (hclass : word ≠ "class".toList) (hfunction : ¬ "function".toList <+: word)
    (hword : IsWhole word after) (h : text.drop k = word ++ after) : TakesWord text k word k 3 := by
  have hnotClass (e : Nat) : ¬ classWord.Spans text k e := by
    intro hspans
    obtain ⟨gap, word', after', hgap, -, hdrop⟩ := exists_of_spans_classWord hspans
    rw [h] at hdrop
    exact hclass (hword.eq_of_gap (by decide) (List.all_eq_true.mp rfl) hgap hdrop)
  have hnotFunction (e : Nat) : ¬ functionWord.Spans text k e := by
    rintro ⟨m, hspans, -⟩
    have hprefix : "function".toList <+: word ++ after := ⟨_, (h ▸ drop_of_spans_text hspans).symm⟩
    exact hfunction (hword.prefix_of_prefix_append (List.all_eq_true.mp rfl) hprefix)
  exact ⟨hword.ne_nil, .inr (.inr rfl), text_stretch h, takes_otherWord hnotClass hnotFunction hword h⟩

theorem exists_takes_subject (text : List Char) (k : Nat) : Takes text subject k k [] ∨
    ∃ lead word after a n, TakesWord text k word a n ∧ IsWhole word after ∧ text.drop k = lead ++ (word ++ after) ∧
      (IsClassLead lead ∨ IsFunctionLead lead ∨
        lead = [] ∧ (¬ "function".toList <+: word ∨ word = "function".toList)) := by
  by_cases hlead : ∃ lead word after, (IsClassLead lead ∨ IsFunctionLead lead) ∧ IsWhole word after ∧
      text.drop k = lead ++ (word ++ after)
  · obtain ⟨lead, word, after, hlead, hword, h⟩ := hlead
    obtain ⟨a, n, htakes⟩ := exists_takes_lead hlead hword h
    exact .inr ⟨lead, word, after, a, n, htakes, hword, h, hlead.imp_right .inl⟩
  · have hclass (e : Nat) : ¬ classWord.Spans text k e := fun hspans => by
      obtain ⟨gap, word, after, hgap, hword, h⟩ := exists_of_spans_classWord hspans
      exact hlead ⟨_, word, after, .inl ⟨gap, hgap, rfl⟩, hword, by rw [h, List.append_assoc]⟩
    have hfunction (e : Nat) : ¬ functionWord.Spans text k e := fun hspans => by
      obtain ⟨lead, word, after, hfunctionLead, hword, h⟩ := exists_of_spans_functionWord hspans
      exact hlead ⟨lead, word, after, .inr hfunctionLead, hword, h⟩
    by_cases hother : ∃ e, otherWord.Spans text k e
    · obtain ⟨e, hother⟩ := hother
      obtain ⟨word, after, h, hword⟩ := IsWhole.exists_of_spans hother
      refine .inr ⟨[], word, after, k, 3, ?_, hword, h, .inr (.inr ⟨rfl, ?_⟩)⟩
      · exact ⟨hword.ne_nil, .inr (.inr rfl), text_stretch h, takes_otherWord hclass hfunction hword h⟩
      · by_contra! hprefix
        obtain ⟨⟨more, rfl⟩, hne⟩ := hprefix
        have hmore : IsWhole more after :=
          ⟨fun hnil => hne (by rw [hnil, List.append_nil]), fun c hc => hword.isWord c (List.mem_append_right _ hc),
            hword.ends⟩
        refine hlead ⟨"function".toList, more, after, .inr ⟨[], [], [], ?_⟩, hmore, by rw [h, List.append_assoc]⟩
        exact ⟨List.forall_mem_nil _, .inl rfl, List.forall_mem_nil _, rfl⟩
    · exact .inl (takes_noWord hclass hfunction (not_exists.mp hother))

/-! ### The name of a default export -/

theorem standardName_of_nil {m : Match} (h : m.groups = []) : standardName m = "default" := by
  have hnone (n : Nat) : m.groupText n = [] := by rw [Match.groupText, Match.text?, Match.group?, h]; rfl
  rw [standardName, hnone, hnone, hnone]
  rfl

theorem standardName_of_takes {m : Match} {a n : Nat} (h : TakesWord text k word a n)
    (hm : m.groups = [(n, ⟨on text a, on text (a + word.length)⟩)]) :
    standardName m = if String.ofList word ∈ namelessWords then "default" else String.ofList word := by
  obtain ⟨first, more, hword⟩ := List.exists_cons_of_ne_nil h.ne_nil
  have hname : [m.groupText 1, m.groupText 2, m.groupText 3].find? (fun name => !name.isEmpty) = some word := by
    have htext (r : Nat) : m.groupText r = if r = n then word else [] := by
      rw [Match.groupText, Match.text?, Match.group?, hm, List.lookup_cons]
      split <;> rename_i heq
      · rw [Option.map_some, h.stretch, if_pos (beq_iff_eq.mp heq)]
        rfl
      · rw [if_neg (beq_eq_false_iff_ne.mp heq)]
        rfl
    rcases h.isGroup with rfl | rfl | rfl <;> simp [htext, hword]
  rw [standardName, hname]
  simp only [List.contains_iff_mem]

theorem groups_eq_of_takes {p : Pattern} {m : Match} (hm : p.Finds text m i j) (h : Takes text p i e new) :
    m.groups = new :=
  congrArg Match.groups (Option.some.inj (hm.1.symm.trans h.finds.1))

theorem standardName_of_puts {m : Match} (hm : standardExport.Finds text m i j) (h : PutsStandard (text.drop i) word)
    (hname : String.ofList word ∉ namelessWords) : standardName m = String.ofList word := by
  obtain ⟨gap, gap', mark, lead, after, hgap, hgap', hmark, hlead, hword, hdrop⟩ := h
  obtain ⟨-, ⟨hedge, -⟩, -⟩ := hm.spans
  have hne (other : String) (hother : other ∈ namelessWords) : word ≠ other.toList := by
    rintro rfl
    rw [String.ofList_toList] at hname
    exact hname hother
  have hlead' : (IsClassLead lead ∨ IsFunctionLead lead) ∨ lead = [] ∧ ¬ "function".toList <+: word :=
    or_assoc.mpr hlead
  have htail : (∀ c ∈ (lead ++ (word ++ after)).head?, isBlank c = false) ∧
      ¬ ∃ gap rest, IsBlanks1 gap ∧ lead ++ (word ++ after) = "async".toList ++ (gap ++ rest) := by
    rcases hlead with ⟨more, -, rfl⟩ | ⟨more, star, more', -, -, -, rfl⟩ | ⟨rfl, -⟩
    · exact ⟨forall_mem_head? (by decide), fun ⟨_, _, _, heq⟩ => absurd (List.cons.inj heq).1 (by decide)⟩
    · exact ⟨forall_mem_head? (by decide), fun ⟨_, _, _, heq⟩ => absurd (List.cons.inj heq).1 (by decide)⟩
    · refine ⟨hword.head?_append, fun ⟨gap, rest, hgap, heq⟩ => ?_⟩
      exact hne "async" (by decide) (hword.eq_of_gap (by decide) (List.all_eq_true.mp rfl) hgap heq)
  obtain ⟨k, hk, hstandard⟩ := exists_takes_standard hedge hgap hgap' hmark htail.1 (fun _ => htail.2) hdrop
  have htakes : ∃ a n, TakesWord text k word a n := by
    rcases hlead' with hlead | ⟨rfl, hfunction⟩
    · exact exists_takes_lead hlead hword hk
    · exact ⟨k, 3, exists_takes_plain (hne "class" (by decide)) hfunction hword hk⟩
  obtain ⟨a, n, htakes⟩ := htakes
  rw [standardName_of_takes htakes (groups_eq_of_takes hm (hstandard _ _ htakes.takes)), if_neg hname]

theorem exists_puts_or_default {m : Match} (hm : standardExport.Finds text m i j) :
    (∃ word, PutsStandard (text.drop i) word ∧ String.ofList word ∉ namelessWords ∧
      standardName m = String.ofList word) ∨ standardName m = "default" := by
  obtain ⟨s, ⟨hedge, hs⟩, a, hexport, b, hblanks, c, hdefault, d, hblanks', -⟩ := hm.spans
  rw [hs] at hexport
  obtain ⟨gap, hgapDrop, -, hgap⟩ := exists_gap_of_spans_blanks1 hblanks
  obtain ⟨front, hfrontDrop, -, hfront⟩ := exists_gap_of_spans_blanks1 hblanks'
  obtain ⟨back, tail, hback, hbackBlanks, htailHead⟩ := exists_run isBlank (text.drop d)
  have hgap' := hfront.append hbackBlanks
  have hdrop : text.drop i = "export".toList ++ (gap ++ ("default".toList ++ ((front ++ back) ++ tail))) := by
    rw [drop_of_spans_text hexport, hgapDrop, drop_of_spans_text hdefault, hfrontDrop, hback, List.append_assoc front]
  have hmark : ∃ mark tail', tail = mark ++ tail' ∧ IsMark "async" mark ∧ (∀ c ∈ tail'.head?, isBlank c = false) ∧
      (mark = [] → ¬ ∃ gap rest, IsBlanks1 gap ∧ tail' = "async".toList ++ (gap ++ rest)) := by
    by_cases hasync : ∃ gap rest, IsBlanks1 gap ∧ tail = "async".toList ++ (gap ++ rest)
    · obtain ⟨gap, rest, hgap, rfl⟩ := hasync
      obtain ⟨more, tail', rfl, hmore, htail'⟩ := exists_run isBlank rest
      refine ⟨"async".toList ++ (gap ++ more), tail', by simp only [List.append_assoc], ?_, htail', fun h => ?_⟩
      · exact .inr ⟨_, hgap.append hmore, rfl⟩
      · cases h
    · exact ⟨[], tail, rfl, .inl rfl, htailHead, fun _ => hasync⟩
  obtain ⟨mark, tail', rfl, hmark, htail', hnone⟩ := hmark
  obtain ⟨k, hk, hstandard⟩ := exists_takes_standard hedge hgap hgap' hmark htail' hnone hdrop
  rcases exists_takes_subject text k with hnoWord | ⟨lead, word, after, a, n, htakes, hword, hlead, hkind⟩
  · exact .inr (standardName_of_nil (groups_eq_of_takes hm (hstandard _ _ hnoWord)))
  · rw [standardName_of_takes htakes (groups_eq_of_takes hm (hstandard _ _ htakes.takes))]
    by_cases hname : String.ofList word ∈ namelessWords
    · exact .inr (if_pos hname)
    · refine .inl ⟨word, ?_, hname, if_neg hname⟩
      refine ⟨gap, front ++ back, mark, lead, after, hgap, hgap', hmark, ?_, hword, ?_⟩
      · refine hkind.imp_right (Or.imp_right (And.imp_right fun h => h.resolve_right ?_))
        rintro rfl
        exact hname (by decide)
      · rw [hdrop, ← hk, hlead]

/-! ## Exported declarations -/

def functionKind : Pattern := inOrder ["function", opt "*"]

def abstractKind : Pattern := inOrder ["abstract", blanks1, "class"]

def declaredKind : Pattern :=
  oneOf ["const", "let", "var", functionKind, "class", "interface", "type", "enum", abstractKind]

def braced : Pattern := inOrder ["\x7b", keep 1 [.run (beyond ['}'])], "\x7d"]

def declared : Pattern :=
  inOrder [Pattern.optional ["declare", blanks1], Pattern.optional ["async", blanks1], declaredKind, blanks1,
    keep 2 [some1 wordOrDollar]]

theorem not_spans_of_first {front : List Pattern} {x : Char}
    (hfront : ∀ q ∈ front, q.opening.mayBeEmpty = false ∧ q.opening.chars x = false) (h : text.drop i = x :: rest) :
    ∀ q ∈ front, ∀ e, ¬ q.Spans text i e :=
  fun q hq => not_spans_of_drop (hfront q hq).1 h (hfront q hq).2

theorem takes_functionKind (hgap : IsBlanks1 gap) {star : List Char} (hstar : star = [] ∨ star = ['*'])
    (h : text.drop i = "function".toList ++ (star ++ (gap ++ rest))) :
    Takes text functionKind i (i + ("function".toList ++ star).length) [] := by
  have hstarDrop := drop_add_length h
  rw [List.length_append, ← Nat.add_assoc]
  rcases hstar with rfl | rfl
  · have hnotStar : ∀ c ∈ (text.drop (i + "function".toList.length)).head?, (c == '*') = false := by
      intro c hc
      rw [hstarDrop] at hc
      exact beq_eq_false_iff_ne.mpr (ne_of_isBlank (hgap.head?_append rest c hc) (by decide))
    exact (takes_text h).seq (takes_opt_none (not_spans_of_head? (p := Pattern.text "*") (by decide) hnotStar))
  · exact (takes_text h).seq (Takes.left (takes_text hstarDrop))

theorem takes_kind {kind : List Char} (hkind : IsKind kind) (hgap : IsBlanks1 gap)
    (h : text.drop i = kind ++ (gap ++ rest)) : Takes text declaredKind i (i + kind.length) [] := by
  have hfirst {front : List Pattern} {x : Char} {more : List Char} (hmore : text.drop i = x :: more)
      (hfront : ∀ q ∈ front, q.opening.mayBeEmpty = false ∧ q.opening.chars x = false) :
      ∀ q ∈ front, ∀ e, ¬ q.Spans text i e := not_spans_of_first hfront hmore
  rcases hkind with ⟨word, hword, rfl⟩ | ⟨middle, hmiddle, rfl⟩
  · simp only [declaringWords, List.mem_cons, List.not_mem_nil, or_false] at hword
    rcases hword with rfl | rfl | rfl | rfl | rfl | rfl | rfl | rfl | rfl
    · exact takes_oneOf [] (List.forall_mem_nil _) (takes_text h)
    · exact takes_oneOf ["const"] (hfirst h (by decide)) (takes_text h)
    · exact takes_oneOf ["const", "let"] (hfirst h (by decide)) (takes_text h)
    · exact takes_oneOf ["const", "let", "var"] (hfirst h (by decide)) (takes_functionKind hgap (.inl rfl) h)
    · exact takes_oneOf ["const", "let", "var"] (hfirst h (by decide)) (takes_functionKind hgap (.inr rfl) h)
    · have hconst : ∀ e, ¬ Pattern.Spans text (Pattern.text "const") i e := 
        not_spans_text_of_gap (forall_of_any_eq_false rfl) h hgap (by decide)
      refine takes_oneOf ["const", "let", "var", functionKind] ?_ (takes_text h)
      exact List.forall_mem_cons.mpr ⟨hconst, hfirst h (by decide)⟩
    · exact takes_oneOf ["const", "let", "var", functionKind, "class"] (hfirst h (by decide)) (takes_text h)
    · exact takes_oneOf ["const", "let", "var", functionKind, "class", "interface"] (hfirst h (by decide))
        (takes_text h)
    · exact takes_oneOf ["const", "let", "var", functionKind, "class", "interface", "type"] (hfirst h (by decide))
        (takes_text h)
  · simp only [List.append_assoc] at h
    have hmiddleDrop := drop_add_length h
    have hclassDrop := drop_add_length hmiddleDrop
    have hclass := (takes_text hclassDrop).after (takes_blanks1 hmiddleDrop hmiddle (forall_mem_head? (by decide)))
    have habstract : Takes text abstractKind i _ [] := hclass.after (takes_text h)
    rw [List.length_append, List.length_append, ← Nat.add_assoc, ← Nat.add_assoc]
    exact takes_oneOf ["const", "let", "var", functionKind, "class", "interface", "type", "enum"] (hfirst h (by decide))
      habstract

theorem exists_kind_of_spans (h : declaredKind.Spans text i j) :
    ∃ kind, IsKind kind ∧ text.drop i = kind ++ text.drop j := by
  obtain ⟨p, hp, h⟩ := spans_oneOf.mp h
  have hword {word : String} (hmem : word ∈ declaringWords) (h : (Pattern.text word).Spans text i j) :
      ∃ kind, IsKind kind ∧ text.drop i = kind ++ text.drop j :=
    ⟨word.toList, .inl ⟨word, hmem, rfl⟩, drop_of_spans_text h⟩
  simp only [List.mem_cons, List.not_mem_nil, or_false] at hp
  rcases hp with rfl | rfl | rfl | rfl | rfl | rfl | rfl | rfl | rfl
  · exact hword (by decide) h
  · exact hword (by decide) h
  · exact hword (by decide) h
  · obtain ⟨m, hfunction, hstar | rfl⟩ := h
    · refine ⟨"function*".toList, .inl ⟨"function*", by decide, rfl⟩, ?_⟩
      rw [drop_of_spans_text hfunction, drop_of_spans_text hstar]
      rfl
    · exact hword (by decide) hfunction
  · exact hword (by decide) h
  · exact hword (by decide) h
  · exact hword (by decide) h
  · exact hword (by decide) h
  · obtain ⟨m, habstract, l, hblanks, hclass⟩ := h
    obtain ⟨gap, hgapDrop, -, hgap⟩ := exists_gap_of_spans_blanks1 hblanks
    refine ⟨_, .inr ⟨gap, hgap, rfl⟩, ?_⟩
    rw [drop_of_spans_text habstract, hgapDrop, drop_of_spans_text hclass, List.append_assoc, List.append_assoc]

theorem IsKind.exists_cons {kind : List Char} (h : IsKind kind) (rest : List Char) :
    ∃ x y more, kind ++ rest = x :: y :: more ∧ isBlank x = false ∧ x ≠ 'd' ∧ x ≠ '\x7b' ∧ y ≠ 's' := by
  rcases h with ⟨word, hword, rfl⟩ | ⟨gap, -, rfl⟩
  · simp only [declaringWords, List.mem_cons, List.not_mem_nil, or_false] at hword
    rcases hword with rfl | rfl | rfl | rfl | rfl | rfl | rfl | rfl | rfl <;>
      exact ⟨_, _, _, rfl, by decide, by decide, by decide, by decide⟩
  · exact ⟨'a', 'b', _, rfl, by decide, by decide, by decide, by decide⟩

theorem groupText_of_puts {m : Match} (hm : namedExport.Finds text m i j) (h : PutsNamed (text.drop i) word) :
    m.groupText 2 = word := by
  obtain ⟨gap, mark, mark', kind, gap', after, hgap, hmark, hmark', hkind, hgap', hword, hdrop⟩ := h
  obtain ⟨-, ⟨hedge, -⟩, -⟩ := hm.spans
  have hgapDrop := drop_add_length hdrop
  have hmarkDrop := drop_add_length hgapDrop
  have hmarkDrop' := drop_add_length hmarkDrop
  have hkindDrop := drop_add_length hmarkDrop'
  have hgapDrop' := drop_add_length hkindDrop
  have hwordDrop := drop_add_length hgapDrop'
  obtain ⟨x, y, more, hopens, hblank, hd, hbrace, hs⟩ := hkind.exists_cons (gap' ++ (word ++ after))
  have hmarkNext : ∀ c ∈ (mark' ++ (kind ++ (gap' ++ (word ++ after)))).head?,
      isBlank c = false ∧ c ≠ 'd' ∧ c ≠ '\x7b' := by
    rcases hmark' with rfl | ⟨_, -, rfl⟩
    · rw [List.nil_append, hopens]
      exact forall_mem_head? ⟨hblank, hd, hbrace⟩
    · exact forall_mem_head? (by decide)
  have hmarkHead : ∀ c ∈ (mark ++ (mark' ++ (kind ++ (gap' ++ (word ++ after))))).head?,
      isBlank c = false ∧ c ≠ '\x7b' := by
    rcases hmark with rfl | ⟨_, -, rfl⟩
    · exact fun c hc => ⟨(hmarkNext c hc).1, (hmarkNext c hc).2.2⟩
    · exact forall_mem_head? (by decide)
  have hnotAsync : ¬ ∃ gap rest, IsBlanks1 gap ∧
      kind ++ (gap' ++ (word ++ after)) = "async".toList ++ (gap ++ rest) := by
    rintro ⟨_, _, -, heq⟩
    rw [hopens] at heq
    exact hs (List.cons.inj (List.cons.inj heq).2).1
  have hnotDeclare : ¬ ∃ gap rest, IsBlanks1 gap ∧
      mark' ++ (kind ++ (gap' ++ (word ++ after))) = "declare".toList ++ (gap ++ rest) := by
    rintro ⟨_, _, -, heq⟩
    exact (hmarkNext 'd' (by rw [heq]; rfl)).2.1 rfl
  have hkindHead : ∀ c ∈ (kind ++ (gap' ++ (word ++ after))).head?, isBlank c = false := by
    rw [hopens]
    exact forall_mem_head? hblank
  have hname := ((hword.takes hwordDrop).group (n := 2)).after (takes_blanks1 hgapDrop' hgap' hword.head?_append)
  have hasync := (hname.after (takes_kind hkind hgap' hkindDrop)).after
    (takes_mark hmark' hmarkDrop' hkindHead fun _ => hnotAsync)
  have hdeclared := hasync.after
    (takes_mark hmark hmarkDrop (fun c hc => (hmarkNext c hc).1) fun _ => hnotDeclare)
  have hnotBraced : ∀ e, ¬ braced.Spans text (i + "export".toList.length + gap.length) e := by
    refine not_spans_of_head? (by decide) fun c hc => ?_
    rw [hmarkDrop] at hc
    exact beq_eq_false_iff_ne.mpr (hmarkHead c hc).2
  have hexport : Takes text namedExport i _ _ :=
    (((hdeclared.right hnotBraced).after (takes_blanks1 hgapDrop hgap fun c hc => (hmarkHead c hc).1)).after
      (takes_text hdrop)).after (takes_edge hedge)
  rw [Match.groupText, Match.text?, Match.group?, groups_eq_of_takes hm hexport, List.lookup_cons_self]
  exact text_stretch hwordDrop

/-- An exported declaration that lists no names puts a word where its name would stand. -/
theorem exists_putsNamed {m : Match} (hm : namedExport.Finds text m i j) (hnone : m.text? 1 = none) :
    ∃ word, PutsNamed (text.drop i) word := by
  have hcaptures : Captures text (inOrder ([wordEdge, "export", blanks1] ++ [.alt braced declared])) i j m.groups :=
    hm.captures
  obtain ⟨a, marks, later, hmarks, hlater, hgroups⟩ := captures_inOrder_append hcaptures
  obtain ⟨s, ⟨hedge, hs⟩, b, hexport, hblanks⟩ := hmarks.spans
  rw [hs] at hexport
  cases hlater with
  | left hbraced =>
    have hbinds : braced.binds [1] = true := by decide
    obtain ⟨entry, hentry, hone⟩ := hbraced.exists_mem hbinds
    have hsome := isSome_lookup_of_mem (hgroups ▸ List.mem_append_left marks hentry)
    rw [List.mem_singleton.mp hone] at hsome
    rw [Match.text?, Option.map_eq_none_iff, Match.group?] at hnone
    rw [hnone] at hsome
    cases hsome
  | right hdeclared =>
    obtain ⟨c, hmark, d, hmark', e, hkind, f, hblanks', hname⟩ := hdeclared.spans
    obtain ⟨gap, hgapDrop, -, hgap⟩ := exists_gap_of_spans_blanks1 hblanks
    obtain ⟨mark, hmark, hmarkDrop⟩ := exists_mark_of_spans hmark
    obtain ⟨mark', hmark', hmarkDrop'⟩ := exists_mark_of_spans hmark'
    obtain ⟨kind, hkind, hkindDrop⟩ := exists_kind_of_spans hkind
    obtain ⟨gap', hgapDrop', -, hgap'⟩ := exists_gap_of_spans_blanks1 hblanks'
    obtain ⟨word, after, hwordDrop, hword⟩ := IsWhole.exists_of_spans hname
    refine ⟨word, gap, mark, mark', kind, gap', after, hgap, hmark, hmark', hkind, hgap', hword, ?_⟩
    rw [drop_of_spans_text hexport, hgapDrop, hmarkDrop, hmarkDrop', hkindDrop, hgapDrop', hwordDrop]

/-! ## Records -/

theorem mem_script_iff {e : Export} : e ∈ script text ↔
    (∃ m ∈ standardExport.all text, e = ⟨standardName m, .standard, m.start.line⟩) ∨
      ∃ m ∈ namedExport.all text, ∃ name ∈ exportedNames m, e = ⟨name, .named, m.start.line⟩ := by
  rw [script, Imports.inTextOrder, List.mem_map]
  simp only [List.mem_mergeSort, List.mem_append, List.mem_map, List.mem_flatMap]
  constructor
  · rintro ⟨_, ⟨m, hm, rfl⟩ | ⟨m, hm, name, hname, rfl⟩, rfl⟩
    · exact .inl ⟨m, hm, rfl⟩
    · exact .inr ⟨m, hm, name, hname, rfl⟩
  · rintro (⟨m, hm, rfl⟩ | ⟨m, hm, name, hname, rfl⟩)
    · exact ⟨_, .inl ⟨m, hm, rfl⟩, rfl⟩
    · exact ⟨_, .inr ⟨m, hm, name, hname, rfl⟩, rfl⟩

theorem exists_finds_of_mem_all {p : Pattern} {m : Match} (hp : p.opening.mayBeEmpty = false) (hm : m ∈ p.all text) :
    ∃ i j, p.Finds text m i j ∧ m.start.rest = text.drop i := by
  obtain ⟨i, j, -, hfinds⟩ := (p.all_sweep hp text).exists_finds hm
  exact ⟨i, j, hfinds, congrArg Cursor.rest hfinds.2.1⟩

theorem standardName_eq_iff {m : Match} (hm : m ∈ standardExport.all text) {name : String}
    (hname : name ∉ "default" :: namelessWords) : standardName m = name ↔ PutsStandard m.start.rest name.toList := by
  obtain ⟨i, j, hfinds, hrest⟩ := exists_finds_of_mem_all (by decide) hm
  rw [hrest]
  have hne : name ≠ "default" := fun heq => hname (heq ▸ List.mem_cons_self)
  have hnot : name ∉ namelessWords := fun hmem => hname (List.mem_cons_of_mem _ hmem)
  constructor
  · intro heq
    rcases exists_puts_or_default hfinds with ⟨word, hputs, -, hword⟩ | hdefault
    · rwa [← heq, hword, String.toList_ofList]
    · exact absurd (heq.symm.trans hdefault) hne
  · intro hputs
    rw [standardName_of_puts hfinds hputs (by rwa [String.ofList_toList]), String.ofList_toList]

theorem standardName_notMem_namelessWords {m : Match} (hm : m ∈ standardExport.all text) :
    standardName m ∉ namelessWords := by
  obtain ⟨i, j, hfinds, -⟩ := exists_finds_of_mem_all (by decide) hm
  rcases exists_puts_or_default hfinds with ⟨word, -, hword, hname⟩ | hdefault
  · rwa [hname]
  · rw [hdefault]
    decide

theorem exportedNames_eq_iff {m : Match} (hm : m ∈ namedExport.all text) (hnone : m.text? 1 = none) {name : String} :
    exportedNames m = [name] ↔ PutsNamed m.start.rest name.toList := by
  obtain ⟨i, j, hfinds, hrest⟩ := exists_finds_of_mem_all (by decide) hm
  obtain ⟨word, hputs⟩ := exists_putsNamed hfinds hnone
  have hnames : exportedNames m = [String.ofList word] := by
    rw [exportedNames, hnone]
    exact congrArg (fun text => [String.ofList text]) (groupText_of_puts hfinds hputs)
  rw [hrest, hnames, List.singleton_inj]
  constructor
  · rintro rfl
    rwa [String.toList_ofList]
  · intro hname
    rw [← groupText_of_puts hfinds hputs, groupText_of_puts hfinds hname, String.ofList_toList]

/-- The reserved words that are not known to be no names. -/
def unguardedWords : List String := ["extends", "enum", "const", "var"]

theorem mem_unguardedWords_iff {word : String} :
    word ∈ unguardedWords ↔ word ∈ reservedWords ∧ word ∉ "default" :: namelessWords := by
  have hto : ∀ word ∈ unguardedWords, word ∈ reservedWords ∧ word ∉ "default" :: namelessWords := by decide
  have hfrom : ∀ word ∈ reservedWords, word ∉ "default" :: namelessWords → word ∈ unguardedWords := by decide
  exact ⟨hto word, fun ⟨h, hname⟩ => hfrom word h hname⟩

theorem standardName_mem_reservedWords_iff {m : Match} (hm : m ∈ standardExport.all text) :
    standardName m ∈ reservedWords ↔ ∃ word ∈ unguardedWords, PutsStandard m.start.rest word.toList := by
  constructor
  · intro hmem
    have hne : standardName m ≠ "default" := fun heq => absurd (heq ▸ hmem) (by decide)
    have hname := List.not_mem_cons_of_ne_of_not_mem hne (standardName_notMem_namelessWords hm)
    exact ⟨_, mem_unguardedWords_iff.mpr ⟨hmem, hname⟩, (standardName_eq_iff hm hname).mp rfl⟩
  · rintro ⟨word, hword, hputs⟩
    obtain ⟨hmem, hname⟩ := mem_unguardedWords_iff.mp hword
    rwa [(standardName_eq_iff hm hname).mpr hputs]

theorem standardName_eq_default_iff {m : Match} (hm : m ∈ standardExport.all text) : standardName m = "default" ↔
    ∀ word : String, PutsStandard m.start.rest word.toList → word ∈ "default" :: namelessWords := by
  constructor
  · intro hdefault word hputs
    by_contra hword
    rw [(standardName_eq_iff hm hword).mpr hputs] at hdefault
    exact hword (hdefault ▸ List.mem_cons_self)
  · intro hall
    by_contra hne
    have hname := List.not_mem_cons_of_ne_of_not_mem hne (standardName_notMem_namelessWords hm)
    exact hname (hall _ ((standardName_eq_iff hm hname).mp rfl))

/-- A record of a default export or of an exported declaration has a reserved word as its name if and only if such a
word stands where the name would. Where only words stand that are known to be no names, the name is `default`. -/
theorem script_reservedWords (text : List Char) :
    (∀ e, e ∈ script text ↔
      (∃ m ∈ standardExport.all text, e = ⟨standardName m, .standard, m.start.line⟩) ∨
        ∃ m ∈ namedExport.all text, ∃ name ∈ exportedNames m, e = ⟨name, .named, m.start.line⟩) ∧
    (∀ m ∈ standardExport.all text,
      (standardName m ∈ reservedWords ↔ ∃ word ∈ unguardedWords, PutsStandard m.start.rest word.toList) ∧
      (standardName m = "default" ↔
        ∀ word : String, PutsStandard m.start.rest word.toList → word ∈ "default" :: namelessWords)) ∧
    ∀ m ∈ namedExport.all text, m.text? 1 = none → ∃ name, exportedNames m = [name] ∧
      (name ∈ reservedWords ↔ ∃ word ∈ reservedWords, PutsNamed m.start.rest word.toList) := by
  refine ⟨fun e => mem_script_iff, fun m hm => ?_, fun m hm hnone => ?_⟩
  · exact ⟨standardName_mem_reservedWords_iff hm, standardName_eq_default_iff hm⟩
  · obtain ⟨name, hname⟩ : ∃ name, exportedNames m = [name] := by
      rw [exportedNames, hnone]
      exact ⟨_, rfl⟩
    refine ⟨name, hname, fun hmem => ⟨name, hmem, (exportedNames_eq_iff hm hnone).mp hname⟩, ?_⟩
    rintro ⟨word, hword, hputs⟩
    rw [(exportedNames_eq_iff hm hnone).mpr hputs, List.singleton_inj] at hname
    exact hname ▸ hword

/-- A class without a name that extends another, and an enumeration whose values are constants. -/
def misnamed : List Char := "export default class extends Base {}\nexport const enum E {}\n".toList

theorem script_reservedWords_misnamed :
    (⟨"extends", .standard, 1⟩ ∈ script misnamed ∧ ⟨"enum", .named, 2⟩ ∈ script misnamed) ∧
    (∃ m ∈ standardExport.all misnamed, standardName m = "extends" ∧
      ∃ word ∈ unguardedWords, PutsStandard m.start.rest word.toList) ∧
    ∃ m ∈ namedExport.all misnamed, m.text? 1 = none ∧ exportedNames m = ["enum"] ∧
      ∃ word ∈ reservedWords, PutsNamed m.start.rest word.toList := by
  obtain ⟨hrecords, hstandard, hnamed⟩ := script_reservedWords misnamed
  have hextends : ∃ m ∈ standardExport.all misnamed, standardName m = "extends" ∧ m.start.line = 1 := by decide +kernel
  have henum : ∃ m ∈ namedExport.all misnamed, m.text? 1 = none ∧ exportedNames m = ["enum"] ∧ m.start.line = 2 := by
    decide +kernel
  obtain ⟨m, hm, hname, hline⟩ := hextends
  obtain ⟨m', hm', hnone, hnames, hline'⟩ := henum
  obtain ⟨name, hname', hreserved⟩ := hnamed m' hm' hnone
  obtain rfl : "enum" = name := List.singleton_inj.mp (hnames.symm.trans hname')
  refine ⟨⟨(hrecords _).mpr (.inl ⟨m, hm, by rw [hname, hline]⟩), (hrecords _).mpr (.inr ⟨m', hm', "enum", ?_, ?_⟩)⟩,
    ⟨m, hm, hname, (hstandard m hm).1.mp (by rw [hname]; decide)⟩, m', hm', hnone, hnames, hreserved.mp (by decide)⟩
  · rw [hnames]
    exact List.mem_cons_self
  · rw [hline']

/-- The word behind `class` is taken for its name, also where it begins what the class extends. -/
theorem not_unreserved_misnamed : ¬ ∀ text : List Char,
    (∀ m ∈ standardExport.all text, standardName m ∉ reservedWords) ∧
      ∀ m ∈ namedExport.all text, m.text? 1 = none → ∀ name ∈ exportedNames m, name ∉ reservedWords := by
  intro h
  have hextends : ∃ m ∈ standardExport.all misnamed, standardName m ∈ reservedWords := by decide +kernel
  obtain ⟨m, hm, hmem⟩ := hextends
  exact (h misnamed).1 m hm hmem

end CodeCensus.Exports
