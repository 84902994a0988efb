import CodeCensus.Proofs.Declaration.Series

/-! Heads that name the type of the result first. Words stand before the name of such a declaration. It is matched if
all of them but the last are modifiers that the pattern knows, and then the last one is read as the type. -/

namespace CodeCensus

open Text Pattern Cursor

/-! ## Heads as written -/

/-- Words with a blank behind each of them. -/
def spaced (words : List (List Char)) : List Char := words.flatMap (· ++ [' '])

namespace Declared

def words (d : Declared) : List (List Char) := d.modifiers ++ d.result.toList

def typedHead (d : Declared) : List Char := spaced d.words ++ (d.call ++ [' '])

/-- A constructor has no result and is marked by some of these words. -/
def constructorWords : List String := ["public", "private", "protected", "static"]

/-- No parenthesis is opened in the body, and what stands in the place of a type is one, or else the declaration is a
constructor. -/
structure IsTyped (d : Declared) : Prop extends d.IsProper where
  modifiers_areNames : ∀ word ∈ d.modifiers, IsName word
  type_isType : ∀ type ∈ d.result,
    String.ofList type ∉ Functions.modifiers ∧ String.ofList type ∉ Functions.notATypeWord
  isConstructor : d.result = none → d.modifiers ≠ [] ∧ ∀ word ∈ d.modifiers, String.ofList word ∈ constructorWords
  paren_not_mem : '(' ∉ d.body

theorem IsTyped.words_areNames {d : Declared} (h : d.IsTyped) : ∀ word ∈ d.words, IsName word := by
  intro word hword
  rcases List.mem_append.mp hword with hword | hword
  · exact h.modifiers_areNames word hword
  · exact h.result_isName word (Option.mem_toList.mp hword)

theorem IsTyped.words_ne_nil {d : Declared} (h : d.IsTyped) : d.words ≠ [] := by
  unfold words
  cases hresult : d.result with
  | none =>
    rw [Option.toList_none, List.append_nil]
    exact (h.isConstructor hresult).1
  | some type => exact List.append_ne_nil_of_right_ne_nil _ (List.cons_ne_nil type [])

/-- The last word is the result, or else the last modifier of a constructor. -/
theorem last_of_words {d : Declared} {front : List (List Char)} {type : List Char} (h : d.words = front ++ [type]) :
    (d.result = some type ∧ front = d.modifiers) ∨ (d.result = none ∧ d.modifiers = front ++ [type]) := by
  unfold words at h
  cases hresult : d.result with
  | none =>
    rw [hresult, Option.toList_none, List.append_nil] at h
    exact .inr ⟨rfl, h⟩
  | some result =>
    rw [hresult, Option.toList_some] at h
    obtain ⟨hfront, htype⟩ := List.append_inj' h rfl
    obtain rfl : result = type := (List.cons.inj htype).1
    exact .inl ⟨rfl, hfront.symm⟩

end Declared

theorem spaced_cons (word : List Char) (words : List (List Char)) : spaced (word :: words) = word ++ ' ' :: spaced words := by
  unfold spaced
  rw [List.flatMap_cons, List.append_assoc, List.singleton_append]

theorem spaced_append (words words' : List (List Char)) : spaced (words ++ words') = spaced words ++ spaced words' :=
  List.flatMap_append

variable {text rest name : List Char} {words : List (List Char)} {known : List String} {i j a b c e k : Nat}

/-- What stands before a parenthesis: words, each with a blank behind it, and a name. -/
theorem head?_spaced_append (hwords : ∀ word ∈ words, IsName word) (hname : IsName name) (rest : List Char) :
    ∀ x ∈ (spaced words ++ (name ++ rest)).head?, isWord x = true := by
  cases words with
  | nil => exact hname.head?_append rest
  | cons word more =>
    rw [spaced_cons, List.append_assoc]
    exact (hwords word List.mem_cons_self).head?_append _

theorem isWord_or_eq_of_mem (hwords : ∀ word ∈ words, IsName word) (hname : IsName name) {x : Char}
    (hx : x ∈ spaced words ++ name) : isWord x = true ∨ x = ' ' := by
  rcases List.mem_append.mp hx with hx | hx
  · obtain ⟨word, hword, hx⟩ := List.mem_flatMap.mp hx
    rcases List.mem_append.mp hx with hx | hx
    · exact .inl ((hwords word hword).isWord hx)
    · exact .inr (List.mem_singleton.mp hx)
  · exact .inl (hname.isWord hx)

/-! ## What comes before the parameters -/

def typeChar : Char → Bool := either isWord (among ['<', '>', '[', ']', ',', '.', '?'])

/-- A class of characters of which words may consist. -/
structure IsWordClass (p : Char → Bool) : Prop where
  blank : p ' ' = false
  paren : p '(' = false

theorem not_isBlank_of_name (hname : IsName name) : ∀ x ∈ name, isBlank x = false := fun _ hx => hname.isBlank hx

/-- A run within words that a blank follows ends with the word that it begins in. -/
theorem end_of_word {p : Char → Bool} (hp : IsWordClass p) {word : List Char} (hword : IsName word)
    (hrest : ∀ x ∈ rest.head?, isWord x = true) (h : text.drop a = word ++ ' ' :: rest) (hab : a ≤ b)
    (hrun : Throughout text p a b) (hblanks : blanks1.Spans text b c) : b = a + word.length ∧ c = b + 1 := by
  obtain ⟨m, ⟨hblank, rfl⟩, hbc, hmore⟩ := hblanks
  have hb : b = a + word.length := eq_add_of_stop (not_isBlank_of_name hword) hp.blank h hab hrun hblank
  have hdrop : text.drop (b + 1) = [] ++ rest := by
    rw [hb]
    exact drop_succ_of_drop (drop_add_length h)
  have hle : c ≤ b + 1 + ([] : List Char).length :=
    not_throughout_of_drop hdrop (fun x hx => not_isBlank_of_isWord (hrest x hx)) hmore
  exact ⟨hb, Nat.le_antisymm hle hbc⟩

theorem not_blank_behind_name {p : Char → Bool} (hp : IsWordClass p) (hname : IsName name)
    (h : text.drop a = name ++ '(' :: rest) (hab : a ≤ b) (hrun : Throughout text p a b) :
    ¬ blanks1.Spans text b c := by
  rintro ⟨m, ⟨hblank, rfl⟩, -⟩
  have hb : b = a + name.length := eq_add_of_stop (not_isBlank_of_name hname) hp.paren h hab hrun hblank
  have hat : text[b]? = some '(' := by
    rw [hb, ← List.head?_drop, drop_add_length h]
    rfl
  exact absurd (hblank.eq_true hat) (by decide)

theorem isWordClass_isWord : IsWordClass isWord := ⟨by decide, by decide⟩

theorem isWordClass_typeChar : IsWordClass typeChar := ⟨by decide, by decide⟩

/-- Words that a pattern can know: they consist of characters of words. -/
def AreWords (known : List String) : Prop := ∀ word ∈ known, word.toList.all isWord = true

theorem AreWords.throughout (h : AreWords known) (hspans : (oneWord known).Spans text i j) :
    Throughout text isWord i j ∧ ∃ word ∈ known, text.drop i = word.toList ++ text.drop j ∧ j = i + word.toList.length := by
  obtain ⟨word, hword, hspans⟩ := spans_oneWord hspans
  exact ⟨(within_text (h word hword)).throughout hspans, word, hword, drop_of_spans_text hspans,
    eq_add_of_spans_text hspans⟩

def annotations : Pattern := manyOf ["@", some1 isWord, optional ["(", .run (beyond [')']), ")"], blanks1]

theorem eq_of_spans_margin (h : ∀ x ∈ (text.drop i).head?, isWord x = true) (hspaces : spaces.Spans text i a)
    (hannotations : annotations.Spans text a b) : b = i := by
  have hle : a ≤ i + ([] : List Char).length := by
    have hdrop : text.drop i = [] ++ text.drop i := rfl
    refine not_throughout_of_drop hdrop (fun x hx => ?_) hspaces.2
    rw [among, List.contains_cons, List.contains_cons, beq_of_isWord (by decide) (h x hx),
      beq_of_isWord (by decide) (h x hx)]
    rfl
  obtain rfl : i = a := Nat.le_antisymm hspaces.1 hle
  rcases Relation.ReflTransGen.cases_head hannotations with rfl | ⟨m, ⟨-, hstep⟩, -⟩
  · rfl
  · refine absurd hstep (not_spans_of_head? (by decide) (fun x hx => ?_) m)
    exact beq_of_isWord (by decide) (h x hx)

/-- Repetitions of known words go over some of the words before a name, all of them known. -/
theorem exists_front_of_spans (hknown : AreWords known) (hwords : ∀ word ∈ words, IsName word) (hname : IsName name)
    (h : text.drop i = spaced words ++ (name ++ '(' :: rest)) (hspans : (manyOf [oneWord known, blanks1]).Spans text i a) :
    ∃ front back, words = front ++ back ∧ (∀ word ∈ front, String.ofList word ∈ known) ∧
      a = i + (spaced front).length := by
  induction words generalizing i with
  | nil =>
    rcases Relation.ReflTransGen.cases_head hspans with rfl | ⟨m, ⟨-, b, hword, hblanks⟩, -⟩
    · exact ⟨[], [], rfl, List.forall_mem_nil _, rfl⟩
    · exact absurd hblanks (not_blank_behind_name isWordClass_isWord hname h hword.le (hknown.throughout hword).1)
  | cons word more ih =>
    rcases Relation.ReflTransGen.cases_head hspans with rfl | ⟨m, ⟨-, b, hone, hblanks⟩, hlater⟩
    · exact ⟨[], word :: more, rfl, List.forall_mem_nil _, rfl⟩
    · have hmoreNames : ∀ w ∈ more, IsName w := fun w hw => hwords w (List.mem_cons_of_mem word hw)
      rw [spaced_cons, List.append_assoc, List.cons_append] at h
      obtain ⟨hrun, found, hfound, hdrop, hb⟩ := hknown.throughout hone
      obtain ⟨hend, rfl⟩ := end_of_word isWordClass_isWord (hwords word List.mem_cons_self)
        (head?_spaced_append hmoreNames hname _) h hone.le hrun hblanks
      have hsame : found.toList = word := List.append_inj_left (hdrop.symm.trans h) (by omega)
      have hnext : text.drop (b + 1) = spaced more ++ (name ++ '(' :: rest) := by
        rw [hend]
        exact drop_succ_of_drop (drop_add_length h)
      obtain ⟨front, back, rfl, hfront, ha⟩ := ih hmoreNames hnext hlater
      refine ⟨word :: front, back, rfl, List.forall_mem_cons.mpr ⟨?_, hfront⟩, ?_⟩
      · rwa [← hsame, String.ofList_toList]
      · rw [ha, hend, spaced_cons, List.length_append, List.length_cons]
        omega

/-- A name and an opening parenthesis are found only where no more words stand before them. -/
theorem eq_nil_of_spans_name (hwords : ∀ word ∈ words, IsName word) (hname : IsName name)
    (h : text.drop c = spaced words ++ (name ++ '(' :: rest)) {d q : Nat} (hspelled : Pattern.name.Spans text c d)
    (hblanks : blanks.Spans text d q) (hparen : HoldsAt text (· == '(') q) :
    words = [] ∧ d = c + name.length ∧ q = d := by
  obtain ⟨_, ⟨hstart, rfl⟩, hcd, hmore⟩ := hspelled
  have hrun : Throughout text isWord c d := .cons (hstart.imp fun _ => isWord_of_nameStart) hmore
  have hdq : d ≤ q := hblanks.1
  have hboth : Throughout text (either isWord isBlank) c q := by
    refine Throughout.trans (m := d) ?_ ?_
    · exact fun l hl hlt => (hrun l hl hlt).imp fun x hx => by rw [either, hx, Bool.true_or]
    · exact fun l hl hlt => (hblanks.2 l hl hlt).imp fun x hx => by rw [either, hx, Bool.or_true]
  have hfront : ∀ x ∈ spaced words ++ name, (x == '(') = false := by
    intro x hx
    rcases isWord_or_eq_of_mem hwords hname hx with hx | rfl
    · exact beq_of_isWord (by decide) hx
    · decide
  have hmark : either isWord isBlank '(' = false := by decide
  have hq : q = c + (spaced words ++ name).length :=
    eq_add_of_stop hfront hmark (by rw [h, List.append_assoc]) (by omega) hboth hparen
  cases words with
  | nil =>
    have hq : q = c + name.length := hq
    rcases Nat.eq_or_lt_of_le hdq with rfl | hlt
    · exact ⟨rfl, hq, rfl⟩
    · have hd : d = c + name.length :=
        eq_add_of_stop (not_isBlank_of_name hname) (by decide) h (by omega) hrun (hblanks.2.holds hlt)
      omega
  | cons word more =>
    have hmoreNames : ∀ w ∈ more, IsName w := fun w hw => hwords w (List.mem_cons_of_mem word hw)
    have hpos : 0 < name.length := List.length_pos_of_ne_nil hname.ne_nil
    rw [spaced_cons, List.append_assoc, List.cons_append] at h
    rw [spaced_cons, List.length_append, List.length_append, List.length_cons] at hq
    have hd : d ≤ c + word.length := not_throughout_of_drop h (forall_mem_head? (by decide)) hrun
    have hend : d = c + word.length :=
      eq_add_of_stop (not_isBlank_of_name (hwords word List.mem_cons_self)) (by decide) h (by omega) hrun
        (hblanks.2.holds (by omega))
    have hnext : text.drop (d + 1) = [] ++ (spaced more ++ (name ++ '(' :: rest)) := by
      rw [hend]
      exact drop_succ_of_drop (drop_add_length h)
    -- the blanks end before the next word, and no parenthesis stands there
    have hle : q ≤ d + 1 + ([] : List Char).length :=
      not_throughout_of_drop hnext
        (fun x hx => not_isBlank_of_isWord (head?_spaced_append hmoreNames hname _ x hx))
        (hblanks.2.mono (Nat.le_succ d) (Nat.le_refl q))
    have hle : q ≤ d + 1 := hle
    omega

/-! ## The match of a head -/

namespace Pattern

variable {p q : Pattern} {n : Nat} {groups : Groups}

theorem captures_seq (h : Captures text (.seq p q) i j groups) :
    ∃ m first second, Captures text p i m first ∧ Captures text q m j second ∧ groups = second ++ first := by
  cases h with
  | seq hp hq => exact ⟨_, _, _, hp, hq, rfl⟩

theorem captures_group (h : Captures text (.group n p) i j groups) :
    ∃ inner, Captures text p i j inner ∧ groups = (n, ⟨on text i, on text j⟩) :: inner := by
  cases h with
  | group hp => exact ⟨_, hp, rfl⟩

theorem Captures.eq_nil (h : Captures text p i j groups) (hp : p.groupNumbers = []) : groups = [] :=
  List.eq_nil_iff_forall_not_mem.mpr fun entry hentry => by
    have hmem := h.mem_groupNumbers entry hentry
    rw [hp] at hmem
    cases hmem

theorem groupNumbers_inOrder {ps : List Pattern} (h : ∀ p ∈ ps, p.groupNumbers = []) : (inOrder ps).groupNumbers = [] := by
  induction ps with
  | nil => rfl
  | cons p ps ih =>
    have hp := h p List.mem_cons_self
    have hps := ih fun q hq => h q (List.mem_cons_of_mem p hq)
    cases ps with
    | nil => exact hp
    | cons q ps =>
      change p.groupNumbers ++ (inOrder (q :: ps)).groupNumbers = []
      rw [hp, hps, List.append_nil]

theorem groupNumbers_text (word : String) : (Pattern.text word).groupNumbers = [] := by
  refine groupNumbers_inOrder fun p hp => ?_
  obtain ⟨c, -, rfl⟩ := List.mem_map.mp hp
  rfl

theorem groupNumbers_oneWord (words : List String) : (oneWord words).groupNumbers = [] := by
  induction words with
  | nil => rfl
  | cons word words ih =>
    cases words with
    | nil => exact groupNumbers_text word
    | cons next words =>
      change (Pattern.text word).groupNumbers ++ (oneWord (next :: words)).groupNumbers = []
      rw [groupNumbers_text, ih, List.append_nil]

end Pattern

variable {d : Declared} {groups : Groups}

/-- The end of a head: a blank and a brace, with no clause between them. -/
theorem eq_add_of_spans_end (h : text.drop i = ' ' :: '{' :: rest)
    (hspans : (inOrder [blanks, optional ["throws", blanks1,
      lazy1 (fun c => isWord c || isBlank c || c == '.' || c == ',')], blanks, "\x7b"]).Spans text i e) : e = i + 2 := by
  obtain ⟨a, ⟨hia, hbefore⟩, b, hclause, c, ⟨hbc, hafter⟩, hbrace, rfl⟩ := hspans
  have hnext : text.drop (i + 1) = '{' :: rest := drop_succ_of_drop h
  have hblank : text.drop i = [' '] ++ '{' :: rest := h
  have hle : a ≤ i + 1 := not_throughout_of_drop hblank (forall_mem_head? (by decide)) hbefore
  obtain rfl : b = a := by
    refine hclause.resolve_left fun hspans => ?_
    rcases Nat.eq_or_lt_of_le hia with rfl | hlt
    · exact not_spans_of_drop (by decide) h (by decide) b hspans
    · obtain rfl : a = i + 1 := by omega
      exact not_spans_of_drop (by decide) hnext (by decide) b hspans
  have hc : c = i + [' '].length :=
    eq_add_of_stop (List.forall_mem_singleton.mpr (by decide)) (by decide) h (hia.trans hbc) (hbefore.trans hafter) hbrace
  rw [hc]
  rfl

theorem captures_parameterList {n q r : Nat} {list : List Char} (hlist : ')' ∉ list)
    (h : text.drop q = '(' :: (list ++ ')' :: rest)) (hcaptures : Captures text (Functions.parameterList n) q r groups) :
    r = q + 1 + list.length + 1 ∧ groups = [(n, ⟨on text (q + 1), on text (q + 1 + list.length)⟩)] := by
  obtain ⟨_, g₀, _, hopen, hrest₀, rfl⟩ := captures_seq hcaptures
  obtain ⟨close, _, g₁, hkept, hclose, rfl⟩ := captures_seq hrest₀
  obtain ⟨inner, hrun, rfl⟩ := captures_group hkept
  obtain ⟨-, rfl⟩ := hopen.spans
  have hmark := hclose.spans
  have hfront : ∀ x ∈ list, (x == ')') = false := fun x hx =>
    beq_eq_false_iff_ne.mpr fun heq => hlist (heq ▸ hx)
  have hend : close = q + 1 + list.length :=
    eq_add_of_stop hfront (by decide) (drop_succ_of_drop h) hrun.spans.1 hrun.spans.2 hmark.1
  rw [hopen.eq_nil rfl, hclose.eq_nil rfl, hrun.eq_nil rfl, ← hend]
  exact ⟨hmark.2, rfl⟩

/-- What stands before the parameters is covered in one way: the last word as the type, those before it as words that
are known. -/
theorem exists_type_of_spans (hknown : AreWords known) (hwords : ∀ word ∈ words, IsName word) (hname : IsName name)
    (h : text.drop i = spaced words ++ (name ++ '(' :: rest)) {m q : Nat}
    (hmodifiers : (manyOf [oneWord known, blanks1]).Spans text i a) (htype : (some1 typeChar).Spans text a b)
    (hgap : blanks1.Spans text b c) (hspelled : Pattern.name.Spans text c m) (hblanks : blanks.Spans text m q)
    (hparen : HoldsAt text (· == '(') q) :
    ∃ front type, words = front ++ [type] ∧ (∀ word ∈ front, String.ofList word ∈ known) ∧
      a = i + (spaced front).length ∧ b = a + type.length ∧ c = i + (spaced words).length ∧ m = c + name.length ∧
      q = m := by
  obtain ⟨front, back, rfl, hfront, rfl⟩ := exists_front_of_spans hknown hwords hname h hmodifiers
  have hbackNames : ∀ word ∈ back, IsName word := fun word hword => hwords word (List.mem_append_right front hword)
  have hback : text.drop (i + (spaced front).length) = spaced back ++ (name ++ '(' :: rest) := by
    rw [spaced_append, List.append_assoc] at h
    exact drop_add_length h
  have hrun : Throughout text typeChar (i + (spaced front).length) b := by
    have hwithin : (some1 typeChar).Within typeChar := ⟨fun _ hx => hx, fun _ hx => hx⟩
    exact hwithin.throughout htype
  cases back with
  | nil => exact absurd hgap (not_blank_behind_name isWordClass_typeChar hname hback htype.le hrun)
  | cons type more =>
    have hmoreNames : ∀ word ∈ more, IsName word := fun word hword => hbackNames word (List.mem_cons_of_mem type hword)
    rw [spaced_cons, List.append_assoc, List.cons_append] at hback
    obtain ⟨rfl, rfl⟩ := end_of_word isWordClass_typeChar (hbackNames type List.mem_cons_self)
      (head?_spaced_append hmoreNames hname _) hback htype.le hrun hgap
    have hnameDrop := drop_succ_of_drop (drop_add_length hback)
    obtain ⟨rfl, rfl, rfl⟩ := eq_nil_of_spans_name hmoreNames hname hnameDrop hspelled hblanks hparen
    refine ⟨front, type, rfl, hfront, rfl, rfl, ?_, rfl, rfl⟩
    rw [spaced_append, spaced_cons, List.length_append, List.length_append, List.length_cons, ← Nat.add_assoc]
    rfl

/-- A match at a typed head records what it is written from. -/
theorem captures_typedHead (hknown : AreWords known) (hd : d.IsTyped) (h : text.drop i = d.typedHead ++ '{' :: rest)
    (hcaptures : Captures text (Functions.typedMethod known) i e groups) :
    ∃ front type, d.words = front ++ [type] ∧ (∀ word ∈ front, String.ofList word ∈ known) ∧
      e = i + d.typedHead.length + 1 ∧ textsOf groups = [(3, d.list), (2, d.name), (1, type)] ∧
      ∃ s, groups.lookup 2 = some s ∧ s.start = on text (i + (spaced d.words).length) := by
  have hwords : text.drop i = spaced d.words ++ (d.name ++ '(' :: (d.list ++ ')' :: ' ' :: '{' :: rest)) := by
    rw [h, Declared.typedHead, Declared.call]
    simp only [List.append_assoc, List.cons_append, List.nil_append]
  obtain ⟨_, g₀, _, hline, hrest₀, rfl⟩ := captures_seq hcaptures
  obtain ⟨_, g₁, _, hspaces, hrest₁, rfl⟩ := captures_seq hrest₀
  obtain ⟨_, g₂, _, hmarks, hrest₂, rfl⟩ := captures_seq hrest₁
  obtain ⟨a, g₃, _, hmodifiers, hrest₃, rfl⟩ := captures_seq hrest₂
  obtain ⟨b, _, _, htypeKept, hrest₄, rfl⟩ := captures_seq hrest₃
  obtain ⟨c, g₄, _, hgap, hrest₅, rfl⟩ := captures_seq hrest₄
  obtain ⟨m, _, _, hnameKept, hrest₆, rfl⟩ := captures_seq hrest₅
  obtain ⟨q, g₅, _, hblanks, hrest₇, rfl⟩ := captures_seq hrest₆
  obtain ⟨r, _, g₆, hlist, hend, rfl⟩ := captures_seq hrest₇
  obtain ⟨inner, htype, rfl⟩ := captures_group htypeKept
  obtain ⟨inner', hname, rfl⟩ := captures_group hnameKept
  have hheadWord : ∀ x ∈ (text.drop i).head?, isWord x = true := by
    rw [hwords]
    exact head?_spaced_append hd.words_areNames hd.name_isName _
  obtain rfl : i = _ := hline.spans.2.symm
  obtain rfl : i = _ := (eq_of_spans_margin hheadWord hspaces.spans hmarks.spans).symm
  obtain ⟨-, hparen, -⟩ := spans_parameterList hlist.spans
  obtain ⟨front, type, hsplit, hfront, rfl, rfl, rfl, rfl, rfl⟩ := exists_type_of_spans hknown hd.words_areNames
    hd.name_isName hwords hmodifiers.spans htype.spans hgap.spans hname.spans hblanks.spans hparen
  have htypeDrop : text.drop (i + (spaced front).length) =
      type ++ ' ' :: (d.name ++ '(' :: (d.list ++ ')' :: ' ' :: '{' :: rest)) := by
    rw [hsplit, spaced_append, spaced_cons, List.append_assoc] at hwords
    rw [drop_add_length hwords, List.append_assoc]
    rfl
  have hnameDrop : text.drop (i + (spaced d.words).length) = d.name ++ '(' :: (d.list ++ ')' :: ' ' :: '{' :: rest) :=
    drop_add_length hwords
  have hparenDrop := drop_add_length hnameDrop
  obtain ⟨rfl, rfl⟩ := captures_parameterList (hd.paren_not_mem_list (.inr rfl)) hparenDrop hlist
  have hlistDrop := drop_succ_of_drop hparenDrop
  have hstop := eq_add_of_spans_end (drop_succ_of_drop (drop_add_length hlistDrop)) hend.spans
  have hknownGroups : (manyOf [oneWord known, blanks1]).groupNumbers = [] :=
    groupNumbers_inOrder (List.forall_mem_cons.mpr ⟨groupNumbers_oneWord known, List.forall_mem_singleton.mpr rfl⟩)
  rw [hline.eq_nil rfl, hspaces.eq_nil rfl, hmarks.eq_nil rfl, hmodifiers.eq_nil hknownGroups, htype.eq_nil rfl,
    hgap.eq_nil rfl, hname.eq_nil rfl, hblanks.eq_nil rfl, hend.eq_nil rfl]
  refine ⟨front, type, hsplit, hfront, ?_, ?_, _, rfl, rfl⟩
  · rw [hstop, Declared.typedHead, Declared.call, List.length_append, List.length_append, List.length_append,
      List.length_cons, List.length_append, List.length_singleton, List.length_singleton]
    omega
  · unfold textsOf
    simp only [List.map_append, List.map_cons, List.map_nil, List.append_nil, List.nil_append]
    rw [text_stretch hlistDrop, text_stretch hnameDrop, text_stretch htypeDrop]
    rfl

/-! ## Where no head is matched -/

/-- The characters that a head can hold before its first parenthesis. -/
def headChar : Char → Bool := fun c => isWord c || isBlank c || among ['@', '<', '>', '[', ']', ',', '.', '?'] c

theorem headChar_of_isWord {x : Char} (h : isWord x = true) : headChar x = true := by
  rw [headChar, h, Bool.true_or, Bool.true_or]

theorem headChar_of_isBlank {x : Char} (h : isBlank x = true) : headChar x = true := by
  rw [headChar, h, Bool.or_true, Bool.true_or]

/-- From one index on there are only such characters up to a parenthesis. -/
def OpensAfter (text : List Char) (i : Nat) : Prop :=
  ∃ q, i ≤ q ∧ HoldsAt text (· == '(') q ∧ Throughout text headChar i q

theorem OpensAfter.of_throughout (h : OpensAfter text j) (hij : i ≤ j) (hrun : Throughout text headChar i j) :
    OpensAfter text i := by
  obtain ⟨q, hjq, hparen, hlater⟩ := h
  exact ⟨q, hij.trans hjq, hparen, hrun.trans hlater⟩

theorem opensAfter_or_of_annotations (h : annotations.Spans text i j) :
    OpensAfter text i ∨ Throughout text headChar i j := by
  induction h using Relation.ReflTransGen.head_induction_on with
  | refl => exact .inr (.empty (Nat.le_refl j))
  | @head a m hstep hlater ih =>
    obtain ⟨-, b, hat, c, hword, d, hoption, hblanks⟩ := hstep
    have hatRun : Throughout text headChar a b :=
      (within_text (by decide : "@".toList.all headChar = true)).throughout hat
    have hwordRun : Throughout text headChar b c := by
      have hwithin : (some1 isWord).Within headChar := ⟨fun _ => headChar_of_isWord, fun _ => headChar_of_isWord⟩
      exact hwithin.throughout hword
    rcases hoption with ⟨_, ⟨hparen, -⟩, -⟩ | hnone
    · exact .inl ⟨c, hat.le.trans hword.le, hparen, hatRun.trans hwordRun⟩
    · obtain rfl : d = c := hnone
      have hblanksRun : Throughout text headChar d m := by
        have hwithin : blanks1.Within headChar := ⟨fun _ => headChar_of_isBlank, fun _ => headChar_of_isBlank⟩
        exact hwithin.throughout hblanks
      have hrun := (hatRun.trans hwordRun).trans hblanksRun
      have hle := (hat.le.trans hword.le).trans hblanks.le
      exact ih.imp (fun h => h.of_throughout hle hrun) fun h => hrun.trans h

theorem within_oneWord {p : Char → Bool} {choices : List String} (h : ∀ word ∈ choices, word.toList.all p = true) :
    (oneWord choices).Within p := by
  induction choices with
  | nil => exact trivial
  | cons word choices ih =>
    have hword := within_text (h word List.mem_cons_self)
    cases choices with
    | nil => exact hword
    | cons next choices => exact ⟨hword, ih fun w hw => h w (List.mem_cons_of_mem word hw)⟩

/-- A match of a head begins a line and reaches a parenthesis before anything that a head cannot hold. -/
theorem opensAfter_of_spans (hknown : AreWords known) (h : (Functions.typedMethod known).Spans text i e) :
    Edge.lineStart.holds (on text i) = true ∧ OpensAfter text i := by
  obtain ⟨_, ⟨hline, hi⟩, a, hspaces, b, hannotations, c, hmodifiers, d, htype, m, hgap, n, hname, q, hblanks, r, hlist, -⟩ := h
  obtain rfl : i = _ := hi.symm
  have hparen : HoldsAt text (· == '(') q := (spans_parameterList hlist).elim fun _ h => h.1
  have hblank : ∀ x, isBlank x = true → headChar x = true := fun _ => headChar_of_isBlank
  have hword : ∀ x, isWord x = true → headChar x = true := fun _ => headChar_of_isWord
  have hspaceChars : spaces.Within headChar := fun x hx => by
    rw [among, List.contains_cons, List.contains_cons, Bool.or_eq_true, Bool.or_eq_true, beq_iff_eq, beq_iff_eq] at hx
    rcases hx with rfl | rfl | hx
    · decide
    · decide
    · cases hx
  have hwords : (manyOf [oneWord known, blanks1]).Within headChar :=
    ⟨within_oneWord fun word hmem => List.all_eq_true.mpr fun x hx => hword x (List.all_eq_true.mp (hknown word hmem) x hx),
      hblank, hblank⟩
  have htypeChars : (some1 typeChar).Within headChar := by
    have hchar : ∀ x, typeChar x = true → headChar x = true := fun x hx => by
      rw [typeChar, either, Bool.or_eq_true] at hx
      rcases hx with hx | hx
      · exact hword x hx
      · rw [headChar, Bool.or_eq_true]
        refine .inr ?_
        unfold among at hx ⊢
        rw [List.contains_cons, hx, Bool.or_true]
    exact ⟨hchar, hchar⟩
  have hgapChars : blanks1.Within headChar := ⟨hblank, hblank⟩
  have hblankChars : blanks.Within headChar := hblank
  have hnameChars : Pattern.name.Within headChar := ⟨fun x hx => hword x (isWord_of_nameStart hx), hword⟩
  have hafter : OpensAfter text b := by
    refine ⟨q, ?_, hparen, ?_⟩
    · exact ((((hmodifiers.le.trans htype.le).trans hgap.le).trans hname.le).trans hblanks.le)
    · exact ((((hwords.throughout hmodifiers).trans (htypeChars.throughout htype)).trans
        (hgapChars.throughout hgap)).trans (hnameChars.throughout hname)).trans (hblankChars.throughout hblanks)
  have hmargin : OpensAfter text a :=
    (opensAfter_or_of_annotations hannotations).elim id fun hrun => hafter.of_throughout hannotations.le hrun
  exact ⟨hline, hmargin.of_throughout hspaces.le (hspaceChars.throughout hspaces)⟩

/-- No head is matched within a declaration behind its first character, nor at the end of its line. -/
theorem not_spans_inside_typed (hknown : AreWords known) (hd : d.IsTyped)
    (h : text.drop i = d.typedHead ++ d.block ++ rest) (hik : i < k) (hk : k ≤ i + (d.typedHead ++ d.block).length) :
    ¬ (Functions.typedMethod known).Spans text k e := by
  intro hspans
  obtain ⟨hline, q, hkq, hparen, hrun⟩ := opensAfter_of_spans hknown hspans
  have hlength := hspans.lt_length (by rfl)
  have hnewline : text[k - 1]? = some '\n' := newline_of_lineStart (by omega) (Nat.le_of_lt hlength) hline
  have hparts : text.drop i = (spaced d.words ++ d.name) ++
      '(' :: ((d.list ++ (')' :: ' ' :: '{' :: d.body)) ++ '}' :: rest) := by
    rw [h, Declared.typedHead, Declared.call, Declared.block]
    simp only [List.append_assoc, List.cons_append, List.nil_append]
  have htotal : (d.typedHead ++ d.block).length =
      (spaced d.words ++ d.name).length + 1 + (d.list ++ (')' :: ' ' :: '{' :: d.body)).length + 1 := by
    rw [Declared.typedHead, Declared.call, Declared.block]
    simp only [List.length_append, List.length_cons, List.length_nil]
    omega
  generalize hfront : spaced d.words ++ d.name = front at hparts htotal
  generalize hinner : d.list ++ (')' :: ' ' :: '{' :: d.body) = inner at hparts htotal
  have hinnerDrop : text.drop (i + front.length + 1) = inner ++ '}' :: rest := drop_succ_of_drop (drop_add_length hparts)
  rcases Nat.lt_or_ge (i + front.length) k with hbehind | hwithin
  · rcases Nat.lt_or_ge (i + front.length + 1 + inner.length) k with hafter | hbefore
    -- the line behind the declaration is not begun by its last brace
    · have hlast : text[k - 1]? = some '}' := by
        rw [show k - 1 = i + front.length + 1 + inner.length by omega, ← List.head?_drop, drop_add_length hinnerDrop]
        rfl
      rw [hlast] at hnewline
      exact absurd (Option.some.inj hnewline) (by decide)
    -- the brace comes before any parenthesis
    · obtain ⟨l, rfl⟩ := Nat.exists_eq_add_of_le hbehind
      have hl : l ≤ inner.length := by omega
      have hrestDrop : text.drop (i + front.length + 1 + l) = inner.drop l ++ '}' :: rest := by
        rw [← List.drop_drop, hinnerDrop, List.drop_append_of_le_length hl]
      have hnone : ∀ x ∈ inner.drop l, (x == '(') = false := by
        intro x hx
        rw [beq_eq_false_iff_ne]
        rintro rfl
        have hmem := List.mem_of_mem_drop hx
        rw [← hinner] at hmem
        rcases List.mem_append.mp hmem with hmem | hmem
        · exact hd.paren_not_mem_list (.inl rfl) hmem
        · simp only [List.mem_cons, Char.reduceEq, false_or] at hmem
          exact hd.paren_not_mem hmem
      have hq : q = i + front.length + 1 + l + (inner.drop l).length :=
        eq_add_of_stop hnone (by decide) hrestDrop hkq hrun hparen
      have hat : text[q]? = some '}' := by
        rw [hq, ← List.head?_drop, drop_add_length hrestDrop]
        rfl
      exact absurd (hparen.eq_true hat) (by decide)
  · have hat : text[i + (k - 1 - i)]? = front[k - 1 - i]? := getElem?_of_drop hparts (by omega)
    rw [show i + (k - 1 - i) = k - 1 by omega, hnewline] at hat
    have hmem : '\n' ∈ front := List.mem_of_getElem? hat.symm
    rw [← hfront] at hmem
    exact (isWord_or_eq_of_mem hd.words_areNames hd.name_isName hmem).elim (by decide) (by decide)

/-! ## Where a head is matched -/

theorem spans_front {front : List (List Char)} (hnames : ∀ word ∈ front, IsName word)
    (hknown : ∀ word ∈ front, String.ofList word ∈ known) (hrest : ∀ x ∈ rest.head?, isWord x = true)
    (h : text.drop i = spaced front ++ rest) :
    (manyOf [oneWord known, blanks1]).Spans text i (i + (spaced front).length) := by
  induction front generalizing i with
  | nil => exact .refl
  | cons word more ih =>
    have hmoreNames : ∀ w ∈ more, IsName w := fun w hw => hnames w (List.mem_cons_of_mem word hw)
    rw [spaced_cons, List.append_assoc, List.cons_append] at h
    have hnext : text.drop (i + word.length + 1) = spaced more ++ rest := drop_succ_of_drop (drop_add_length h)
    have hhead : ∀ x ∈ (spaced more ++ rest).head?, isBlank x = false := by
      intro x hx
      cases more with
      | nil => exact not_isBlank_of_isWord (hrest x hx)
      | cons next more =>
        rw [spaced_cons, List.append_assoc] at hx
        exact not_isBlank_of_isWord ((hmoreNames next List.mem_cons_self).head?_append _ x hx)
    have hword : (oneWord known).Spans text i (i + word.length) := by
      refine oneWord_spans (hknown word List.mem_cons_self) ?_
      have htaken : Takes text (Pattern.text (String.ofList word)) i (i + (String.ofList word).toList.length) [] :=
        takes_text (by rw [String.toList_ofList]; exact h)
      rw [String.toList_ofList] at htaken
      exact htaken.finds.spans
    have hblank : blanks1.Spans text (i + word.length) (i + word.length + 1) :=
      (takes_blank1 hhead (drop_add_length h)).finds.spans
    have hlater := ih hmoreNames (fun w hw => hknown w (List.mem_cons_of_mem word hw)) hnext
    have hlength : i + (spaced (word :: more)).length = i + word.length + 1 + (spaced more).length := by
      rw [spaced_cons, List.length_append, List.length_cons]
      omega
    rw [hlength]
    exact .head ⟨by omega, _, hword, hblank⟩ hlater

/-- A typed head is covered if all the words before the last one are known. -/
theorem spans_typedHead (hd : d.IsTyped) {front : List (List Char)} {type : List Char} (hsplit : d.words = front ++ [type])
    (hfront : ∀ word ∈ front, String.ofList word ∈ known) (hline : Edge.lineStart.holds (on text i) = true)
    (h : text.drop i = d.typedHead ++ '{' :: rest) : ∃ e, (Functions.typedMethod known).Spans text i e := by
  have hnames := hd.words_areNames
  rw [hsplit, List.forall_mem_append, List.forall_mem_singleton] at hnames
  have hwords : text.drop i =
      spaced front ++ (type ++ ' ' :: (d.name ++ '(' :: (d.list ++ ')' :: ' ' :: '{' :: rest))) := by
    rw [h, Declared.typedHead, Declared.call, hsplit, spaced_append, spaced_cons, show spaced [] = [] from rfl]
    simp only [List.append_assoc, List.cons_append, List.nil_append]
  have htypeDrop := drop_add_length hwords
  have hnameDrop := drop_succ_of_drop (drop_add_length htypeDrop)
  have hparenDrop := drop_add_length hnameDrop
  have hendDrop := drop_add_length (drop_succ_of_drop hparenDrop)
  have hblankDrop := drop_succ_of_drop hendDrop
  have hmodifiers := spans_front hnames.1 hfront (hnames.2.head?_append _) hwords
  have htype := takes_some1_of_ne_nil (c := typeChar) hnames.2.ne_nil htypeDrop
    (fun x hx => by rw [typeChar, either, hnames.2.isWord hx, Bool.true_or]) (forall_mem_head? (by decide))
  have hgap := takes_blank1 (fun x hx => not_isBlank_of_isWord (hd.name_isName.head?_append _ x hx))
    (drop_add_length htypeDrop)
  have hspelled : Takes text Pattern.name _ _ [] := takes_spelled hd.name_isName hnameDrop (forall_mem_head? (by decide))
  have hlist := takes_parameterList (n := 3) (hd.paren_not_mem_list (.inr rfl)) hparenDrop
  have hblank := takes_blank (forall_mem_head? (by decide)) hblankDrop
  have hbrace := takes_brace (drop_succ_of_drop hblankDrop)
  have hnone {a : Nat} : blanks.Spans text a a := ⟨Nat.le_refl a, .empty (Nat.le_refl a)⟩
  exact ⟨_, _, ⟨hline, rfl⟩, _, ⟨Nat.le_refl i, .empty (Nat.le_refl i)⟩, _, .refl, _, hmodifiers, _, htype.finds.spans, _,
    hgap.finds.spans, _, hspelled.finds.spans, _, hnone, _, hlist.finds.spans, _, hblank.finds.spans, _, .inr rfl, _, hnone,
    hbrace.finds.spans⟩

/-! ## What is read off a declaration -/

/-- All the words that mark the declaration are known. -/
def Declared.IsKnown (d : Declared) (known : List String) : Prop := ∀ word ∈ d.modifiers, String.ofList word ∈ known

instance (d : Declared) (known : List String) : Decidable (d.IsKnown known) :=
  inferInstanceAs (Decidable (∀ word ∈ d.modifiers, String.ofList word ∈ known))

theorem isKnown_of_front (hd : d.IsTyped) (hconstructor : ∀ word ∈ Declared.constructorWords, word ∈ known)
    {front : List (List Char)} {type : List Char} (hsplit : d.words = front ++ [type])
    (hfront : ∀ word ∈ front, String.ofList word ∈ known) : d.IsKnown known := by
  rcases Declared.last_of_words hsplit with ⟨-, rfl⟩ | ⟨hnone, -⟩
  · exact hfront
  · exact fun word hword => hconstructor _ ((hd.isConstructor hnone).2 word hword)

theorem front_of_isKnown (h : d.IsKnown known) {front : List (List Char)} {type : List Char}
    (hsplit : d.words = front ++ [type]) : ∀ word ∈ front, String.ofList word ∈ known := by
  intro word hword
  rcases Declared.last_of_words hsplit with ⟨-, rfl⟩ | ⟨-, hmodifiers⟩
  · exact h word hword
  · exact h word (hmodifiers ▸ List.mem_append_left [type] hword)

/-- What a match of a typed head tells is what the declaration stands for on the line of its name. -/
theorem ofTypedMethod?_eq (hd : d.IsTyped) (score : Scorer) {m : Match} {line : Nat} {front : List (List Char)}
    {type : List Char} (hsplit : d.words = front ++ [type])
    (hgroups : textsOf m.groups = [(3, d.list), (2, d.name), (1, type)]) (hline : Functions.lineOfGroup m 2 = line)
    (hstop : m.stop.rest = d.body ++ '}' :: rest) :
    Functions.ofTypedMethod? score m = some (d.function score line d.result) := by
  have htext (n : Nat) : m.text? n = [(3, d.list), (2, d.name), (1, type)].lookup n := by
    rw [m.text?_eq_lookup, hgroups]
  have htype : m.groupText 1 = type := by rw [Match.groupText, htext]; rfl
  have hname : m.groupText 2 = d.name := by rw [Match.groupText, htext]; rfl
  have hlist : m.text? 3 = some d.list := htext 3
  have hreserved : reservedNames.contains (String.ofList d.name) = false := by simpa using hd.name_not_reserved
  have hresult : Functions.notATypeWord.contains (String.ofList type) = false ∧
      (if Functions.modifiers.contains (String.ofList type) then none else some (String.ofList type)) =
        d.result.map String.ofList := by
    rcases Declared.last_of_words hsplit with ⟨hsome, -⟩ | ⟨hnone, hmodifiers⟩
    · obtain ⟨hmodifier, hword⟩ := hd.type_isType type hsome
      rw [hsome, Option.map_some, if_neg (by simpa using hmodifier)]
      exact ⟨by simpa using hword, rfl⟩
    · have hmem : String.ofList type ∈ Declared.constructorWords :=
        (hd.isConstructor hnone).2 type (hmodifiers ▸ List.mem_append_right front List.mem_cons_self)
      rw [hnone]
      generalize String.ofList type = word at hmem
      simp only [Declared.constructorWords, List.mem_cons, List.not_mem_nil, or_false] at hmem
      rcases hmem with rfl | rfl | rfl | rfl <;> exact ⟨by decide, by decide⟩
  unfold Functions.ofTypedMethod? Declared.function
  simp only [htype, hname, hlist, hline, hstop, hreserved, hresult.1, hresult.2, hd.bracedOpen_body, hd.parametersOf_list,
    Bool.or_false, Bool.false_eq_true, if_false]

/-- A declaration on lines of its own is read as it is written, if all the words that mark it are known, and else it is
passed over. -/
theorem readsOn_typed (hknown : AreWords known) (hconstructor : ∀ word ∈ Declared.constructorWords, word ∈ known)
    (score : Scorer) (hd : d.IsTyped) :
    (Functions.typedMethod known).ReadsOn (Functions.ofTypedMethod? score) (d.typedHead ++ d.block) fun line =>
      if d.IsKnown known then [d.function score line d.result] else [] := by
  intro above rest habove hrest
  have hline : Edge.lineStart.holds (on (above ++ (d.typedHead ++ d.block ++ rest)) above.length) = true :=
    lineStart_append habove
  generalize htext : above ++ (d.typedHead ++ d.block ++ rest) = text at hline ⊢
  have hdrop : text.drop above.length = d.typedHead ++ d.block ++ rest := by rw [← htext, List.drop_left]
  have hhead : text.drop above.length = d.typedHead ++ '{' :: (d.body ++ '}' :: rest) := by
    rw [hdrop, Declared.block]
    simp only [List.append_assoc, List.cons_append, List.nil_append]
  have hinside {k e : Nat} (hk : above.length < k) (hlt : k < above.length + (d.typedHead ++ d.block).length + 1) :
      ¬ (Functions.typedMethod known).Spans text k e :=
    not_spans_inside_typed hknown hd hdrop hk (by omega)
  split
  · rename_i hmarked
    have hsplit : d.words = d.words.dropLast ++ [d.words.getLast hd.words_ne_nil] :=
      (List.dropLast_append_getLast hd.words_ne_nil).symm
    obtain ⟨e, hspans⟩ := spans_typedHead hd hsplit (front_of_isKnown hmarked hsplit) hline hhead
    obtain ⟨m, hm⟩ := Option.isSome_iff_exists.mp (here?_isSome hspans)
    obtain ⟨e, hfinds, -⟩ := finds_of_here? hm
    obtain ⟨front, type, hsplit, -, rfl, hgroups, s, hlookup, hstart⟩ := captures_typedHead hknown hd hhead hfinds.captures
    have hnameLine : Functions.lineOfGroup m 2 = above.count '\n' + 1 := by
      have htake : text.take (above.length + (spaced d.words).length) = above ++ spaced d.words := by
        rw [← htext, Declared.typedHead, ← List.length_append]
        simp only [List.append_assoc]
        rw [← List.append_assoc, List.take_left]
      have hnone : (spaced d.words).count '\n' = 0 := List.count_eq_zero.mpr fun hmem =>
        (isWord_or_eq_of_mem hd.words_areNames hd.name_isName (List.mem_append_left d.name hmem)).elim (by decide) (by decide)
      rw [Functions.lineOfGroup, Match.group?, hlookup, Option.map_some, Option.getD_some, hstart, line_on, htake,
        List.count_append, hnone, Nat.add_zero]
    have hbody : m.stop.rest = d.body ++ '}' :: rest := by
      rw [hfinds.2.2]
      exact drop_succ_of_drop (drop_add_length hhead)
    have hmatch := reads_match (Functions.ofTypedMethod? score) hfinds
    rw [ofTypedMethod?_eq hd score hsplit hgroups hnameLine hbody] at hmatch
    have hlength : (d.typedHead ++ d.block).length = d.typedHead.length + d.block.length := List.length_append
    have hpos : 0 < d.block.length := by rw [Declared.block]; exact Nat.succ_pos _
    exact hmatch.trans (reads_nil (by omega) fun k e hk hlt => hinside (by omega) hlt)
  · rename_i hmarked
    refine reads_nil (by omega) fun k e hk hlt hspans => ?_
    rcases Nat.eq_or_lt_of_le hk with rfl | hbehind
    · obtain ⟨m, hm⟩ := Option.isSome_iff_exists.mp (here?_isSome hspans)
      obtain ⟨e, hfinds, -⟩ := finds_of_here? hm
      obtain ⟨front, type, hsplit, hfront, -⟩ := captures_typedHead hknown hd hhead hfinds.captures
      exact hmarked (isKnown_of_front hd hconstructor hsplit hfront)
    · exact hinside hbehind hlt hspans

end CodeCensus
