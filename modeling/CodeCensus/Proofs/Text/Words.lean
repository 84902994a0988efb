import CodeCensus.Proofs.Text.Separators
import CodeCensus.Proofs.Text.Trim

/-! Words between blanks, joined with single spaces. Such a text can be told part by part: each gap becomes one space,
and nothing else changes. -/

namespace CodeCensus.Text

def IsBlanks (gap : List Char) : Prop := ∀ c ∈ gap, isBlank c = true

def IsBlanks1 (gap : List Char) : Prop := gap ≠ [] ∧ IsBlanks gap

theorem IsBlanks1.head?_append {gap : List Char} (h : IsBlanks1 gap) (rest : List Char) :
    ∀ c ∈ (gap ++ rest).head?, isBlank c = true := by
  obtain ⟨hne, hgap⟩ := h
  obtain ⟨first, gap, rfl⟩ := List.exists_cons_of_ne_nil hne
  intro c hc
  obtain rfl : first = c := Option.some.inj hc
  exact hgap first List.mem_cons_self

theorem IsBlanks1.append {gap more : List Char} (h : IsBlanks1 gap) (hmore : IsBlanks more) : IsBlanks1 (gap ++ more) :=
  ⟨List.append_ne_nil_of_left_ne_nil h.1 more, fun c hc => (List.mem_append.mp hc).elim (h.2 c) (hmore c)⟩

/-! ## Words -/

variable {c d : Char} {front gap rest word : List Char}

/-- The stretches between blanks, empty ones too. -/
def stretches (text : List Char) : List (List Char) :=
  text.foldr
    (fun c (done : List (List Char)) =>
      if isBlank c then [] :: done
      else
        match done with
        | [] => [[c]]
        | word :: others => (c :: word) :: others)
    [[]]

theorem words_eq_filter (text : List Char) : words text = (stretches text).filter fun word => !word.isEmpty := rfl

theorem stretches_cons_of_blank (hc : isBlank c = true) (rest : List Char) :
    stretches (c :: rest) = [] :: stretches rest := if_pos hc

theorem stretches_cons_of_eq (hc : isBlank c = false) {others : List (List Char)} (h : stretches rest = word :: others) :
    stretches (c :: rest) = (c :: word) :: others := by
  have hcons : stretches (c :: rest) = if isBlank c then [] :: stretches rest else
    match stretches rest with
    | [] => [[c]]
    | word :: others => (c :: word) :: others := rfl
  rw [hcons, hc, h]
  rfl

theorem exists_stretches_eq (text : List Char) : ∃ word others, stretches text = word :: others := by
  induction text with
  | nil => exact ⟨[], [], rfl⟩
  | cons c rest ih =>
    obtain ⟨word, others, h⟩ := ih
    by_cases hc : isBlank c = true
    · exact ⟨[], _, stretches_cons_of_blank hc rest⟩
    · exact ⟨c :: word, others, stretches_cons_of_eq (Bool.eq_false_iff.mpr hc) h⟩

theorem words_cons_of_blank (hc : isBlank c = true) (rest : List Char) : words (c :: rest) = words rest := by
  rw [words_eq_filter, stretches_cons_of_blank hc]
  rfl

theorem words_blanks_append (hgap : IsBlanks gap) (rest : List Char) : words (gap ++ rest) = words rest := by
  induction gap with
  | nil => rfl
  | cons c gap ih =>
    obtain ⟨hc, hgap⟩ := List.forall_mem_cons.mp hgap
    rw [List.cons_append, words_cons_of_blank hc, ih hgap]

/-- Before another letter, a letter lengthens the first word. -/
theorem exists_words_cons_cons (hc : isBlank c = false) (hd : isBlank d = false) (rest : List Char) :
    ∃ word others, words (d :: rest) = word :: others ∧ words (c :: d :: rest) = (c :: word) :: others := by
  obtain ⟨word, others, h⟩ := exists_stretches_eq rest
  have hd' := stretches_cons_of_eq hd h
  refine ⟨d :: word, others.filter fun word => !word.isEmpty, ?_, ?_⟩
  · rw [words_eq_filter, hd']
    rfl
  · rw [words_eq_filter, stretches_cons_of_eq hc hd']
    rfl

theorem words_cons_cons_of_blank (hc : isBlank c = false) (hd : isBlank d = true) (rest : List Char) :
    words (c :: d :: rest) = [c] :: words rest := by
  rw [words_eq_filter, stretches_cons_of_eq hc (stretches_cons_of_blank hd rest)]
  rfl

theorem words_singleton (hc : isBlank c = false) : words [c] = [[c]] := by
  rw [words_eq_filter, stretches_cons_of_eq hc (show stretches [] = [[]] from rfl)]
  rfl

theorem words_ne_nil (h : ∃ c ∈ rest, isBlank c = false) : words rest ≠ [] := by
  induction rest with
  | nil =>
    obtain ⟨c, hc, -⟩ := h
    cases hc
  | cons c rest ih =>
    by_cases hc : isBlank c = true
    · rw [words_cons_of_blank hc]
      obtain ⟨d, hd, hblank⟩ := h
      rcases List.mem_cons.mp hd with rfl | hd
      · rw [hc] at hblank
        cases hblank
      · exact ih ⟨d, hd, hblank⟩
    · have hc := Bool.eq_false_iff.mpr hc
      cases rest with
      | nil => rw [words_singleton hc]; exact List.cons_ne_nil _ _
      | cons d rest =>
        by_cases hd : isBlank d = true
        · rw [words_cons_cons_of_blank hc hd]
          exact List.cons_ne_nil _ _
        · obtain ⟨word, others, -, h⟩ := exists_words_cons_cons hc (Bool.eq_false_iff.mpr hd) rest
          rw [h]
          exact List.cons_ne_nil _ _

theorem words_append_blanks (hgap : IsBlanks gap) (front : List Char) : words (front ++ gap) = words front := by
  induction front with
  | nil =>
    rw [List.nil_append, ← List.append_nil gap, words_blanks_append hgap]
  | cons c front ih =>
    by_cases hc : isBlank c = true
    · rw [List.cons_append, words_cons_of_blank hc, words_cons_of_blank hc, ih]
    · have hc := Bool.eq_false_iff.mpr hc
      cases front with
      | nil =>
        cases gap with
        | nil => rfl
        | cons d gap =>
          obtain ⟨hd, hgap⟩ := List.forall_mem_cons.mp hgap
          have hnone : words gap = [] := by
            rw [← List.append_nil gap, words_blanks_append hgap]
            rfl
          rw [List.singleton_append, words_cons_cons_of_blank hc hd, hnone, words_singleton hc]
      | cons d front =>
        by_cases hd : isBlank d = true
        · rw [List.cons_append, words_cons_of_blank hd, words_cons_of_blank hd] at ih
          rw [List.cons_append, List.cons_append, words_cons_cons_of_blank hc hd, words_cons_cons_of_blank hc hd, ih]
        · have hd := Bool.eq_false_iff.mpr hd
          obtain ⟨word, others, h, h'⟩ := exists_words_cons_cons hc hd front
          obtain ⟨word', others', hmore, hmore'⟩ := exists_words_cons_cons hc hd (front ++ gap)
          rw [List.cons_append, hmore, h] at ih
          obtain ⟨rfl, rfl⟩ := List.cons.inj ih
          rw [List.cons_append, List.cons_append, hmore', h']

/-- No word but `as` opens a text with that word. -/
theorem not_as_isPrefix (hne : word ≠ []) (hspace : ' ' ∉ word) (has : word ≠ "as".toList)
    (hrest : ∀ c ∈ rest.head?, c ≠ 's') : ¬ "as ".toList <+: word ++ rest := by
  intro hprefix
  have hletters : ['a', 's', ' '] <+: word ++ rest := hprefix
  match word with
  | [] => exact hne rfl
  | [c] =>
    have hmore : ['s', ' '] <+: rest := (List.cons_prefix_cons.mp hletters).2
    cases rest with
    | nil => cases List.prefix_nil.mp hmore
    | cons d rest => exact hrest d rfl (List.cons_prefix_cons.mp hmore).1.symm
  | [c, d] =>
    obtain ⟨rfl, hmore⟩ := List.cons_prefix_cons.mp hletters
    obtain ⟨rfl, -⟩ := List.cons_prefix_cons.mp hmore
    exact has rfl
  | c :: d :: e :: word =>
    obtain ⟨-, hmore⟩ := List.cons_prefix_cons.mp hletters
    obtain ⟨-, hmore⟩ := List.cons_prefix_cons.mp hmore
    obtain rfl : ' ' = e := (List.cons_prefix_cons.mp hmore).1
    exact hspace (by simp)

/-! ## Single spaces -/

/-- The words of a text with one space between each two of them. -/
def squeezed (text : List Char) : List Char := List.intercalate [' '] (words text)

/-- What a gap becomes. -/
def pinch (gap : List Char) : List Char := if gap.isEmpty then [] else [' ']

theorem pinch_of_ne_nil (h : gap ≠ []) : pinch gap = [' '] := if_neg (by rwa [List.isEmpty_iff])

theorem pinch_eq_or (gap : List Char) : pinch gap = [] ∨ pinch gap = [' '] := by
  cases gap with
  | nil => exact .inl rfl
  | cons c gap => exact .inr rfl

theorem isBlanks_pinch (gap : List Char) : IsBlanks (pinch gap) := by
  rcases pinch_eq_or gap with h | h
  · rw [h]
    exact List.forall_mem_nil _
  · rw [h]
    exact List.forall_mem_singleton.mpr (by decide)

theorem squeezed_append_blanks (hgap : IsBlanks gap) (front : List Char) : squeezed (front ++ gap) = squeezed front := by
  rw [squeezed, words_append_blanks hgap]
  rfl

theorem squeezed_cons_of_blank (hc : isBlank c = true) (rest : List Char) : squeezed (c :: rest) = squeezed rest := by
  rw [squeezed, words_cons_of_blank hc]
  rfl

theorem squeezed_cons_of_head? (hc : isBlank c = false) (h : ∃ d ∈ rest.head?, isBlank d = false) :
    squeezed (c :: rest) = c :: squeezed rest := by
  obtain ⟨d, hd, hblank⟩ := h
  obtain ⟨rest, rfl⟩ := List.head?_eq_some_iff.mp hd
  obtain ⟨word, others, h, h'⟩ := exists_words_cons_cons hc hblank rest
  rw [squeezed, squeezed, h, h']
  cases others with
  | nil => rw [List.intercalate_singleton, List.intercalate_singleton]
  | cons other others => rw [List.intercalate_cons_cons, List.intercalate_cons_cons, List.cons_append, List.cons_append]

theorem squeezed_cons_cons_of_blank (hc : isBlank c = false) (hd : isBlank d = true)
    (h : ∃ c ∈ rest, isBlank c = false) : squeezed (c :: d :: rest) = c :: ' ' :: squeezed rest := by
  obtain ⟨word, others, hwords⟩ := List.exists_cons_of_ne_nil (words_ne_nil h)
  rw [squeezed, squeezed, words_cons_cons_of_blank hc hd, hwords, List.intercalate_cons_cons]
  rfl

/-- Behind a letter, a gap before another letter becomes one space. -/
theorem squeezed_append (hfront : ∃ c ∈ front.getLast?, isBlank c = false) (hgap : IsBlanks gap)
    (hrest : ∃ c ∈ rest.head?, isBlank c = false) :
    squeezed (front ++ (gap ++ rest)) = squeezed front ++ (pinch gap ++ squeezed rest) := by
  induction front with
  | nil =>
    obtain ⟨c, hc, -⟩ := hfront
    cases hc
  | cons c front ih =>
    cases front with
    | nil =>
      obtain ⟨d, hd, hblank⟩ := hfront
      obtain rfl : c = d := Option.some.inj hd
      have hsingle : squeezed [c] = [c] := by rw [squeezed, words_singleton hblank, List.intercalate_singleton]
      rw [hsingle]
      cases gap with
      | nil =>
        rw [List.nil_append, List.singleton_append, squeezed_cons_of_head? hblank hrest]
        rfl
      | cons g gap =>
        obtain ⟨hg, hgap⟩ := List.forall_mem_cons.mp hgap
        obtain ⟨d, hd, hletter⟩ := hrest
        have hmem : ∃ c ∈ gap ++ rest, isBlank c = false :=
          ⟨d, List.mem_append_right _ (List.mem_of_mem_head? hd), hletter⟩
        rw [List.singleton_append, List.cons_append, squeezed_cons_cons_of_blank hblank hg hmem, squeezed,
          words_blanks_append hgap]
        rfl
    | cons d front =>
      have hlast : ∃ c ∈ (d :: front).getLast?, isBlank c = false := by rwa [List.getLast?_cons_cons] at hfront
      have ih := ih hlast
      rw [List.cons_append] at ih
      by_cases hc : isBlank c = true
      · rw [List.cons_append, List.cons_append, squeezed_cons_of_blank hc, ih, squeezed_cons_of_blank hc]
      · have hc := Bool.eq_false_iff.mpr hc
        by_cases hd : isBlank d = true
        · obtain ⟨e, he, hletter⟩ := hlast
          have hmem : e ∈ front := (List.mem_cons.mp (List.mem_of_getLast? he)).resolve_left fun heq => by
            rw [heq, hd] at hletter
            cases hletter
          rw [squeezed_cons_of_blank hd, squeezed_cons_of_blank hd] at ih
          rw [List.cons_append, List.cons_append, squeezed_cons_cons_of_blank hc hd ⟨e, List.mem_append_left _ hmem, hletter⟩,
            ih, squeezed_cons_cons_of_blank hc hd ⟨e, hmem, hletter⟩, List.cons_append, List.cons_append]
        · have hd := Bool.eq_false_iff.mpr hd
          rw [List.cons_append, List.cons_append, squeezed_cons_of_head? hc ⟨d, rfl, hd⟩, ih,
            squeezed_cons_of_head? hc ⟨d, rfl, hd⟩, List.cons_append]

theorem squeezed_of_forall (hne : word ≠ []) (hword : ∀ c ∈ word, isBlank c = false) : squeezed word = word := by
  induction word with
  | nil => exact absurd rfl hne
  | cons c word ih =>
    obtain ⟨hc, hword⟩ := List.forall_mem_cons.mp hword
    cases word with
    | nil => rw [squeezed, words_singleton hc, List.intercalate_singleton]
    | cons d word =>
      rw [squeezed_cons_of_head? hc ⟨d, rfl, hword d List.mem_cons_self⟩, ih (List.cons_ne_nil d word) hword]

end CodeCensus.Text
