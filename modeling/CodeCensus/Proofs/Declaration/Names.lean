import CodeCensus.Declaration.Functions
import CodeCensus.Proofs.Declaration.Parameters
import CodeCensus.Proofs.Pattern.Captures
import CodeCensus.Proofs.Pattern.Taking

/-! Names and lists of parameters, as they are written and as the patterns of declarations read them. A name is read
as far as it goes, so where it begins tells where it ends; a list of parameters ends at its first parenthesis. -/

namespace CodeCensus

open Text Pattern Cursor

/-! ## Names as written -/

/-- A text that begins with a character of one class and goes on with characters of another. -/
def Spelled (start more : Char → Bool) (text : List Char) : Prop :=
  ∃ first rest, text = first :: rest ∧ start first = true ∧ ∀ c ∈ rest, more c = true

/-- A name: a letter or an underscore, then characters of words. -/
def IsName (text : List Char) : Prop := Spelled nameStart isWord text

/-- A name of a script: dollar signs count like letters. -/
def IsScriptName (text : List Char) : Prop := Spelled nameStartOrDollar wordOrDollar text

theorem Spelled.ne_nil {start more : Char → Bool} {name : List Char} (h : Spelled start more name) : name ≠ [] := by
  obtain ⟨first, rest, rfl, -⟩ := h
  exact List.cons_ne_nil first rest

theorem isWord_of_nameStart {c : Char} (h : nameStart c = true) : isWord c = true := by
  rw [nameStart, Bool.or_eq_true, beq_iff_eq] at h
  rcases h with h | rfl
  · have halphanum : c.isAlphanum = true := by simp only [Char.isAlphanum, h, Bool.true_or]
    rw [isWord]
    simp only [toNat_lt_of_isAlphanum halphanum, if_true, halphanum, Bool.true_or]
  · decide

namespace IsName

variable {name : List Char}

theorem isWord (h : IsName name) {c : Char} (hc : c ∈ name) : Text.isWord c = true := by
  obtain ⟨first, rest, rfl, hfirst, hrest⟩ := h
  rcases List.mem_cons.mp hc with rfl | hc
  · exact isWord_of_nameStart hfirst
  · exact hrest c hc

theorem isBlank (h : IsName name) {c : Char} (hc : c ∈ name) : Text.isBlank c = false :=
  not_isBlank_of_isWord (h.isWord hc)

theorem not_mem (h : IsName name) {c : Char} (hc : Text.isWord c = false) : c ∉ name :=
  fun hmem => by simp [h.isWord hmem] at hc

theorem head?_append (h : IsName name) (rest : List Char) : ∀ c ∈ (name ++ rest).head?, Text.isWord c = true := by
  obtain ⟨first, more, rfl, hfirst, -⟩ := h
  intro c hc
  obtain rfl : first = c := Option.some.inj hc
  exact isWord_of_nameStart hfirst

theorem nameIn?_blanks_append (h : IsName name) {before : List Char} (hbefore : ∀ c ∈ before, Text.isBlank c = true) :
    nameIn? (before ++ name) = some (String.ofList name) := by
  have hnames : Names [':', '='] name (before ++ name) :=
    ⟨before, [], [], by simp, hbefore, by simp, by simp⟩
  have hname : parameterName (before ++ name) = name :=
    parameterName_of_names hnames (Spelled.ne_nil h) fun c hc =>
      ⟨h.isBlank hc, fun heq => h.not_mem (by decide) (heq ▸ hc), fun heq => h.not_mem (by decide) (heq ▸ hc)⟩
  rw [nameIn?, hname, if_neg (by simpa using (Spelled.ne_nil h))]

end IsName

theorem wordOrDollar_of_nameStartOrDollar {c : Char} (h : nameStartOrDollar c = true) : wordOrDollar c = true := by
  rw [nameStartOrDollar, Bool.or_eq_true] at h
  rw [wordOrDollar, Bool.or_eq_true]
  exact h.imp_left isWord_of_nameStart

theorem not_wordOrDollar_of_isBlank {c : Char} (h : isBlank c = true) : wordOrDollar c = false := by
  have hne : c ≠ '$' := by
    rintro rfl
    cases h
  rw [wordOrDollar, not_isWord_of_isBlank h, Bool.false_or]
  exact beq_eq_false_iff_ne.mpr hne

theorem not_isBlank_of_wordOrDollar {c : Char} (h : wordOrDollar c = true) : isBlank c = false :=
  Bool.eq_false_iff.mpr fun hblank => by simp [not_wordOrDollar_of_isBlank hblank] at h

theorem IsScriptName.wordOrDollar {name : List Char} (h : IsScriptName name) {c : Char} (hc : c ∈ name) :
    Pattern.wordOrDollar c = true := by
  obtain ⟨first, rest, rfl, hfirst, hrest⟩ := h
  rcases List.mem_cons.mp hc with rfl | hc
  · exact wordOrDollar_of_nameStartOrDollar hfirst
  · exact hrest c hc

/-! ## Lists of names -/

theorem fields_intercalate_spaced {front part : List Char} {more : List (List Char)} (hfront : ',' ∉ front)
    (h : ∀ p ∈ part :: more, ',' ∉ p) :
    fields ',' (front ++ List.intercalate [',', ' '] (part :: more)) =
      (front ++ part) :: more.map (' ' :: ·) := by
  induction more generalizing front part with
  | nil =>
    rw [List.intercalate_singleton]
    exact fields_of_not_mem (by simp [hfront, h])
  | cons next more ih =>
    have hpart : ',' ∉ front ++ part := by simp [hfront, h]
    have hnext : fields ',' ([' '] ++ List.intercalate [',', ' '] (next :: more)) =
        ([' '] ++ next) :: more.map (' ' :: ·) :=
      ih (by decide) fun p hp => h p (List.mem_cons_of_mem part hp)
    have hsplit : front ++ List.intercalate [',', ' '] (part :: next :: more) =
        (front ++ part) ++ ',' :: ([' '] ++ List.intercalate [',', ' '] (next :: more)) := by
      simp [List.intercalate_cons_cons]
    rw [hsplit, fields_append_sep hpart, hnext]
    rfl

theorem parameterNames_intercalate_of {ps : List (List Char)}
    (h : ∀ p ∈ ps, ',' ∉ p ∧ ∀ before, (∀ c ∈ before, isBlank c = true) → nameIn? (before ++ p) = some (String.ofList p)) :
    parameterNames (List.intercalate [',', ' '] ps) = ps.map String.ofList := by
  cases ps with
  | nil => decide
  | cons part more =>
    have hfields : fields ',' ([] ++ List.intercalate [',', ' '] (part :: more)) =
        ([] ++ part) :: more.map (' ' :: ·) :=
      fields_intercalate_spaced List.not_mem_nil fun p hp => (h p hp).1
    have hspaced (p : List Char) (hp : p ∈ more) : nameIn? (' ' :: p) = some (String.ofList p) := by
      have hblank : ∀ c ∈ [' '], isBlank c = true := List.forall_mem_singleton.mpr rfl
      have hname := (h p (List.mem_cons_of_mem part hp)).2 [' '] hblank
      rwa [List.singleton_append] at hname
    have hmore : (more.map (' ' :: ·)).filterMap nameIn? = more.map String.ofList := by
      rw [List.filterMap_map, ← List.filterMap_eq_map]
      refine List.filterMap_congr fun p hp => ?_
      rw [Function.comp_apply, Function.comp_apply]
      exact hspaced p hp
    have hpart := (h part List.mem_cons_self).2 [] (List.forall_mem_nil _)
    rw [List.nil_append] at hpart
    rw [List.nil_append, List.nil_append] at hfields
    rw [parameterNames_eq, hfields, List.filterMap_cons_some hpart, hmore, List.map_cons]

theorem parameterNames_intercalate {ps : List (List Char)} (h : ∀ p ∈ ps, IsName p) :
    parameterNames (List.intercalate [',', ' '] ps) = ps.map String.ofList :=
  parameterNames_intercalate_of fun p hp =>
    ⟨(h p hp).not_mem (by decide), fun _ hbefore => (h p hp).nameIn?_blanks_append hbefore⟩

/-! ## Names within matches -/

variable {text : List Char} {a b i j n : Nat}

theorem takes_spelled {start more : Char → Bool} {name rest : List Char} (hname : Spelled start more name)
    (h : text.drop i = name ++ rest) (hrest : ∀ c ∈ rest.head?, more c = false) :
    Takes text (.seq (.one start) (.run more)) i (i + name.length) [] := by
  obtain ⟨first, tail, rfl, hfirst, htail⟩ := hname
  have hone : Takes text (.one start) i (i + 1) [] := takes_one h hfirst
  have hdrop : text.drop (i + 1) = tail ++ rest := drop_succ_of_drop h
  rw [List.length_cons, Nat.add_comm tail.length, ← Nat.add_assoc]
  exact hone.seq (takes_run hdrop htail hrest)

/-- A name with dollar signs that goes on as far as it can. -/
structure NameAt (text : List Char) (a b : Nat) : Prop where
  lt : a < b
  starts : HoldsAt text nameStartOrDollar a
  goesOn : Throughout text wordOrDollar (a + 1) b
  ends : ¬ HoldsAt text wordOrDollar b

theorem NameAt.end_unique {b' : Nat} (h : NameAt text a b) (h' : NameAt text a b') : b = b' := by
  have hle {b b' : Nat} (h : NameAt text a b) (h' : NameAt text a b') : b' ≤ b :=
    Nat.le_of_not_lt fun hlt => h.ends (h'.goesOn b h.lt hlt)
  exact Nat.le_antisymm (hle h' h) (hle h h')

theorem NameAt.throughout (h : NameAt text a b) : Throughout text wordOrDollar a b :=
  .cons (h.starts.imp fun _ => wordOrDollar_of_nameStartOrDollar) h.goesOn

theorem NameAt.length_text (h : NameAt text a b) : (Stretch.text ⟨on text a, on text b⟩).length = b - a := by
  have hlt := h.lt
  have hle : b ≤ text.length := h.throughout.le_length.resolve_left (by omega)
  change ((text.drop a).take (b - a)).length = b - a
  rw [List.length_take, List.length_drop]
  omega

/-- Patterns that a name cannot run into. -/
structure EndsNames (after : List Pattern) : Prop where
  not_mem : 1 ∉ (inOrder after).groupNumbers
  not_empty : (inOrder after).opening.mayBeEmpty = false
  chars : ∀ c, (inOrder after).opening.chars c = true → wordOrDollar c = false

theorem EndsNames.exists_nameAt {before after : List Pattern} (hafter : EndsNames after) {m : Match}
    (h : (inOrder (before ++ keep 1 [dollarName] :: after)).Finds text m i j) :
    ∃ a b, (inOrder before).Spans text i a ∧ NameAt text a b ∧ (inOrder after).Spans text b j ∧
      m.group? 1 = some ⟨on text a, on text b⟩ := by
  obtain ⟨a, b, hbefore, ⟨_, ⟨hstart, rfl⟩, hle, hrun⟩, hrest, hgroup⟩ := h.exists_kept hafter.not_mem
  refine ⟨a, b, hbefore, ⟨hle, hstart, hrun, fun hword => ?_⟩, hrest, hgroup⟩
  rcases hrest.begins with ⟨-, hempty⟩ | ⟨-, hopens⟩
  · rw [hafter.not_empty] at hempty
    cases hempty
  · exact hopens.elim hword hafter.chars

/-! ## Lists of parameters within matches -/

theorem takes_parameterList {list rest : List Char} (hlist : ')' ∉ list)
    (h : text.drop i = '(' :: (list ++ ')' :: rest)) :
    Takes text (Functions.parameterList n) i (i + 1 + list.length + 1)
      [(n, ⟨on text (i + 1), on text (i + 1 + list.length)⟩)] := by
  have hinside : text.drop (i + 1) = list ++ ')' :: rest := drop_succ_of_drop h
  have hopen : Takes text "(" i (i + 1) [] := takes_text h
  have hrun : Takes text (.run (beyond [')'])) (i + 1) (i + 1 + list.length) [] := by
    refine takes_run hinside (fun c hc => ?_) (forall_mem_head? (by decide))
    have hne : c ≠ ')' := fun heq => hlist (heq ▸ hc)
    simpa [beyond] using hne
  have hclose : Takes text ")" (i + 1 + list.length) (i + 1 + list.length + 1) [] :=
    takes_text (drop_add_length hinside)
  exact hopen.seq (hrun.group.seq hclose)

theorem spans_parameterList (h : (Functions.parameterList n).Spans text i j) :
    ∃ r, HoldsAt text (· == '(') i ∧ i + 1 ≤ r ∧ Throughout text (beyond [')']) (i + 1) r ∧
      HoldsAt text (· == ')') r ∧ j = r + 1 := by
  obtain ⟨_, ⟨hopen, rfl⟩, r, ⟨hle, hrun⟩, hclose, rfl⟩ := h
  exact ⟨r, hopen, hle, hrun, hclose, rfl⟩

end CodeCensus
