import CodeCensus.Text.Lines

/-! Lines put together again give the text they come from, and so do the parts of a cut. -/

namespace CodeCensus.Text

theorem fields_ne_nil (sep : Char) (text : List Char) : fields sep text ≠ [] := by
  cases text with
  | nil => simp [fields]
  | cons c rest =>
    rw [fields, List.foldr_cons]
    split
    · simp
    · split <;> simp

theorem fields_cons_sep (sep : Char) (rest : List Char) :
    fields sep (sep :: rest) = [] :: fields sep rest := by
  simp [fields]

theorem fields_cons_of_ne {sep c : Char} {rest : List Char} (h : c ≠ sep) {first : List Char}
    {others : List (List Char)} (hrest : fields sep rest = first :: others) :
    fields sep (c :: rest) = (c :: first) :: others := by
  rw [fields, List.foldr_cons, ← fields, hrest]
  simp [h]

theorem not_mem_of_mem_fields {sep : Char} {field text : List Char} (h : field ∈ fields sep text) :
    sep ∉ field := by
  induction text generalizing field with
  | nil =>
    obtain rfl := List.mem_singleton.mp h
    exact List.not_mem_nil
  | cons c rest ih =>
    by_cases hc : c = sep
    · rw [hc, fields_cons_sep] at h
      rcases List.mem_cons.mp h with rfl | hrest
      · exact List.not_mem_nil
      · exact ih hrest
    · obtain ⟨first, others, hrest⟩ := List.exists_cons_of_ne_nil (fields_ne_nil sep rest)
      rw [fields_cons_of_ne hc hrest] at h
      rcases List.mem_cons.mp h with rfl | hothers
      · intro hmem
        rcases List.mem_cons.mp hmem with hsep | hmem
        · exact hc hsep.symm
        · exact ih (hrest ▸ List.mem_cons_self) hmem
      · exact ih (hrest ▸ List.mem_cons_of_mem first hothers)

theorem fields_of_not_mem {sep : Char} {field : List Char} (h : sep ∉ field) : fields sep field = [field] := by
  induction field with
  | nil => rfl
  | cons c rest ih =>
    have hc : c ≠ sep := fun hc => h (hc ▸ List.mem_cons_self)
    exact fields_cons_of_ne hc (ih fun hrest => h (List.mem_cons_of_mem c hrest))

theorem fields_append_sep {sep : Char} {field : List Char} (h : sep ∉ field) (rest : List Char) :
    fields sep (field ++ sep :: rest) = field :: fields sep rest := by
  induction field with
  | nil => exact fields_cons_sep sep rest
  | cons c front ih =>
    have hc : c ≠ sep := fun hc => h (hc ▸ List.mem_cons_self)
    exact fields_cons_of_ne hc (ih fun hfront => h (List.mem_cons_of_mem c hfront))

/-- Parts that are joined by a character that is in none of them are the fields between its occurrences. -/
theorem fields_intercalate {sep : Char} {parts : List (List Char)} (hne : parts ≠ [])
    (h : ∀ part ∈ parts, sep ∉ part) : fields sep (List.intercalate [sep] parts) = parts := by
  induction parts with
  | nil => exact absurd rfl hne
  | cons part more ih =>
    have hpart : sep ∉ part := h part List.mem_cons_self
    cases more with
    | nil =>
      rw [List.intercalate_singleton]
      exact fields_of_not_mem hpart
    | cons next more =>
      have hrest := ih (List.cons_ne_nil next more) fun part hmem => h part (List.mem_cons_of_mem _ hmem)
      rw [List.intercalate_cons_cons, List.append_assoc, List.singleton_append, fields_append_sep hpart, hrest]

theorem fields_eq_upTo_cons (sep : Char) (text : List Char) :
    fields sep text = upTo sep text :: (fields sep text).tail := by
  induction text with
  | nil => rfl
  | cons c rest ih =>
    by_cases hc : c = sep
    · rw [hc, fields_cons_sep, upTo, List.takeWhile_cons_of_neg (by simp), List.tail_cons]
    · have hkept : upTo sep (c :: rest) = c :: upTo sep rest := List.takeWhile_cons_of_pos (by simpa using hc)
      rw [fields_cons_of_ne hc ih, hkept, List.tail_cons]

theorem fields_append_of_not_mem {sep : Char} {front : List Char} (h : sep ∉ front) (rest : List Char) :
    fields sep (front ++ rest) = (front ++ upTo sep rest) :: (fields sep rest).tail := by
  induction front with
  | nil => exact fields_eq_upTo_cons sep rest
  | cons c front ih =>
    have hc : c ≠ sep := fun hc => h (hc ▸ List.mem_cons_self)
    exact fields_cons_of_ne hc (ih fun hmem => h (List.mem_cons_of_mem c hmem))

theorem fields_append_cons (sep : Char) (front rest : List Char) :
    fields sep (front ++ sep :: rest) = fields sep front ++ fields sep rest := by
  induction front with
  | nil => exact fields_cons_sep sep rest
  | cons c front ih =>
    by_cases hc : c = sep
    · rw [hc, List.cons_append, fields_cons_sep, fields_cons_sep, ih, List.cons_append]
    · rw [fields_eq_upTo_cons sep front, List.cons_append] at ih
      rw [List.cons_append, fields_cons_of_ne hc ih, fields_cons_of_ne hc (fields_eq_upTo_cons sep front),
        List.cons_append]

/-- The fields of joined texts are the fields of each of them. -/
theorem fields_intercalate_eq_flatMap {sep : Char} {parts : List (List Char)} (hne : parts ≠ []) :
    fields sep (List.intercalate [sep] parts) = parts.flatMap (fields sep) := by
  induction parts with
  | nil => exact absurd rfl hne
  | cons part more ih =>
    cases more with
    | nil => rw [List.intercalate_singleton, List.flatMap_singleton]
    | cons next more =>
      rw [List.intercalate_cons_cons, List.append_assoc, List.singleton_append, fields_append_cons,
        ih (List.cons_ne_nil next more), ← List.flatMap_cons]

theorem mem_of_mem_intercalate {sep : List Char} {parts : List (List Char)} {c : Char}
    (h : c ∈ List.intercalate sep parts) : c ∈ sep ∨ ∃ part ∈ parts, c ∈ part := by
  induction parts with
  | nil => cases h
  | cons part more ih =>
    cases more with
    | nil =>
      rw [List.intercalate_singleton] at h
      exact .inr ⟨part, List.mem_singleton_self part, h⟩
    | cons next more =>
      rw [List.intercalate_cons_cons, List.append_assoc, List.mem_append, List.mem_append] at h
      rcases h with hpart | hsep | hrest
      · exact .inr ⟨part, List.mem_cons_self, hpart⟩
      · exact .inl hsep
      · exact (ih hrest).imp_right fun ⟨found, hfound, hmem⟩ => ⟨found, List.mem_cons_of_mem part hfound, hmem⟩

theorem unlines_cons (line : List Char) (below : List (List Char)) :
    unlines (line :: below) = line ++ '\n' :: unlines below := by
  simp [unlines]

theorem unlines_append (above below : List (List Char)) :
    unlines (above ++ below) = unlines above ++ unlines below :=
  List.flatMap_append

theorem unlines_lines (text : List Char) : unlines (lines text) = text ++ ['\n'] := by
  induction text with
  | nil => rfl
  | cons c rest ih =>
    by_cases hc : c = '\n'
    · subst hc
      rw [lines, fields_cons_sep, unlines_cons, ← lines, ih]
      rfl
    · obtain ⟨first, others, hrest⟩ := List.exists_cons_of_ne_nil (fields_ne_nil '\n' rest)
      rw [lines, hrest, unlines_cons] at ih
      rw [lines, fields_cons_of_ne hc hrest, unlines_cons, List.cons_append, ih, List.cons_append]

theorem exists_unlines_eq_append {body : List (List Char)} (h : body ≠ []) :
    ∃ front, unlines body = front ++ ['\n'] := by
  refine ⟨unlines body.dropLast ++ body.getLast h, ?_⟩
  calc unlines body
      = unlines (body.dropLast ++ [body.getLast h]) := by rw [List.dropLast_concat_getLast h]
    _ = unlines body.dropLast ++ body.getLast h ++ ['\n'] := by simp [unlines]

/-! ## Cutting at the first occurrence -/

theorem cutFirstAfter_eq_some {needle seen text before after : List Char}
    (h : cutFirstAfter needle seen text = some (before, after)) :
    seen.reverse ++ text = before ++ needle ++ after := by
  induction text generalizing seen with
  | nil =>
    rw [cutFirstAfter] at h
    split at h
    · rename_i hneedle
      obtain ⟨rfl, rfl⟩ := Prod.mk.inj (Option.some.inj h)
      simp [List.isEmpty_iff.mp hneedle]
    · exact absurd h (by simp)
  | cons c rest ih =>
    rw [cutFirstAfter] at h
    split at h
    · rename_i hprefix
      obtain ⟨rfl, rfl⟩ := Prod.mk.inj (Option.some.inj h)
      obtain ⟨tail, htail⟩ := List.isPrefixOf_iff_prefix.mp hprefix
      rw [← htail, List.drop_left, List.append_assoc]
    · simpa using ih h

theorem cutFirst_eq_some {needle text before after : List Char}
    (h : cutFirst needle text = some (before, after)) :
    text = before ++ needle ++ after := cutFirstAfter_eq_some h

/-- What was passed before stands in front of what the search itself passes. -/
theorem cutFirstAfter_eq_map (needle seen text : List Char) :
    cutFirstAfter needle seen text = (cutFirst needle text).map fun cut => (seen.reverse ++ cut.1, cut.2) := by
  induction text generalizing seen with
  | nil =>
    rw [cutFirst, cutFirstAfter, cutFirstAfter]
    split
    · simp
    · rfl
  | cons c rest ih =>
    rw [cutFirst, cutFirstAfter, cutFirstAfter]
    split
    · simp
    · rw [ih (c :: seen), ih [c], Option.map_map]
      simp [Function.comp_def]

/-! ## Lines that end in different ways -/

theorem unifyLinesFrom_of_not_mem {done text : List Char} (h : '\r' ∉ text) :
    unifyLinesFrom done text = done.reverse ++ text := by
  induction text generalizing done with
  | nil => simp [unifyLinesFrom]
  | cons c rest ih =>
    have hc : c ≠ '\r' := fun hc => h (hc ▸ List.mem_cons_self)
    have hrest : '\r' ∉ rest := fun hr => h (List.mem_cons_of_mem c hr)
    rw [unifyLinesFrom]
    · simp [ih hrest, hc]
    · rintro rest rfl
      exact absurd rfl hc

theorem not_mem_unifyLinesFrom {done text : List Char} (h : '\r' ∉ done) :
    '\r' ∉ unifyLinesFrom done text := by
  induction done, text using unifyLinesFrom.induct with
  | case1 done => simpa [unifyLinesFrom] using h
  | case2 done rest ih =>
    rw [unifyLinesFrom]
    exact ih (by simpa using h)
  | case3 done c rest hne ih =>
    rw [unifyLinesFrom]
    · refine ih fun hmem => ?_
      rcases List.mem_cons.mp hmem with hc | hdone
      · split at hc
        · exact absurd hc (by decide)
        · rename_i hcr
          exact hcr (by simp [← hc])
      · exact h hdone
    · exact hne

/-- Unifying line ends changes exactly the texts that have a carriage return. -/
theorem unifyLines_eq_self {text : List Char} : unifyLines text = text ↔ '\r' ∉ text := by
  constructor
  · intro h
    rw [← h]
    exact not_mem_unifyLinesFrom List.not_mem_nil
  · intro h
    rw [unifyLines, unifyLinesFrom_of_not_mem h]
    rfl

end CodeCensus.Text
