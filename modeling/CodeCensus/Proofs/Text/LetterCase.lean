import CodeCensus.Proofs.Text.Separators

/-! Lower case, part by part. The case of ASCII letters makes no difference to the lower-case text: both forms of a
letter are cased, and so the rule for a final sigma does not tell them apart. And since a slash is neither cased
nor passed over by that rule, each part between slashes is turned to lower case by itself. -/

namespace CodeCensus.Text

/-! ## Letters of ASCII -/

/-- What holds of every character and itself, and of every ASCII letter and its small form, holds of every character
and its small form. -/
theorem rel_toLower {R : Char → Char → Prop} (hrefl : ∀ c, R c c)
    (hascii : ∀ n < 128, R (Char.ofNat n).toLower (Char.ofNat n)) (c : Char) : R c.toLower c := by
  by_cases hc : c.toNat < 128
  · have hletter := hascii c.toNat hc
    rwa [Char.ofNat_toNat] at hletter
  · have hself : c.toLower = c := by
      refine dif_neg fun hupper => hc ?_
      exact Nat.lt_of_le_of_lt (UInt32.le_iff_toNat_le.mp hupper.2) (by decide)
    rw [hself]
    exact hrefl c

/-- The two forms of an ASCII letter have one small form, and the rule for a final sigma does not tell them apart. -/
theorem toLower_spec : ∀ n < 128, lowerChar (Char.ofNat n).toLower = lowerChar (Char.ofNat n) ∧
    inRanges caseIgnorableRanges (Char.ofNat n).toLower.toNat = inRanges caseIgnorableRanges (Char.ofNat n).toNat ∧
    inRanges casedRanges (Char.ofNat n).toLower.toNat = inRanges casedRanges (Char.ofNat n).toNat ∧
    ((Char.ofNat n).toLower = Char.ofNat n ∨ (Char.ofNat n).toLower.isAlpha = true ∧ (Char.ofNat n).isAlpha = true) := by
  decide +kernel

theorem lowerChar_toLower (c : Char) : lowerChar c.toLower = lowerChar c :=
  rel_toLower (R := fun d c => lowerChar d = lowerChar c) (fun _ => rfl) (fun n hn => (toLower_spec n hn).1) c

theorem toLower_eq_iff {mark : Char} (hmark : mark.isAlpha = false) (c : Char) : c.toLower = mark ↔ c = mark := by
  refine rel_toLower (R := fun d c => d = mark ↔ c = mark) (fun _ => Iff.rfl) (fun n hn => ?_) c
  have hne {d : Char} (hd : d.isAlpha = true) : d ≠ mark := by
    rintro rfl
    rw [hmark] at hd
    cases hd
  rcases (toLower_spec n hn).2.2.2 with heq | ⟨hsmall, hletter⟩
  · rw [heq]
  · exact iff_of_false (hne hsmall) (hne hletter)

theorem inRanges_caseIgnorable_toLower (c : Char) :
    inRanges caseIgnorableRanges c.toLower.toNat = inRanges caseIgnorableRanges c.toNat :=
  rel_toLower (R := fun d c => inRanges caseIgnorableRanges d.toNat = inRanges caseIgnorableRanges c.toNat)
    (fun _ => rfl) (fun n hn => (toLower_spec n hn).2.1) c

theorem inRanges_cased_toLower (c : Char) : inRanges casedRanges c.toLower.toNat = inRanges casedRanges c.toNat :=
  rel_toLower (R := fun d c => inRanges casedRanges d.toNat = inRanges casedRanges c.toNat) (fun _ => rfl)
    (fun n hn => (toLower_spec n hn).2.2.1) c

theorem meetsCased_map_toLower (text : List Char) : meetsCased (text.map Char.toLower) = meetsCased text := by
  induction text with
  | nil => rfl
  | cons c rest ih =>
    rw [meetsCased, meetsCased, List.map_cons, List.dropWhile_cons, List.dropWhile_cons, inRanges_caseIgnorable_toLower]
    cases inRanges caseIgnorableRanges c.toNat with
    | true => exact ih
    | false => exact inRanges_cased_toLower c

theorem lowerAfter_map_toLower (before text : List Char) :
    lowerAfter (before.map Char.toLower) (text.map Char.toLower) = lowerAfter before text := by
  induction text generalizing before with
  | nil => rfl
  | cons c rest ih =>
    have htail : lowerAfter (c.toLower :: before.map Char.toLower) (rest.map Char.toLower) =
        lowerAfter (c :: before) rest := ih (c :: before)
    rw [List.map_cons, lowerAfter, lowerAfter, htail, meetsCased_map_toLower, meetsCased_map_toLower, lowerChar_toLower]
    simp only [beq_iff_eq, toLower_eq_iff (show 'Σ'.isAlpha = false by decide),
      toLower_eq_iff (show 'İ'.isAlpha = false by decide)]

theorem lower_map_toLower (text : List Char) : lower (text.map Char.toLower) = lower text :=
  lowerAfter_map_toLower [] text

theorem lower_congr {text other : List Char} (h : text.map Char.toLower = other.map Char.toLower) :
    lower text = lower other := by
  rw [← lower_map_toLower text, h, lower_map_toLower]

/-! ## Parts between slashes -/

theorem fields_map {f : Char → Char} {sep : Char} (hf : ∀ c, f c = sep ↔ c = sep) (text : List Char) :
    fields sep (text.map f) = (fields sep text).map (List.map f) := by
  induction text with
  | nil => rfl
  | cons c rest ih =>
    by_cases hc : c = sep
    · have hsep : f c = sep := (hf c).mpr hc
      rw [List.map_cons, hsep, hc, fields_cons_sep, fields_cons_sep, ih]
      rfl
    · have hne : f c ≠ sep := fun heq => hc ((hf c).mp heq)
      rw [fields_eq_upTo_cons sep rest, List.map_cons] at ih
      rw [List.map_cons, fields_cons_of_ne hne ih, fields_cons_of_ne hc (fields_eq_upTo_cons sep rest)]
      rfl

/-- A slash ends what the rule for a final sigma looks at. -/
theorem meetsCased_append_slash (front rest : List Char) : meetsCased (front ++ '/' :: rest) = meetsCased front := by
  induction front with
  | nil =>
    obtain ⟨-, hpassed, hcased⟩ := separator_spec '/' List.mem_cons_self
    rw [List.nil_append, meetsCased, List.dropWhile_cons, hpassed]
    exact hcased
  | cons c front ih =>
    rw [List.cons_append, meetsCased, meetsCased, List.dropWhile_cons, List.dropWhile_cons]
    cases inRanges caseIgnorableRanges c.toNat with
    | true => exact ih
    | false => rfl

theorem lowerAfter_congr {before other : List Char}
    (h : ∀ front, meetsCased (front ++ before) = meetsCased (front ++ other)) (text : List Char) :
    lowerAfter before text = lowerAfter other text := by
  induction text generalizing before other with
  | nil => rfl
  | cons c rest ih =>
    have hcontext (front : List Char) : meetsCased (front ++ c :: before) = meetsCased (front ++ c :: other) := by
      have hlonger := h (front ++ [c])
      rwa [List.append_assoc, List.append_assoc] at hlonger
    have hbefore : meetsCased before = meetsCased other := h []
    rw [lowerAfter, lowerAfter, ih hcontext, hbefore]

theorem lowerAfter_append_slash (before front rest : List Char) :
    lowerAfter before (front ++ '/' :: rest) = lowerAfter before front ++ '/' :: lower rest := by
  induction front generalizing before with
  | nil =>
    have hrest : lowerAfter ('/' :: before) rest = lower rest :=
      lowerAfter_congr (fun front => by rw [meetsCased_append_slash, List.append_nil]) rest
    exact congrArg ('/' :: ·) hrest
  | cons c front ih =>
    rw [List.cons_append, lowerAfter, lowerAfter, ih, meetsCased_append_slash]
    by_cases hc : c = 'Σ'
    · rw [hc]
      rfl
    · by_cases hc' : c = 'İ'
      · rw [hc']
        rfl
      · simp only [beq_iff_eq, if_neg hc, if_neg hc', List.cons_append]

theorem slash_not_mem_lowerAfter {text : List Char} (h : '/' ∉ text) (before : List Char) :
    '/' ∉ lowerAfter before text := by
  induction text generalizing before with
  | nil => exact List.not_mem_nil
  | cons c rest ih =>
    have hc : c ≠ '/' := fun heq => h (heq ▸ List.mem_cons_self)
    have htail := ih (fun hmem => h (List.mem_cons_of_mem c hmem)) (c :: before)
    rw [lowerAfter]
    split
    · refine fun hmem => htail ((List.mem_cons.mp hmem).resolve_left ?_)
      split <;> decide
    · split
      · simp [htail]
      · exact fun hmem => htail ((List.mem_cons.mp hmem).resolve_left (lowerChar_ne_slash hc).symm)

/-- The parts of the lower-case text are the parts of the text in lower case. -/
theorem fields_lower (text : List Char) : fields '/' (lower text) = (fields '/' text).map lower := by
  induction hlength : text.length using Nat.strong_induction_on generalizing text with
  | _ n ih =>
    subst hlength
    by_cases hmem : '/' ∈ text
    · obtain ⟨front, rest, rfl⟩ := List.append_of_mem hmem
      have hlength : (front ++ '/' :: rest).length = front.length + rest.length + 1 := by
        rw [List.length_append, List.length_cons, Nat.add_assoc]
      have hfront : fields '/' (lower front) = (fields '/' front).map lower := ih front.length (by omega) front rfl
      have hrest : fields '/' (lower rest) = (fields '/' rest).map lower := ih rest.length (by omega) rest rfl
      have hlower : lower (front ++ '/' :: rest) = lower front ++ '/' :: lower rest := lowerAfter_append_slash [] front rest
      rw [hlower, fields_append_cons, fields_append_cons, hfront, hrest, List.map_append]
    · have hnone : '/' ∉ lower text := slash_not_mem_lowerAfter hmem []
      rw [fields_of_not_mem hmem, fields_of_not_mem hnone]
      rfl

/-! ## Cuts -/

theorem isPrefixOf_map {f : Char → Char} {needle : List Char} (hf : ∀ mark ∈ needle, ∀ c, f c = mark ↔ c = mark)
    (text : List Char) : needle.isPrefixOf (text.map f) = needle.isPrefixOf text := by
  induction needle generalizing text with
  | nil => rfl
  | cons mark needle ih =>
    obtain ⟨hmark, hneedle⟩ := List.forall_mem_cons.mp hf
    cases text with
    | nil => rfl
    | cons c rest =>
      have hsame : (mark == f c) = (mark == c) := by
        rw [Bool.eq_iff_iff, beq_iff_eq, beq_iff_eq]
        exact eq_comm.trans ((hmark c).trans eq_comm)
      rw [List.map_cons, List.isPrefixOf, List.isPrefixOf, ih hneedle, hsame]

theorem cutFirstAfter_map {f : Char → Char} {needle : List Char} (hf : ∀ mark ∈ needle, ∀ c, f c = mark ↔ c = mark)
    (seen text : List Char) :
    cutFirstAfter needle (seen.map f) (text.map f) =
      (cutFirstAfter needle seen text).map fun cut => (cut.1.map f, cut.2.map f) := by
  induction text generalizing seen with
  | nil =>
    rw [List.map_nil, cutFirstAfter, cutFirstAfter]
    split
    · simp
    · rfl
  | cons c rest ih =>
    have hrest := ih (c :: seen)
    have hprefix := isPrefixOf_map hf (c :: rest)
    rw [List.map_cons] at hrest hprefix
    rw [List.map_cons, cutFirstAfter, cutFirstAfter, hprefix, hrest]
    split
    · rw [Option.map_some, List.map_reverse, ← List.map_cons, List.map_drop]
    · rfl

theorem cutLast_map {f : Char → Char} {needle : List Char} (hf : ∀ mark ∈ needle, ∀ c, f c = mark ↔ c = mark)
    (text : List Char) :
    cutLast needle (text.map f) = (cutLast needle text).map fun cut => (cut.1.map f, cut.2.map f) := by
  have hcut : cutFirst needle.reverse (text.reverse.map f) =
      (cutFirst needle.reverse text.reverse).map fun cut => (cut.1.map f, cut.2.map f) :=
    cutFirstAfter_map (fun mark hmark => hf mark (List.mem_reverse.mp hmark)) [] text.reverse
  rw [cutLast, cutLast, ← List.map_reverse, hcut, Option.map_map, Option.map_map]
  simp only [Function.comp_def, List.map_reverse]

end CodeCensus.Text
