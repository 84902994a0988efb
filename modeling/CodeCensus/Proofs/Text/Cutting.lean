import CodeCensus.Proofs.Text.Lines
import CodeCensus.Proofs.Text.Separators
import CodeCensus.Proofs.Text.Trim

/-! Texts put together in two ways, and texts cut where another text occurs: at its first or last occurrence, or at each.
-/

namespace CodeCensus.Text

variable {p : Char → Bool} {front front' back rest rest' more : List Char} {c c' : Char}

/-- What stands before the first character of a class, and behind it, is told by the text. -/
theorem append_cons_inj_of (hfront : ∀ x ∈ front, p x = false) (hfront' : ∀ x ∈ front', p x = false) (hc : p c = true)
    (hc' : p c' = true) (h : front ++ c :: rest = front' ++ c' :: rest') : front = front' ∧ c = c' ∧ rest = rest' := by
  induction front generalizing front' with
  | nil =>
    cases front' with
    | nil => exact ⟨rfl, List.cons.inj h⟩
    | cons x front' =>
      obtain rfl : c = x := (List.cons.inj h).1
      simp [hfront' c List.mem_cons_self] at hc
  | cons x front ih =>
    obtain ⟨hx, hfront⟩ := List.forall_mem_cons.mp hfront
    cases front' with
    | nil =>
      obtain rfl : x = c' := (List.cons.inj h).1
      simp [hx] at hc'
    | cons x' front' =>
      obtain ⟨rfl, hrest⟩ := List.cons.inj h
      obtain ⟨rfl, heq⟩ := ih hfront (List.forall_mem_cons.mp hfront').2 hrest
      exact ⟨rfl, heq⟩

/-- A beginning without characters of a class ends before the first of them. -/
theorem exists_eq_append_of_forall (hfront : ∀ x ∈ front, p x = false) (hc : p c = true)
    (h : front ++ more = back ++ c :: rest) : ∃ between, back = front ++ between ∧ more = between ++ c :: rest := by
  rcases List.append_eq_append_iff.mp h with ⟨between, hback, hmore⟩ | ⟨between, hfrontEq, hmore⟩
  · exact ⟨between, hback, hmore⟩
  · cases between with
    | nil => exact ⟨[], by rw [hfrontEq, List.append_nil, List.append_nil], hmore.symm⟩
    | cons x between =>
      obtain rfl : c = x := (List.cons.inj hmore).1
      simp [hfront c (by rw [hfrontEq]; simp)] at hc

/-- What stands before characters of a class at the end is told by the text. -/
theorem append_inj_of (hback : ∀ x ∈ back, p x = true) (hrest : ∀ x ∈ rest, p x = true)
    (hfront : ∀ x ∈ front.getLast?, p x = false) (hfront' : ∀ x ∈ front'.getLast?, p x = false)
    (h : front ++ back = front' ++ rest) : front = front' ∧ back = rest := by
  have htrim {front back : List Char} (hback : ∀ x ∈ back, p x = true) (hfront : ∀ x ∈ front.getLast?, p x = false) :
      trimEndBy p (front ++ back) = front := by
    rw [trimEndBy_append hfront, ← List.nil_append back, trimEndBy_append_of_pos hback]
    exact List.append_nil front
  have heq : front = front' := by rw [← htrim hback hfront, h, htrim hrest hfront']
  exact ⟨heq, List.append_cancel_left (heq ▸ h)⟩

theorem suffix_append_iff {tail : List Char} :
    tail <:+ front ++ back ↔ tail <:+ back ∨ ∃ more, more <:+ front ∧ tail = more ++ back := by
  constructor
  · rintro ⟨before, h⟩
    rcases List.append_eq_append_iff.mp h with ⟨more, rfl, rfl⟩ | ⟨more, -, rfl⟩
    · exact .inr ⟨more, List.suffix_append _ _, rfl⟩
    · exact .inl (List.suffix_append _ _)
  · rintro (h | ⟨more, ⟨before, rfl⟩, rfl⟩)
    · exact h.trans (List.suffix_append _ _)
    · exact ⟨before, (List.append_assoc _ _ _).symm⟩

/-! ## Occurrences of a text -/

variable {needle text before after : List Char}

theorem cutFirst_cons_of_not {c : Char} (h : ¬ needle <+: c :: rest) :
    cutFirst needle (c :: rest) = (cutFirst needle rest).map fun cut => (c :: cut.1, cut.2) := by
  rw [cutFirst, cutFirstAfter, if_neg fun hprefix => h (List.isPrefixOf_iff_prefix.mp hprefix), cutFirstAfter_eq_map]
  rfl

theorem cutFirst_needle_append (hne : needle ≠ []) (rest : List Char) : cutFirst needle (needle ++ rest) = some ([], rest) := by
  obtain ⟨c, needle, rfl⟩ := List.exists_cons_of_ne_nil hne
  have hprefix : (c :: needle).isPrefixOf (c :: (needle ++ rest)) = true :=
    List.isPrefixOf_iff_prefix.mpr (List.prefix_append (c :: needle) rest)
  rw [List.cons_append, cutFirst, cutFirstAfter, if_pos hprefix, ← List.cons_append, List.drop_left]
  rfl

/-- The search for an occurrence passes over a front. -/
def Passes (needle front rest : List Char) : Prop :=
  cutFirst needle (front ++ rest) = (cutFirst needle rest).map fun cut => (front ++ cut.1, cut.2)

theorem passes_nil (needle rest : List Char) : Passes needle [] rest := by
  rw [Passes, List.nil_append]
  cases cutFirst needle rest <;> rfl

theorem passes_singleton {c : Char} (h : ¬ needle <+: c :: rest) : Passes needle [c] rest := cutFirst_cons_of_not h

theorem Passes.append (h : Passes needle front (back ++ rest)) (h' : Passes needle back rest) :
    Passes needle (front ++ back) rest := by
  rw [Passes, List.append_assoc, h, h', Option.map_map]
  cases cutFirst needle rest with
  | none => rfl
  | some cut => rw [Option.map_some, Option.map_some, Function.comp_apply, List.append_assoc]

theorem passes_of_not_mem {c : Char} (hneedle : needle.head? = some c) (hfront : c ∉ front) (rest : List Char) :
    Passes needle front rest := by
  induction front with
  | nil => exact passes_nil needle rest
  | cons d front ih =>
    have hnot : ¬ needle <+: d :: (front ++ rest) := by
      intro hprefix
      obtain ⟨needle, rfl⟩ := List.head?_eq_some_iff.mp hneedle
      obtain rfl : c = d := (List.cons_prefix_cons.mp hprefix).1
      exact hfront List.mem_cons_self
    exact (passes_singleton hnot).append (ih fun hmem => hfront (List.mem_cons_of_mem d hmem))

theorem cutFirst_eq_none {c : Char} (hneedle : c ∈ needle) (htext : c ∉ text) : cutFirst needle text = none := by
  rw [← Option.not_isSome_iff_eq_none]
  intro hsome
  exact htext ((cutFirstAfter_isSome.mp hsome).mem hneedle)

/-- A text is cut at the last occurrence if the rest holds no letter of what is looked for. -/
theorem cutLast_append {c : Char} (hneedle : needle.getLast? = some c) (hback : c ∉ back) (front : List Char) :
    cutLast needle (front ++ (needle ++ back)) = some (front, back) := by
  have hhead : needle.reverse.head? = some c := by rw [List.head?_reverse, hneedle]
  have hne : needle.reverse ≠ [] := fun hnil => by simp [hnil] at hhead
  have hcut : cutFirst needle.reverse (front ++ (needle ++ back)).reverse = some (back.reverse, front.reverse) := by
    rw [List.reverse_append, List.reverse_append, List.append_assoc,
      passes_of_not_mem hhead (by rwa [List.mem_reverse]), cutFirst_needle_append hne, Option.map_some, List.append_nil]
  rw [cutLast, hcut, Option.map_some]
  dsimp only
  rw [List.reverse_reverse, List.reverse_reverse]

theorem cutLast_eq_none {c : Char} (hneedle : c ∈ needle) (htext : c ∉ text) : cutLast needle text = none := by
  rw [cutLast, cutFirst_eq_none (List.mem_reverse.mpr hneedle) (by rwa [List.mem_reverse])]
  rfl

theorem cutLast_eq_some (h : cutLast needle text = some (before, after)) : text = before ++ (needle ++ after) := by
  rw [cutLast, Option.map_eq_some_iff] at h
  obtain ⟨⟨cut, cut'⟩, hcut, heq⟩ := h
  obtain ⟨rfl, rfl⟩ := Prod.mk.inj heq
  have hreverse := congrArg List.reverse (cutFirst_eq_some hcut)
  rw [List.reverse_reverse, List.reverse_append, List.reverse_append, List.reverse_reverse] at hreverse
  exact hreverse

/-! ## The last piece -/

theorem getLast?_pieces_of_none (h : cutFirst needle text = none) : (pieces needle text).getLast? = some text := by
  rw [pieces]
  cases text.length with
  | zero => rfl
  | succ cuts => rw [piecesWithin, h, List.getLast?_singleton]

theorem getLast?_pieces_of_some (hne : needle ≠ []) (h : cutFirst needle text = some (before, after))
    (hafter : cutFirst needle after = none) : (pieces needle text).getLast? = some after := by
  have hlength : text.length ≠ 0 := by
    rw [cutFirst_eq_some h, List.length_append, List.length_append]
    have := List.length_pos_of_ne_nil hne
    omega
  obtain ⟨cuts, hcuts⟩ := Nat.exists_eq_succ_of_ne_zero hlength
  rw [pieces, hcuts, piecesWithin, h]
  cases cuts with
  | zero => rfl
  | succ cuts =>
    dsimp only
    rw [piecesWithin, hafter]
    rfl

/-- What a text ends with, its last piece ends with, unless a part of the separators ends with it. -/
theorem getLast?_getLast?_pieces {c : Char} (hneedle : needle.getLast? ≠ some c) (hne : needle ≠ [])
    (htext : text.getLast? = some c) : ∃ last, (pieces needle text).getLast? = some last ∧ last.getLast? = some c := by
  rw [pieces]
  induction text.length generalizing text with
  | zero => exact ⟨text, rfl, htext⟩
  | succ cuts ih =>
    rw [piecesWithin]
    split
    · exact ⟨text, rfl, htext⟩
    · rename_i before after hcut
      have hafter : after.getLast? = some c := by
        rw [cutFirst_eq_some hcut] at htext
        cases after with
        | nil =>
          rw [List.append_nil, List.getLast?_append_of_ne_nil _ hne] at htext
          exact absurd htext hneedle
        | cons d after => rwa [List.getLast?_append_of_ne_nil _ (List.cons_ne_nil d after)] at htext
      obtain ⟨last, hlast, hc⟩ := ih hafter
      refine ⟨last, ?_, hc⟩
      rw [List.getLast?_cons, hlast]
      rfl

end CodeCensus.Text
