import CodeCensus.Proofs.Text.Lines
import CodeCensus.Proofs.Text.Trim
import Mathlib.Data.List.Chain

/-! Texts whose lines end with a carriage return and a line feed, and the same texts without carriage returns. A
carriage return is a blank that stands only before a line feed or at the end, so what is done line by line, or
by looking for other characters, comes to the same on both. -/

namespace CodeCensus.Text

/-- A text with a carriage return before each of its line feeds. -/
def withReturns (text : List Char) : List Char :=
  text.flatMap fun c => if c == '\n' then ['\r', '\n'] else [c]

/-- A text without its carriage returns. -/
def bare (text : List Char) : List Char := text.filter (· != '\r')

/-- Carriage returns stand before line feeds and at the end of a text only. -/
def ReturnsEndLines (text : List Char) : Prop := text.IsChain fun c d => c = '\r' → d = '\n'

variable {text front rest : List Char} {c : Char} {i : Nat}

@[simp] theorem bare_nil : bare [] = [] := rfl

@[simp] theorem bare_append (front rest : List Char) : bare (front ++ rest) = bare front ++ bare rest :=
  List.filter_append front rest

@[simp] theorem bare_cons_return (rest : List Char) : bare ('\r' :: rest) = bare rest := rfl

theorem bare_cons (h : c ≠ '\r') (rest : List Char) : bare (c :: rest) = c :: bare rest :=
  List.filter_cons_of_pos (bne_iff_ne.mpr h)

theorem mem_bare : c ∈ bare text ↔ c ∈ text ∧ c ≠ '\r' := by
  rw [bare, List.mem_filter, bne_iff_ne]

theorem bare_eq_self (h : '\r' ∉ text) : bare text = text :=
  List.filter_eq_self.mpr fun _ hc => bne_iff_ne.mpr fun heq => h (heq ▸ hc)

theorem count_bare (h : c ≠ '\r') (text : List Char) : (bare text).count c = text.count c :=
  List.count_filter (bne_iff_ne.mpr h)

theorem bare_withReturns (h : '\r' ∉ text) : bare (withReturns text) = text := by
  induction text with
  | nil => rfl
  | cons c rest ih =>
    have hc : c ≠ '\r' := fun heq => h (heq ▸ List.mem_cons_self)
    have hrest := ih fun hmem => h (List.mem_cons_of_mem c hmem)
    rw [withReturns, List.flatMap_cons, ← withReturns, bare_append, hrest]
    by_cases hfeed : c = '\n'
    · subst hfeed
      rfl
    · rw [if_neg (beq_iff_eq.not.mpr hfeed), bare_cons hc, bare_nil, List.singleton_append]

/-! ## Where carriage returns stand -/

namespace ReturnsEndLines

theorem of_isInfix (h : ReturnsEndLines text) (hpart : front <:+: text) : ReturnsEndLines front :=
  List.IsChain.infix h hpart

theorem drop (h : ReturnsEndLines text) (n : Nat) : ReturnsEndLines (text.drop n) := List.IsChain.drop h n

theorem tail (h : ReturnsEndLines (c :: rest)) : ReturnsEndLines rest := h.drop 1

theorem dropWhile (h : ReturnsEndLines text) (p : Char → Bool) : ReturnsEndLines (text.dropWhile p) :=
  h.of_isInfix (List.dropWhile_suffix p).isInfix

theorem takeWhile (h : ReturnsEndLines text) (p : Char → Bool) : ReturnsEndLines (text.takeWhile p) :=
  h.of_isInfix (List.takeWhile_prefix p).isInfix

theorem cons (hc : c ≠ '\r') (h : ReturnsEndLines rest) : ReturnsEndLines (c :: rest) :=
  List.isChain_cons.mpr ⟨fun _ _ heq => absurd heq hc, h⟩

/-- What comes after a carriage return, if anything does, is a line feed. -/
theorem next (h : ReturnsEndLines text) (hi : text[i]? = some '\r') (hc : text[i + 1]? = some c) : c = '\n' := by
  obtain ⟨hlt, hreturn⟩ := List.getElem?_eq_some_iff.mp hi
  obtain ⟨hlt', rfl⟩ := List.getElem?_eq_some_iff.mp hc
  exact List.isChain_iff_getElem.mp h i hlt' hreturn

/-- A carriage return that a line feed does not follow is the last character. -/
theorem eq_nil_of_ne (h : ReturnsEndLines ('\r' :: rest)) (hrest : ∀ c ∈ rest.head?, c ≠ '\n') : rest = [] := by
  cases rest with
  | nil => rfl
  | cons d rest => exact absurd ((List.isChain_cons_cons.mp h).1 rfl) (hrest d rfl)

end ReturnsEndLines

theorem returnsEndLines_of_not_mem (h : '\r' ∉ text) : ReturnsEndLines text := by
  induction text with
  | nil => exact .nil
  | cons c rest ih =>
    exact (ih fun hmem => h (List.mem_cons_of_mem c hmem)).cons fun heq => h (heq ▸ List.mem_cons_self)

theorem returnsEndLines_withReturns (h : '\r' ∉ text) : ReturnsEndLines (withReturns text) := by
  induction text with
  | nil => exact .nil
  | cons c rest ih =>
    have hc : c ≠ '\r' := fun heq => h (heq ▸ List.mem_cons_self)
    have hrest := ih fun hmem => h (List.mem_cons_of_mem c hmem)
    rw [withReturns, List.flatMap_cons, ← withReturns]
    by_cases hfeed : c = '\n'
    · subst hfeed
      exact List.isChain_cons_cons.mpr ⟨fun _ => rfl, hrest.cons (by decide)⟩
    · rw [if_neg (beq_iff_eq.not.mpr hfeed), List.singleton_append]
      exact hrest.cons hc

/-- In a text whose lines all end with one, no carriage return is the last character. -/
theorem getLast?_withReturns (h : '\r' ∉ text) : (withReturns text).getLast? ≠ some '\r' := by
  intro hlast
  rcases List.eq_nil_or_concat text with rfl | ⟨front, c, rfl⟩
  · cases hlast
  · rw [List.concat_eq_append] at h hlast
    have hc : c ≠ '\r' := fun heq => h (heq ▸ List.mem_concat_self)
    rw [withReturns, List.flatMap_append, List.flatMap_singleton] at hlast
    by_cases hfeed : c = '\n'
    · subst hfeed
      rw [if_pos (beq_self_eq_true '\n'), List.getLast?_append] at hlast
      exact absurd (Option.some.inj hlast) (by decide)
    · rw [if_neg (beq_iff_eq.not.mpr hfeed), List.getLast?_concat] at hlast
      exact hc (Option.some.inj hlast)

/-! ## What comes to the same without carriage returns -/

variable {p : Char → Bool}

theorem passes_return (hp : p '\r' = true) : (fun c => !(c != '\r') || p c) = p := by
  funext c
  by_cases hreturn : c = '\r'
  · rw [hreturn, hp, Bool.or_true]
  · rw [bne_iff_ne.mpr hreturn, Bool.not_true, Bool.false_or]

/-- Texts are parted at the same places by a character that a class stops at, if carriage returns belong to it. -/
theorem takeWhile_bare (hp : p '\r' = true) (text : List Char) :
    (bare text).takeWhile p = bare (text.takeWhile p) := by
  rw [bare, List.takeWhile_filter, passes_return hp, bare]

theorem dropWhile_bare (hp : p '\r' = true) (text : List Char) :
    (bare text).dropWhile p = bare (text.dropWhile p) := by
  rw [bare, List.dropWhile_filter, passes_return hp, bare]

theorem all_bare (hp : p '\r' = true) (text : List Char) : (bare text).all p = text.all p := by
  rw [bare, List.all_filter, passes_return hp]

theorem fields_bare {sep : Char} (hsep : sep ≠ '\r') (text : List Char) :
    fields sep (bare text) = (fields sep text).map bare := by
  induction text with
  | nil => rfl
  | cons c rest ih =>
    obtain ⟨first, others, hrest⟩ := List.exists_cons_of_ne_nil (fields_ne_nil sep rest)
    rw [hrest, List.map_cons] at ih
    by_cases hc : c = sep
    · rw [hc, bare_cons hsep, fields_cons_sep, fields_cons_sep, ih, hrest, List.map_cons, List.map_cons, bare_nil]
    · rw [fields_cons_of_ne hc hrest, List.map_cons]
      by_cases hreturn : c = '\r'
      · subst hreturn
        rw [bare_cons_return, bare_cons_return, ih]
      · rw [bare_cons hreturn, bare_cons hreturn, fields_cons_of_ne hc ih]

/-- A line holds no carriage return but one at its end. -/
theorem ReturnsEndLines.eq_bare (h : ReturnsEndLines text) (hline : '\n' ∉ text) :
    text = bare text ∨ text = bare text ++ ['\r'] := by
  induction text with
  | nil => exact .inl rfl
  | cons c rest ih =>
    have hrest : '\n' ∉ rest := fun hmem => hline (List.mem_cons_of_mem c hmem)
    by_cases hreturn : c = '\r'
    · subst hreturn
      obtain rfl := h.eq_nil_of_ne fun d hd heq => hrest (heq ▸ List.mem_of_mem_head? hd)
      exact .inr rfl
    · rw [bare_cons hreturn, List.cons_append]
      exact (ih h.tail hrest).imp (congrArg (List.cons c)) (congrArg (List.cons c))

theorem trim_bare (h : ReturnsEndLines text) (hline : '\n' ∉ text) : trim (bare text) = trim text := by
  rcases h.eq_bare hline with heq | heq
  · rw [← heq]
  · have hreturn : ∀ c ∈ ['\r'], isBlank c = true := List.forall_mem_singleton.mpr rfl
    have htrim : trimBy isBlank ([] ++ (bare text ++ ['\r'])) = trimBy isBlank (bare text) :=
      trimBy_append_of_pos (List.forall_mem_nil _) hreturn (bare text)
    exact ((congrArg trim heq).trans htrim).symm

end CodeCensus.Text
