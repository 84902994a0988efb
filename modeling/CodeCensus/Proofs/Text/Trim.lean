import CodeCensus.Text.Trim
import Mathlib.Data.List.DropRight
import Mathlib.Data.List.TakeWhile

/-! What is left of a text once it is trimmed or cut: what it begins with, and what blanks around it do. -/

namespace CodeCensus.Text

theorem upTo_append {sep : Char} {front : List Char} (h : sep ∉ front) (rest : List Char) :
    upTo sep (front ++ rest) = front ++ upTo sep rest := by
  refine List.takeWhile_append_of_pos fun c hc => ?_
  rw [bne_iff_ne]
  rintro rfl
  exact h hc

theorem upTo_of_not_mem {sep : Char} {text : List Char} (h : sep ∉ text) : upTo sep text = text := by
  have happend := upTo_append h []
  rwa [List.append_nil, show upTo sep [] = [] from rfl, List.append_nil] at happend

theorem head?_upTo (sep : Char) (text : List Char) :
    (upTo sep text).head? = text.head?.filter fun c => c != sep := by
  cases text with
  | nil => rfl
  | cons c rest =>
    rw [upTo, List.takeWhile_cons, List.head?_cons, Option.filter_some]
    cases c != sep <;> rfl

theorem trim_blanks_append {blanks : List Char} (h : ∀ c ∈ blanks, isBlank c = true) (text : List Char) :
    trim (blanks ++ text) = trim text := by
  rw [trim, trimBy, trim, trimBy, List.dropWhile_append_of_pos h]

/-- What precedes a character that is no blank is not lost at the end. -/
theorem trimEndBy_append_cons {p : Char → Bool} {c : Char} (hc : p c = false) (front rest : List Char) :
    ∃ rest', trimEndBy p (front ++ c :: rest) = front ++ c :: rest' := by
  rw [trimEndBy, List.reverse_append, List.reverse_cons, List.append_assoc, List.dropWhile_append]
  split
  · exact ⟨[], by simp [hc]⟩
  · exact ⟨(rest.reverse.dropWhile p).reverse, by simp⟩

theorem trimEndBy_append_of_pos {p : Char → Bool} {rest : List Char} (h : ∀ c ∈ rest, p c = true)
    (front : List Char) : trimEndBy p (front ++ rest) = trimEndBy p front := by
  rw [trimEndBy, List.reverse_append, List.dropWhile_append_of_pos fun c hc => h c (List.mem_reverse.mp hc),
    trimEndBy]

theorem trimEndBy_append {p : Char → Bool} {front : List Char} (h : ∀ c ∈ front.getLast?, p c = false)
    (rest : List Char) : trimEndBy p (front ++ rest) = front ++ trimEndBy p rest := by
  have hfront : front.reverse.dropWhile p = front.reverse := by
    have hnot : ∀ c ∈ front.reverse.head?, p c = false := by rwa [List.head?_reverse]
    cases hreverse : front.reverse with
    | nil => rfl
    | cons c more => exact List.dropWhile_cons_of_neg (by simp [hnot c (by rw [hreverse]; rfl)])
  rw [trimEndBy, trimEndBy, List.reverse_append, List.dropWhile_append]
  split
  · rename_i hnil
    rw [hfront, List.isEmpty_iff.mp hnil, List.reverse_reverse, List.reverse_nil, List.append_nil]
  · rw [List.reverse_append, List.reverse_reverse]

theorem trimBy_append_of_pos {p : Char → Bool} {front back : List Char} (hfront : ∀ c ∈ front, p c = true)
    (hback : ∀ c ∈ back, p c = true) (text : List Char) : trimBy p (front ++ (text ++ back)) = trimBy p text := by
  rw [trimBy, trimBy, List.dropWhile_append_of_pos hfront, List.dropWhile_append]
  split
  · rename_i hnil
    rw [List.isEmpty_iff.mp hnil, List.dropWhile_eq_nil_iff.mpr hback]
  · exact trimEndBy_append_of_pos hback _

theorem trim_append_of_head? {before : List Char} (hbefore : ∀ c ∈ before, isBlank c = true) {text : List Char}
    (h : ∀ c ∈ text.head?, isBlank c = false) : trim (before ++ text) = trimEndBy isBlank text := by
  rw [trim_blanks_append hbefore, trim, trimBy]
  cases text with
  | nil => rfl
  | cons c rest => rw [List.dropWhile_cons_of_neg (by simp [h c rfl])]

theorem trimEndBy_eq_self {p : Char → Bool} {text : List Char} (h : ∀ c ∈ text, p c = false) :
    trimEndBy p text = text :=
  List.rdropWhile_eq_self_iff.mpr fun hne => by simp [h _ (List.getLast_mem hne)]

theorem head?_append_of_forall {p : Char → Bool} {front : List Char} (hne : front ≠ [])
    (h : ∀ c ∈ front, p c = false) (rest : List Char) : ∀ c ∈ (front ++ rest).head?, p c = false := by
  obtain ⟨c, front, rfl⟩ := List.exists_cons_of_ne_nil hne
  intro d hd
  obtain rfl : c = d := by simpa using hd
  exact h c List.mem_cons_self

theorem head?_trim (text : List Char) : (trim text).head? = (text.dropWhile isBlank).head? := by
  cases hdrop : text.dropWhile isBlank with
  | nil => rw [trim, trimBy, hdrop]; rfl
  | cons c rest =>
    have hc : isBlank c = false := by
      have := List.head?_dropWhile_not isBlank text
      simpa [hdrop] using this
    obtain ⟨rest', hrest'⟩ := trimEndBy_append_cons hc [] rest
    rw [List.nil_append] at hrest'
    rw [trim, trimBy, hdrop, hrest']
    rfl

theorem head?_trim_of_head? {text : List Char} (h : ∀ c ∈ text.head?, isBlank c = false) :
    (trim text).head? = text.head? := by
  rw [head?_trim]
  cases text with
  | nil => rfl
  | cons c rest => rw [List.dropWhile_cons_of_neg (by simp [h c rfl])]

theorem forall_getLast?_append {α : Type} {P : α → Prop} {front back : List α} (hfront : ∀ x ∈ front.getLast?, P x)
    (hback : ∀ x ∈ back, P x) : ∀ x ∈ (front ++ back).getLast?, P x := by
  intro x hx
  rcases eq_or_ne back [] with rfl | hne
  · rw [List.append_nil] at hx
    exact hfront x hx
  · rw [List.getLast?_append_of_ne_nil _ hne] at hx
    exact hback x (List.mem_of_getLast? hx)

theorem not_of_mem_getLast?_rdropWhile {α : Type} (p : α → Bool) (l : List α) :
    ∀ x ∈ (l.rdropWhile p).getLast?, p x = false := by
  intro x hx
  have hne : l.rdropWhile p ≠ [] := fun hnil => by simp [hnil] at hx
  obtain rfl : _ = x := Option.some.inj ((List.getLast?_eq_some_getLast hne).symm.trans hx)
  simpa using List.rdropWhile_last_not p _ hne

/-- A text is what is left of it between blanks, and no blank is left at either end. -/
theorem exists_trim_eq (text : List Char) : ∃ before after, text = before ++ trim text ++ after ∧
    (∀ c ∈ before, isBlank c = true) ∧ (∀ c ∈ after, isBlank c = true) ∧
    (∀ c ∈ (trim text).head?, isBlank c = false) ∧ ∀ c ∈ (trim text).getLast?, isBlank c = false := by
  have htrim : trim text = (text.dropWhile isBlank).rdropWhile isBlank := rfl
  refine ⟨text.takeWhile isBlank, (text.dropWhile isBlank).rtakeWhile isBlank, ?_,
    fun c hc => List.mem_takeWhile_imp hc, fun c hc => List.mem_rtakeWhile_imp hc, fun c hc => ?_, fun c hc => ?_⟩
  · rw [htrim, List.append_assoc, List.rdropWhile_append_rtakeWhile, List.takeWhile_append_dropWhile]
  · rw [head?_trim] at hc
    have := List.head?_dropWhile_not isBlank text
    rw [hc] at this
    simpa using this
  · rw [htrim] at hc
    exact not_of_mem_getLast?_rdropWhile isBlank _ c hc

theorem trim_eq_self {text : List Char} (hhead : ∀ c ∈ text.head?, isBlank c = false)
    (hlast : ∀ c ∈ text.getLast?, isBlank c = false) : trim text = text := by
  have hnone : ∀ c ∈ [], isBlank c = true := List.forall_mem_nil _
  have hstart : trim ([] ++ text) = trimEndBy isBlank text := trim_append_of_head? hnone hhead
  rw [List.nil_append] at hstart
  rw [hstart]
  exact List.rdropWhile_eq_self_iff.mpr fun hne => by
    simp [hlast _ (List.getLast?_eq_some_getLast hne)]

theorem trim_trim (text : List Char) : trim (trim text) = trim text := by
  obtain ⟨before, after, -, -, -, hhead, hlast⟩ := exists_trim_eq text
  exact trim_eq_self hhead hlast

end CodeCensus.Text
