import CodeCensus.Proofs.Pattern.Shape
import Mathlib.Data.Nat.Init

/-! Texts within texts. A text is embedded in another when its characters are found there in order,
with nothing but blanks between them and none except after a line feed, and when words keep their
edges. Patterns that cross lines by blanks alone cover the images of the stretches they cover. -/

namespace CodeCensus

open Text Cursor

def Text.wordAt (text : List Char) (i : Nat) : Bool := text[i]?.any isWord

def Text.wordBefore (text : List Char) (i : Nat) : Bool := 0 < i && wordAt text (i - 1)

theorem Edge.word_holds_on {text : List Char} {i : Nat} (h : i ≤ text.length) :
    Edge.word.holds (on text i) = (wordBefore text i != wordAt text i) := by
  have hbefore : isWord (on text i).before = wordBefore text i := by
    cases i with
    | zero => rfl
    | succ i =>
      have hget : (text.take (i + 1)).getLast? = text[i]? := by
        rw [List.take_succ_eq_append_getElem h, List.getLast?_concat, List.getElem?_eq_getElem h]
      change isWord ((text.take (i + 1)).getLast?.getD '\n') = _
      rw [hget, List.getElem?_eq_getElem h]
      simp [wordBefore, wordAt, List.getElem?_eq_getElem h]
  rw [Edge.holds, hbefore, on_rest, List.head?_drop, wordAt]

/-- The first `n` characters of one text are found in another at the places that `φ` tells. -/
structure Embeds (body text : List Char) (n : Nat) (φ : Nat → Nat) : Prop where
  le_length : n ≤ body.length
  keeps : ∀ i c, i < n → body[i]? = some c → c ≠ '\n' → text[φ i]? = some c ∧ φ (i + 1) = φ i + 1
  breaks : ∀ i, i < n → body[i]? = some '\n' →
    text[φ i]? = some '\n' ∧ φ i < φ (i + 1) ∧ Throughout text isBlank (φ i) (φ (i + 1))
  edges : ∀ i, i ≤ n → Edge.word.holds (on body i) = true → Edge.word.holds (on text (φ i)) = true

namespace Embeds

variable {body text : List Char} {n i j : Nat} {φ : Nat → Nat}

theorem lt_succ (h : Embeds body text n φ) (hi : i < n) : φ i < φ (i + 1) := by
  have hlen : i < body.length := Nat.lt_of_lt_of_le hi h.le_length
  have hbody : body[i]? = some body[i] := List.getElem?_eq_getElem hlen
  by_cases hc : body[i] = '\n'
  · rw [hc] at hbody
    exact (h.breaks i hi hbody).2.1
  · have := (h.keeps i _ hi hbody hc).2
    omega

theorem mono (h : Embeds body text n φ) (hij : i ≤ j) (hj : j ≤ n) : φ i ≤ φ j := by
  induction j, hij using Nat.le_induction with
  | base => exact Nat.le_refl _
  | succ j hij ih => exact Nat.le_trans (ih (by omega)) (Nat.le_of_lt (h.lt_succ (by omega)))

theorem strictMono (h : Embeds body text n φ) (hij : i < j) (hj : j ≤ n) : φ i < φ j :=
  Nat.lt_of_lt_of_le (h.lt_succ (by omega)) (h.mono hij hj)

/-- A character of a class without a line feed, or with all blanks, goes into a run of it. -/
theorem throughout_succ (h : Embeds body text n φ) (hi : i < n) {p : Char → Bool}
    (hclass : p '\n' = false ∨ ∀ c, isBlank c = true → p c = true) (hp : HoldsAt body p i) :
    Throughout text p (φ i) (φ (i + 1)) := by
  obtain ⟨c, hc, hpc⟩ := hp
  by_cases hbreak : c = '\n'
  · subst hbreak
    have hblank : ∀ c, isBlank c = true → p c = true := hclass.resolve_left (by simp [hpc])
    exact fun k hik hkj => ((h.breaks i hi hc).2.2 k hik hkj).imp hblank
  · obtain ⟨hcφ, hφ⟩ := h.keeps i c hi hc hbreak
    rw [hφ]
    exact .cons ⟨c, hcφ, hpc⟩ (.empty (Nat.le_refl _))

theorem throughout (h : Embeds body text n φ) (hij : i ≤ j) (hj : j ≤ n) {p : Char → Bool}
    (hclass : p '\n' = false ∨ ∀ c, isBlank c = true → p c = true) (hp : Throughout body p i j) :
    Throughout text p (φ i) (φ j) := by
  induction j, hij using Nat.le_induction with
  | base => exact .empty (Nat.le_refl _)
  | succ j hij ih =>
    have hlast := h.throughout_succ (i := j) (by omega) hclass (hp j hij (Nat.lt_succ_self j))
    exact (ih (by omega) (hp.mono (Nat.le_refl i) (by omega))).trans hlast

end Embeds

namespace Pattern

/-- A pattern that crosses lines only by runs of blanks and looks only for the edges of words. -/
inductive Tame : Pattern → Prop
  | edge : Tame wordEdge
  | one {p : Char → Bool} (h : p '\n' = false) : Tame (.one p)
  | run {p : Char → Bool} (h : p '\n' = false) : Tame (.run p)
  | blanks : Tame blanks
  | blanks1 : Tame blanks1
  | seq {first second : Pattern} (h : first.Tame) (h' : second.Tame) : Tame (.seq first second)
  | alt {first second : Pattern} (h : first.Tame) (h' : second.Tame) : Tame (.alt first second)

theorem Tame.spans {body text : List Char} {n : Nat} {φ : Nat → Nat} {p : Pattern} (hp : p.Tame)
    (h : Embeds body text n φ) {i j : Nat} (hspans : p.Spans body i j) (hj : j ≤ n) :
    p.Spans text (φ i) (φ j) := by
  induction hp generalizing i j with
  | edge =>
    obtain ⟨hedge, rfl⟩ := hspans
    exact ⟨h.edges j hj hedge, rfl⟩
  | @one p hclass =>
    obtain ⟨⟨c, hc, hpc⟩, rfl⟩ := hspans
    have hbreak : c ≠ '\n' := by
      rintro rfl
      simp [hpc] at hclass
    obtain ⟨hcφ, hφ⟩ := h.keeps i c hj hc hbreak
    exact ⟨⟨c, hcφ, hpc⟩, hφ⟩
  | run hclass => exact ⟨h.mono hspans.1 hj, h.throughout hspans.1 hj (.inl hclass) hspans.2⟩
  | blanks => exact ⟨h.mono hspans.1 hj, h.throughout hspans.1 hj (.inr fun _ hc => hc) hspans.2⟩
  | blanks1 =>
    -- the first blank may be a line feed, whose image is more than one character
    obtain ⟨m, ⟨hi, rfl⟩, hij, hrest⟩ := hspans
    have hall : Throughout text isBlank (φ i) (φ j) :=
      h.throughout (by omega) hj (.inr fun _ hc => hc) (.cons hi hrest)
    have hlt : φ i < φ j := h.strictMono hij hj
    exact ⟨φ i + 1, ⟨hall.holds hlt, rfl⟩, hlt, hall.mono (Nat.le_succ _) (Nat.le_refl _)⟩
  | seq _ _ ih ih' =>
    obtain ⟨m, hm, hmj⟩ := hspans
    exact ⟨φ m, ih hm (Nat.le_trans hmj.le hj), ih' hmj hj⟩
  | alt _ _ ih ih' => exact hspans.imp (fun hs => ih hs hj) fun hs => ih' hs hj

theorem Tame.inOrder {ps : List Pattern} (hne : ps ≠ []) (h : ∀ p ∈ ps, p.Tame) :
    (inOrder ps).Tame := by
  induction ps with
  | nil => exact absurd rfl hne
  | cons p ps ih =>
    cases ps with
    | nil => exact h p List.mem_cons_self
    | cons q ps =>
      exact .seq (h p List.mem_cons_self) (ih (by simp) fun q hq => h q (List.mem_cons_of_mem p hq))

theorem Tame.text {s : String} (hne : s.toList ≠ []) (h : '\n' ∉ s.toList) :
    (Pattern.text s).Tame := by
  refine .inOrder (by simpa using hne) fun p hp => ?_
  obtain ⟨c, hc, rfl⟩ := List.mem_map.mp hp
  refine .one ?_
  have : '\n' ≠ c := fun hcn => h (hcn ▸ hc)
  simpa using this

end Pattern

/-! ## Where embeddings come from -/

namespace Text

theorem wordAt_append_left {x y : List Char} {i : Nat} (h : i < x.length) :
    wordAt (x ++ y) i = wordAt x i := by
  rw [wordAt, wordAt, List.getElem?_append_left h]

theorem wordAt_append_right {x y : List Char} (i : Nat) :
    wordAt (x ++ y) (x.length + i) = wordAt y i := by
  rw [wordAt, wordAt, List.getElem?_append_right (Nat.le_add_right _ _), Nat.add_sub_cancel_left]

theorem wordAt_length (x : List Char) : wordAt x x.length = false := by
  simp [wordAt]

theorem wordBefore_succ (text : List Char) (i : Nat) : wordBefore text (i + 1) = wordAt text i := by
  simp [wordBefore]

/-- No word reaches over characters that are not of words. -/
theorem wordBefore_append {x v y : List Char} (hne : v ≠ []) (hv : v.any isWord = false) :
    wordBefore (x ++ v ++ y) (x ++ v).length = false := by
  obtain ⟨front, c, rfl⟩ : ∃ front c, v = front ++ [c] :=
    ⟨_, _, (List.dropLast_concat_getLast hne).symm⟩
  have hsplit : x ++ (front ++ [c]) ++ y = (x ++ front) ++ (c :: y) := by simp
  rw [hsplit, ← List.append_assoc, List.length_append, List.length_singleton, wordBefore_succ,
    ← Nat.add_zero (x ++ front).length, wordAt_append_right]
  simpa [wordAt] using List.any_eq_false.mp hv c (by simp)

end Text

/-- A part of a text is embedded in it if neither of its ends cuts a word. -/
theorem embeds_between {x b y : List Char}
    (hstart : wordAt b 0 = true → wordBefore (x ++ b ++ y) x.length = false)
    (hend : wordBefore b b.length = true → wordAt y 0 = false) :
    Embeds b (x ++ b ++ y) b.length (x.length + ·) where
  le_length := Nat.le_refl _
  keeps i c hi hc _ := by
    refine ⟨?_, rfl⟩
    rw [List.append_assoc, List.getElem?_append_right (by omega), Nat.add_sub_cancel_left,
      List.getElem?_append_left hi, hc]
  breaks i hi hc := by
    have hat : (x ++ b ++ y)[x.length + i]? = some '\n' := by
      rw [List.append_assoc, List.getElem?_append_right (by omega), Nat.add_sub_cancel_left,
        List.getElem?_append_left hi, hc]
    exact ⟨hat, Nat.lt_succ_self _, .cons ⟨'\n', hat, rfl⟩ (.empty (Nat.le_refl _))⟩
  edges i hi hedge := by
    have hlen : x.length + i ≤ (x ++ b ++ y).length := by simp; omega
    rw [Edge.word_holds_on hi] at hedge
    rw [Edge.word_holds_on hlen]
    have hat : i < b.length → wordAt (x ++ b ++ y) (x.length + i) = wordAt b i := by
      intro hib
      rw [List.append_assoc, wordAt_append_right, wordAt_append_left hib]
    have hbefore : 0 < i → wordBefore (x ++ b ++ y) (x.length + i) = wordBefore b i := by
      intro hi0
      obtain ⟨k, rfl⟩ : ∃ k, i = k + 1 := ⟨i - 1, by omega⟩
      rw [← Nat.add_assoc, wordBefore_succ, wordBefore_succ, List.append_assoc, wordAt_append_right,
        wordAt_append_left hi]
    have hlast : i = b.length → wordAt (x ++ b ++ y) (x.length + i) = wordAt y 0 := by
      rintro rfl
      rw [← List.length_append, ← Nat.add_zero (x ++ b).length, wordAt_append_right]
    -- within the part the neighbours are the same, so only its two ends need their conditions
    rcases Nat.eq_zero_or_pos i with rfl | hi0
    · rcases Nat.eq_zero_or_pos b.length with hb | hb
      · simp [wordBefore, wordAt, List.eq_nil_of_length_eq_zero hb] at hedge
      · have hword : wordAt b 0 = true := by simpa [wordBefore] using hedge
        rw [hat hb, hword, Nat.add_zero, hstart hword]
        rfl
    · rw [hbefore hi0]
      rcases Nat.lt_or_ge i b.length with hib | hib
      · rw [hat hib]
        exact hedge
      · obtain rfl : i = b.length := Nat.le_antisymm hi hib
        rw [wordAt_length] at hedge
        have hword : wordBefore b b.length = true := by simpa using hedge
        rw [hlast rfl, hword, hend hword]
        rfl

/-- A text is embedded in itself less its last line feed, as far as that one reaches. -/
theorem embeds_dropLast (t : List Char) : Embeds (t ++ ['\n']) t t.length id where
  le_length := by simp
  keeps i c hi hc _ := by
    rw [List.getElem?_append_left hi] at hc
    exact ⟨hc, rfl⟩
  breaks i hi hc := by
    rw [List.getElem?_append_left hi] at hc
    exact ⟨hc, Nat.lt_succ_self i, .cons ⟨'\n', hc, rfl⟩ (.empty (Nat.le_refl _))⟩
  edges i hi hedge := by
    rw [Edge.word_holds_on (by simp; omega)] at hedge
    rw [id, Edge.word_holds_on hi]
    have hbefore : wordBefore (t ++ ['\n']) i = wordBefore t i := by
      cases i with
      | zero => rfl
      | succ i => rw [wordBefore_succ, wordBefore_succ, wordAt_append_left hi]
    have hat : wordAt (t ++ ['\n']) i = wordAt t i := by
      rcases Nat.eq_or_lt_of_le hi with rfl | hi
      · have hfeed : wordAt ['\n'] 0 = false := by decide
        rw [wordAt_length, ← Nat.add_zero t.length, wordAt_append_right, hfeed]
      · exact wordAt_append_left hi
    rw [← hbefore, ← hat]
    exact hedge

section blankLine

variable (x y w : List Char)

def afterLine (i : Nat) : Nat := if i ≤ x.length then i else i + (w.length + 1)

theorem getElem?_afterLine (i : Nat) :
    (x ++ '\n' :: (w ++ '\n' :: y))[afterLine x w i]? = (x ++ '\n' :: y)[i]? := by
  rw [afterLine]
  rcases Nat.lt_trichotomy i x.length with hi | rfl | hi
  · rw [if_pos (Nat.le_of_lt hi), List.getElem?_append_left hi, List.getElem?_append_left hi]
  · simp
  · obtain ⟨k, rfl⟩ : ∃ k, i = x.length + (k + 1) := ⟨i - x.length - 1, by omega⟩
    have hk : x.length + (k + 1) + (w.length + 1) = x.length + (w.length + (k + 1) + 1) := by omega
    rw [if_neg (by omega), hk, List.getElem?_append_right (Nat.le_add_right _ _),
      List.getElem?_append_right (Nat.le_add_right _ _), Nat.add_sub_cancel_left,
      Nat.add_sub_cancel_left, List.getElem?_cons_succ, List.getElem?_cons_succ,
      List.getElem?_append_right (Nat.le_add_right _ _), Nat.add_sub_cancel_left,
      List.getElem?_cons_succ]

theorem wordAt_afterLine (i : Nat) :
    wordAt (x ++ '\n' :: (w ++ '\n' :: y)) (afterLine x w i) = wordAt (x ++ '\n' :: y) i := by
  rw [wordAt, wordAt, getElem?_afterLine]

variable {w}

theorem throughout_blankLine (hw : w.all isBlank = true) :
    Throughout (x ++ '\n' :: (w ++ '\n' :: y)) isBlank x.length (x.length + w.length + 2) := by
  intro k hxk hk
  obtain ⟨m, rfl⟩ : ∃ m, k = x.length + m := ⟨k - x.length, by omega⟩
  rw [HoldsAt, List.getElem?_append_right (Nat.le_add_right _ _), Nat.add_sub_cancel_left]
  rcases m with _ | m
  · exact ⟨'\n', rfl, rfl⟩
  · rw [List.getElem?_cons_succ]
    rcases Nat.lt_or_ge m w.length with hm | hm
    · rw [List.getElem?_append_left hm]
      exact ⟨w[m], List.getElem?_eq_getElem hm, List.all_eq_true.mp hw _ (List.getElem_mem hm)⟩
    · obtain rfl : m = w.length := by omega
      exact ⟨'\n', by simp, rfl⟩

theorem wordBefore_afterLine {i : Nat} (hi : i ≤ (x ++ '\n' :: y).length) :
    wordBefore (x ++ '\n' :: (w ++ '\n' :: y)) (afterLine x w i) =
      wordBefore (x ++ '\n' :: y) i := by
  cases i with
  | zero => simp [afterLine, wordBefore]
  | succ i =>
    rw [wordBefore_succ]
    rcases Nat.lt_trichotomy i x.length with hx | rfl | hx
    · have hφ : afterLine x w (i + 1) = afterLine x w i + 1 := by
        rw [afterLine, afterLine, if_pos (Nat.succ_le_of_lt hx), if_pos (Nat.le_of_lt hx)]
      rw [hφ, wordBefore_succ, wordAt_afterLine]
    · have hφ : afterLine x w (x.length + 1) = x.length + (w.length + 1) + 1 := by
        rw [afterLine, if_neg (by omega)]
        omega
      rw [hφ, wordBefore_succ, wordAt_append_right, ← Nat.add_zero x.length, wordAt_append_right]
      simp [wordAt]
    · have hφ : afterLine x w (i + 1) = afterLine x w i + 1 := by
        rw [afterLine, afterLine, if_neg (by omega), if_neg (by omega)]
        omega
      rw [hφ, wordBefore_succ, wordAt_afterLine]

/-- A text is embedded in the text that has one more blank line after one of its line feeds. -/
theorem embeds_blankLine (hw : w.all isBlank = true) :
    Embeds (x ++ '\n' :: y) (x ++ '\n' :: (w ++ '\n' :: y)) (x ++ '\n' :: y).length
      (afterLine x w) where
  le_length := Nat.le_refl _
  keeps i c hi hc hbreak := by
    refine ⟨(getElem?_afterLine x y w i).trans hc, ?_⟩
    have hne : i ≠ x.length := by
      rintro rfl
      simp only [List.getElem?_append_right (Nat.le_refl _), Nat.sub_self,
        List.getElem?_cons_zero] at hc
      exact hbreak (Option.some.inj hc).symm
    rw [afterLine, afterLine]
    split <;> split <;> omega
  breaks i hi hc := by
    have hat := (getElem?_afterLine x y w i).trans hc
    refine ⟨hat, ?_⟩
    by_cases hx : i = x.length
    · subst hx
      have hφ : afterLine x w (x.length + 1) = x.length + w.length + 2 := by
        rw [afterLine, if_neg (by omega)]
        omega
      have hφ' : afterLine x w x.length = x.length := by rw [afterLine, if_pos (Nat.le_refl _)]
      rw [hφ, hφ']
      exact ⟨by omega, throughout_blankLine x y hw⟩
    · have hφ : afterLine x w (i + 1) = afterLine x w i + 1 := by
        rw [afterLine, afterLine]
        split <;> split <;> omega
      rw [hφ]
      exact ⟨Nat.lt_succ_self _, .cons ⟨'\n', hat, rfl⟩ (.empty (Nat.le_refl _))⟩
  edges i hi hedge := by
    have hφ : afterLine x w i ≤ (x ++ '\n' :: (w ++ '\n' :: y)).length := by
      simp only [List.length_append, List.length_cons] at hi ⊢
      rw [afterLine]
      split <;> omega
    rw [Edge.word_holds_on hi] at hedge
    rw [Edge.word_holds_on hφ, wordBefore_afterLine x y hi, wordAt_afterLine]
    exact hedge

end blankLine

end CodeCensus
