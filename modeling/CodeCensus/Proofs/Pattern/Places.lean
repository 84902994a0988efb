import CodeCensus.Pattern.Basic

/-! Places in a text by index. A cursor that walks through a text stands at one of them, and the
places that a run of characters reaches are told by the characters between. -/

namespace CodeCensus

namespace Text

def HoldsAt (text : List Char) (p : Char → Bool) (k : Nat) : Prop :=
  ∃ c, text[k]? = some c ∧ p c = true

/-- All characters between two indices are of a class. -/
def Throughout (text : List Char) (p : Char → Bool) (i j : Nat) : Prop :=
  ∀ k, i ≤ k → k < j → HoldsAt text p k

theorem HoldsAt.lt {text : List Char} {p : Char → Bool} {k : Nat} (h : HoldsAt text p k) :
    k < text.length := by
  obtain ⟨c, hc, _⟩ := h
  exact (List.getElem?_eq_some_iff.mp hc).1

theorem HoldsAt.imp {text : List Char} {p q : Char → Bool} {k : Nat} (h : HoldsAt text p k)
    (hpq : ∀ c, p c = true → q c = true) : HoldsAt text q k := by
  obtain ⟨c, hc, hp⟩ := h
  exact ⟨c, hc, hpq c hp⟩

theorem HoldsAt.elim {text : List Char} {p q : Char → Bool} {k : Nat} (hp : HoldsAt text p k)
    (hq : HoldsAt text q k) (h : ∀ c, p c = true → q c = false) : False := by
  obtain ⟨c, hc, hpc⟩ := hp
  obtain ⟨d, hd, hqd⟩ := hq
  obtain rfl : c = d := Option.some.inj (hc.symm.trans hd)
  simp [h c hpc] at hqd

theorem HoldsAt.eq_true {text : List Char} {p : Char → Bool} {k : Nat} {x : Char} (h : HoldsAt text p k)
    (hk : text[k]? = some x) : p x = true := by
  obtain ⟨y, hy, hpy⟩ := h
  obtain rfl : x = y := Option.some.inj (hk.symm.trans hy)
  exact hpy

theorem Throughout.trans {text : List Char} {p : Char → Bool} {i m j : Nat}
    (h : Throughout text p i m) (h' : Throughout text p m j) : Throughout text p i j := by
  intro k hik hkj
  rcases Nat.lt_or_ge k m with hk | hk
  · exact h k hik hk
  · exact h' k hk hkj

theorem Throughout.mono {text : List Char} {p : Char → Bool} {i j i' j' : Nat}
    (h : Throughout text p i j) (hi : i ≤ i') (hj : j' ≤ j) : Throughout text p i' j' :=
  fun k hik hkj => h k (Nat.le_trans hi hik) (Nat.lt_of_lt_of_le hkj hj)

theorem Throughout.empty {text : List Char} {p : Char → Bool} {i j : Nat} (h : j ≤ i) :
    Throughout text p i j :=
  fun _ hik hkj => absurd (Nat.lt_of_le_of_lt hik hkj) (Nat.not_lt.mpr h)

theorem Throughout.cons {text : List Char} {p : Char → Bool} {i j : Nat} (h : HoldsAt text p i)
    (h' : Throughout text p (i + 1) j) : Throughout text p i j := by
  intro k hik hkj
  rcases Nat.eq_or_lt_of_le hik with rfl | hik
  · exact h
  · exact h' k hik hkj

theorem Throughout.holds {text : List Char} {p : Char → Bool} {i j : Nat}
    (h : Throughout text p i j) (hij : i < j) : HoldsAt text p i := h i (Nat.le_refl i) hij

/-- A stretch of one class ends no later than at a character that is not of that class. -/
theorem Throughout.le_of_getElem? {text : List Char} {p : Char → Bool} {i j k : Nat} {x : Char}
    (h : Throughout text p i j) (hik : i ≤ k) (hk : text[k]? = some x) (hx : p x = false) : j ≤ k := by
  refine Nat.le_of_not_lt fun hlt => ?_
  rw [(h k hik hlt).eq_true hk] at hx
  cases hx

theorem Throughout.le_length {text : List Char} {p : Char → Bool} {i j : Nat}
    (h : Throughout text p i j) : j ≤ i ∨ j ≤ text.length := by
  rcases Nat.lt_or_ge i j with hij | hij
  · have := (h (j - 1) (by omega) (by omega)).lt
    omega
  · exact .inl hij

theorem holdsAt_drop {p : Char → Bool} {text : List Char} {i k : Nat} :
    HoldsAt (text.drop i) p k ↔ HoldsAt text p (i + k) := by
  simp only [HoldsAt, List.getElem?_drop]

theorem drop_of_getElem? {text : List Char} {i : Nat} {c : Char} (h : text[i]? = some c) :
    text.drop i = c :: text.drop (i + 1) := by
  obtain ⟨hi, rfl⟩ := List.getElem?_eq_some_iff.mp h
  exact List.drop_eq_getElem_cons hi

theorem holdsAt_cons_zero {p : Char → Bool} {c : Char} {rest : List Char} :
    HoldsAt (c :: rest) p 0 ↔ p c = true := by
  simp [HoldsAt]

theorem holdsAt_cons_succ {p : Char → Bool} {c : Char} {rest : List Char} {k : Nat} :
    HoldsAt (c :: rest) p (k + 1) ↔ HoldsAt rest p k := by
  simp [HoldsAt]

/-- A character is in the front of a text that is of a class if all is of it up to some place of the character. -/
theorem mem_takeWhile_iff {p : Char → Bool} {text : List Char} {c : Char} :
    c ∈ text.takeWhile p ↔ ∃ n, text[n]? = some c ∧ ∀ k ≤ n, HoldsAt text p k := by
  induction text with
  | nil => simp
  | cons d rest ih =>
    by_cases hd : p d = true
    · rw [List.takeWhile_cons_of_pos hd, List.mem_cons, ih]
      constructor
      · rintro (rfl | ⟨n, hn, hfront⟩)
        · refine ⟨0, rfl, fun k hk => ?_⟩
          rwa [Nat.le_zero.mp hk, holdsAt_cons_zero]
        · refine ⟨n + 1, hn, fun k hk => ?_⟩
          cases k with
          | zero => exact holdsAt_cons_zero.mpr hd
          | succ k => exact holdsAt_cons_succ.mpr (hfront k (Nat.le_of_succ_le_succ hk))
      · rintro ⟨n, hn, hfront⟩
        cases n with
        | zero => exact .inl (Option.some.inj hn).symm
        | succ n =>
          exact .inr ⟨n, hn, fun k hk => holdsAt_cons_succ.mp (hfront (k + 1) (Nat.succ_le_succ hk))⟩
    · rw [List.takeWhile_cons_of_neg hd]
      constructor
      · intro hmem
        cases hmem
      · rintro ⟨n, -, hfront⟩
        exact absurd (holdsAt_cons_zero.mp (hfront 0 (Nat.zero_le n))) hd

end Text

open Text

namespace Cursor

/-- The place at an index of a text. -/
def on (text : List Char) (i : Nat) : Cursor where
  before := (text.take i).getLast?.getD '\n'
  rest := text.drop i
  pos := i
  breaks := (text.take i).count '\n'
  ahead := (text.drop i).length
  ahead_eq := rfl

@[simp] theorem on_pos (text : List Char) (i : Nat) : (on text i).pos = i := rfl

@[simp] theorem on_rest (text : List Char) (i : Nat) : (on text i).rest = text.drop i := rfl

@[simp] theorem on_ahead (text : List Char) (i : Nat) : (on text i).ahead = text.length - i := by
  simp [on]

theorem start_eq_on (text : List Char) : start text = on text 0 := rfl

/-- A cursor is known by what it has passed last, what lies ahead and the two counts. -/
theorem eq_of_fields {c d : Cursor} (hb : c.before = d.before) (hr : c.rest = d.rest)
    (hp : c.pos = d.pos) (hk : c.breaks = d.breaks) : c = d := by
  obtain ⟨_, _, _, _, _, hc⟩ := c
  obtain ⟨_, _, _, _, _, hd⟩ := d
  simp only at hb hr hp hk
  subst hb hr hp hk
  simp [hc, hd]

theorem next?_of_rest {c : Cursor} {x : Char} {rest : List Char} (h : c.rest = x :: rest) :
    c.next? = some
      ⟨x, rest, c.pos + 1, if x == '\n' then c.breaks + 1 else c.breaks, rest.length, rfl⟩ := by
  obtain ⟨_, _, _, _, _, hc⟩ := c
  simp only at h
  subst h
  simp [next?, hc]

theorem next?_of_rest_nil {c : Cursor} (h : c.rest = []) : c.next? = none := by
  obtain ⟨_, _, _, _, _, _⟩ := c
  simp only at h
  subst h
  rfl

theorem pass?_of_rest_nil (p : Char → Bool) {c : Cursor} (h : c.rest = []) : c.pass? p = none := by
  obtain ⟨_, _, _, _, _, _⟩ := c
  simp only at h
  subst h
  rfl

theorem pass?_of_rest (p : Char → Bool) {c : Cursor} {x : Char} {rest : List Char}
    (h : c.rest = x :: rest) : c.pass? p = if p x then c.next? else none := by
  obtain ⟨_, _, _, _, _, hc⟩ := c
  simp only at h
  subst h
  rfl

theorem next?_on {text : List Char} {i : Nat} (h : i < text.length) :
    (on text i).next? = some (on text (i + 1)) := by
  have hrest : (on text i).rest = text[i] :: text.drop (i + 1) := List.drop_eq_getElem_cons h
  have htake : text.take (i + 1) = text.take i ++ [text[i]] := List.take_succ_eq_append_getElem h
  rw [next?_of_rest hrest]
  congr 1
  refine eq_of_fields ?_ rfl rfl ?_
  · change text[i] = (text.take (i + 1)).getLast?.getD '\n'
    rw [htake, List.getLast?_concat, Option.getD_some]
  · change (if text[i] == '\n' then (text.take i).count '\n' + 1 else (text.take i).count '\n') =
      (text.take (i + 1)).count '\n'
    rw [htake, List.count_append, List.count_singleton]
    split <;> rfl

theorem next?_on_of_le {text : List Char} {i : Nat} (h : text.length ≤ i) :
    (on text i).next? = none :=
  next?_of_rest_nil (List.drop_eq_nil_of_le h)

theorem pass?_on_of_holds {text : List Char} {p : Char → Bool} {i : Nat} (h : HoldsAt text p i) :
    (on text i).pass? p = some (on text (i + 1)) := by
  have hi := h.lt
  obtain ⟨c, hc, hp⟩ := h
  have hrest : (on text i).rest = text[i] :: text.drop (i + 1) := List.drop_eq_getElem_cons hi
  obtain rfl : text[i] = c := by simpa [hi] using hc
  rw [pass?_of_rest p hrest, if_pos hp, next?_on hi]

theorem pass?_on_of_not {text : List Char} {p : Char → Bool} {i : Nat} (h : ¬ HoldsAt text p i) :
    (on text i).pass? p = none := by
  rcases Nat.lt_or_ge i text.length with hi | hi
  · have hrest : (on text i).rest = text[i] :: text.drop (i + 1) := List.drop_eq_getElem_cons hi
    have hp : p text[i] ≠ true := fun hp => h ⟨text[i], by simp [hi], hp⟩
    rw [pass?_of_rest p hrest, if_neg hp]
  · exact pass?_of_rest_nil p (List.drop_eq_nil_of_le hi)

/-! ## Runs of characters -/

theorem mem_reachFrom {text : List Char} {p : Char → Bool} {steps i : Nat} {nearer : List Cursor}
    {c : Cursor} :
    c ∈ reachFrom p steps (on text i) nearer ↔
      (∃ j, i ≤ j ∧ j ≤ i + steps ∧ Throughout text p i j ∧ c = on text j) ∨ c ∈ nearer := by
  induction steps generalizing i nearer with
  | zero =>
    rw [reachFrom, List.mem_cons]
    refine or_congr_left ⟨?_, ?_⟩
    · rintro rfl
      exact ⟨i, Nat.le_refl i, Nat.le_refl i, .empty (Nat.le_refl i), rfl⟩
    · rintro ⟨j, hij, hj, -, rfl⟩
      rw [Nat.le_antisymm hij hj]
  | succ steps ih =>
    by_cases hi : HoldsAt text p i
    · rw [reachFrom, pass?_on_of_holds hi]
      simp only [ih, List.mem_cons]
      constructor
      · rintro (⟨j, hij, hj, hp, rfl⟩ | rfl | hc)
        · exact .inl ⟨j, by omega, by omega, .cons hi hp, rfl⟩
        · exact .inl ⟨i, Nat.le_refl i, by omega, .empty (Nat.le_refl i), rfl⟩
        · exact .inr hc
      · rintro (⟨j, hij, hj, hp, rfl⟩ | hc)
        · rcases Nat.eq_or_lt_of_le hij with rfl | hij
          · exact .inr (.inl rfl)
          · exact .inl ⟨j, hij, by omega, hp.mono (by omega) (Nat.le_refl j), rfl⟩
        · exact .inr (.inr hc)
    · rw [reachFrom, pass?_on_of_not hi, List.mem_cons]
      refine or_congr_left ⟨?_, ?_⟩
      · rintro rfl
        exact ⟨i, Nat.le_refl i, by omega, .empty (Nat.le_refl i), rfl⟩
      · rintro ⟨j, hij, -, hp, rfl⟩
        rcases Nat.eq_or_lt_of_le hij with rfl | hij
        · rfl
        · exact absurd (hp.holds hij) hi

theorem pairwise_reachFrom {text : List Char} {p : Char → Bool} {steps i : Nat}
    {nearer : List Cursor} (h : nearer.Pairwise fun a b => b.pos < a.pos)
    (hi : ∀ c ∈ nearer, c.pos < i) :
    (reachFrom p steps (on text i) nearer).Pairwise fun a b => b.pos < a.pos := by
  induction steps generalizing i nearer with
  | zero => exact List.pairwise_cons.mpr ⟨hi, h⟩
  | succ steps ih =>
    have hcons : (on text i :: nearer).Pairwise fun a b => b.pos < a.pos :=
      List.pairwise_cons.mpr ⟨hi, h⟩
    by_cases hp : HoldsAt text p i
    · rw [reachFrom, pass?_on_of_holds hp]
      refine ih hcons fun c hc => ?_
      rcases List.mem_cons.mp hc with rfl | hc
      · exact Nat.lt_succ_self i
      · exact Nat.lt_succ_of_lt (hi c hc)
    · rw [reachFrom, pass?_on_of_not hp]
      exact hcons

theorem mem_reach {text : List Char} {p : Char → Bool} {i : Nat} {c : Cursor} :
    c ∈ (on text i).reach p ↔ ∃ j, i ≤ j ∧ Throughout text p i j ∧ c = on text j := by
  rw [reach, mem_reachFrom, on_ahead]
  constructor
  · rintro (⟨j, hij, -, hp, rfl⟩ | h)
    · exact ⟨j, hij, hp, rfl⟩
    · exact absurd h List.not_mem_nil
  · rintro ⟨j, hij, hp, rfl⟩
    have := hp.le_length
    exact .inl ⟨j, hij, by omega, hp, rfl⟩

/-- A search through the places that a run reaches finds the farthest one that serves. -/
theorem findSome?_reach {α : Type} {text : List Char} {p : Char → Bool} {i : Nat}
    {f : Cursor → Option α} {x : α} (h : ((on text i).reach p).findSome? f = some x) :
    ∃ j, i ≤ j ∧ Throughout text p i j ∧ f (on text j) = some x ∧
      ∀ k, j < k → Throughout text p i k → f (on text k) = none := by
  obtain ⟨farther, c, nearer, hl, hc, hf⟩ := List.findSome?_eq_some_iff.mp h
  have hmem : c ∈ (on text i).reach p := by simp [hl]
  obtain ⟨j, hij, hp, rfl⟩ := mem_reach.mp hmem
  refine ⟨j, hij, hp, hc, fun k hjk hk => ?_⟩
  have hkmem : on text k ∈ (on text i).reach p := mem_reach.mpr ⟨k, by omega, hk, rfl⟩
  have hpair : ((on text i).reach p).Pairwise fun a b => b.pos < a.pos :=
    pairwise_reachFrom List.Pairwise.nil fun _ hc => absurd hc List.not_mem_nil
  rw [hl] at hkmem hpair
  rcases List.mem_append.mp hkmem with hk' | hk'
  · exact hf _ hk'
  · rcases List.mem_cons.mp hk' with hk' | hk'
    · have := congrArg Cursor.pos hk'
      simp only [on_pos] at this
      omega
    · have := (List.pairwise_cons.mp (List.pairwise_append.mp hpair).2.1).1 _ hk'
      simp only [on_pos] at this
      omega

end Cursor

namespace Pattern

open Cursor

/-- A search that takes as few characters as it can finds the nearest place that serves. -/
theorem firstReached_eq_some {α : Type} {text : List Char} {p : Char → Bool} {k : Cursor → Option α}
    {x : α} {steps i : Nat} (h : firstReached p k steps (on text i) = some x) :
    ∃ j, i ≤ j ∧ Throughout text p i j ∧ k (on text j) = some x ∧
      ∀ m, i ≤ m → m < j → k (on text m) = none := by
  induction steps generalizing i with
  | zero => exact ⟨i, Nat.le_refl i, .empty (Nat.le_refl i), h, by omega⟩
  | succ steps ih =>
    rw [firstReached] at h
    cases hk : k (on text i) with
    | some y =>
      rw [hk] at h
      exact ⟨i, Nat.le_refl i, .empty (Nat.le_refl i), hk.trans h, by omega⟩
    | none =>
      by_cases hi : HoldsAt text p i
      · simp only [hk, pass?_on_of_holds hi] at h
        obtain ⟨j, hij, hp, hj, hbefore⟩ := ih h
        refine ⟨j, by omega, .cons hi hp, hj, fun m him hmj => ?_⟩
        rcases Nat.eq_or_lt_of_le him with rfl | him
        · exact hk
        · exact hbefore m him hmj
      · simp [hk, pass?_on_of_not hi] at h

theorem isSome_firstReached {α : Type} {text : List Char} {p : Char → Bool} {k : Cursor → Option α}
    {steps i j : Nat} (hij : i ≤ j) (hsteps : j ≤ i + steps) (hp : Throughout text p i j)
    (hj : (k (on text j)).isSome) : (firstReached p k steps (on text i)).isSome := by
  induction steps generalizing i with
  | zero =>
    obtain rfl : i = j := by omega
    exact hj
  | succ steps ih =>
    rw [firstReached]
    cases hk : k (on text i) with
    | some y => rfl
    | none =>
      rcases Nat.eq_or_lt_of_le hij with rfl | hij
      · simp [hk] at hj
      · rw [pass?_on_of_holds (hp.holds hij)]
        exact ih hij (by omega) (hp.mono (by omega) (Nat.le_refl j))

end Pattern
end CodeCensus
