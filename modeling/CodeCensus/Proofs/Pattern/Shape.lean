import CodeCensus.Proofs.Pattern.Spans

/-! What the form of a pattern tells about the stretches it covers: which characters they hold,
which one comes last, and how long they are. -/

namespace CodeCensus.Pattern

open Text Cursor

variable {text : List Char} {i j : Nat}

/-- Every character that a pattern covers is of a class. -/
def Within (c : Char → Bool) : Pattern → Prop
  | .empty | .edge _ | .absent _ => True
  | .one p | .run p | .lazyRun p => ∀ x, p x = true → c x = true
  | .seq first second | .alt first second => first.Within c ∧ second.Within c
  | .many body | .group _ body => body.Within c

/-- The last character that a pattern covers is of a class, and there is one. -/
def Closes (c : Char → Bool) : Pattern → Prop
  | .one p => ∀ x, p x = true → c x = true
  | .seq first (.edge _) => first.Closes c
  | .seq _ second => second.Closes c
  | .alt first second => first.Closes c ∧ second.Closes c
  | .group _ body => body.Closes c
  | _ => False

def EndsAt (c : Char → Bool) : Pattern → Prop
  | .one p => ∀ x, p x = true → c x = true
  | .seq first (.edge _) => first.EndsAt c
  | .seq first second => first.Within (fun x => !c x) ∧ second.EndsAt c
  | .alt first second => first.EndsAt c ∧ second.EndsAt c
  | .group _ body => body.EndsAt c
  | _ => False

/-- How many characters a pattern covers, if always the same number. -/
def width? : Pattern → Option Nat
  | .empty | .edge _ | .absent _ => some 0
  | .one _ => some 1
  | .seq first second =>
    match first.width?, second.width? with
    | some n, some m => some (n + m)
    | _, _ => none
  | .alt first second => if first.width? = second.width? then first.width? else none
  | .run _ | .lazyRun _ | .many _ => none
  | .group _ body => body.width?

theorem Within.throughout {c : Char → Bool} {p : Pattern} (hp : p.Within c) (h : p.Spans text i j) :
    Throughout text c i j := by
  induction p generalizing i j with
  | empty => exact .empty (Nat.le_of_eq h)
  | one p =>
    obtain ⟨hi, rfl⟩ := h
    exact .cons (hi.imp hp) (.empty (Nat.le_refl _))
  | edge e => exact .empty (Nat.le_of_eq h.2)
  | seq first second ih ih' =>
    obtain ⟨m, hm, hj⟩ := h
    exact (ih hp.1 hm).trans (ih' hp.2 hj)
  | alt first second ih ih' => exact h.elim (ih hp.1) (ih' hp.2)
  | run p => exact fun k hik hkj => (h.2 k hik hkj).imp hp
  | lazyRun p => exact fun k hik hkj => (h.2 k hik hkj).imp hp
  | many body ih =>
    induction h with
    | refl => exact .empty (Nat.le_refl i)
    | tail _ hstep ihm => exact ihm.trans (ih hp hstep.2)
  | group n body ih => exact ih hp h
  | absent body ih => exact .empty (Nat.le_of_eq h.2)

theorem Closes.holds {c : Char → Bool} {p : Pattern} (hp : p.Closes c) (h : p.Spans text i j) :
    i < j ∧ HoldsAt text c (j - 1) := by
  fun_induction Closes c p generalizing i j with
  | case1 p =>
    obtain ⟨hi, rfl⟩ := h
    exact ⟨Nat.lt_succ_self i, hi.imp hp⟩
  | case2 first e ih =>
    obtain ⟨m, hm, -, rfl⟩ := h
    exact ih hp hm
  | case3 first second _ ih =>
    obtain ⟨m, hm, hj⟩ := h
    obtain ⟨hmj, hc⟩ := ih hp hj
    exact ⟨Nat.lt_of_le_of_lt hm.le hmj, hc⟩
  | case4 first second ih ih' => exact h.elim (ih hp.1) (ih' hp.2)
  | case5 n body ih => exact ih hp h
  | case6 => exact absurd hp not_false

theorem EndsAt.holds {c : Char → Bool} {p : Pattern} (hp : p.EndsAt c) (h : p.Spans text i j) :
    i < j ∧ HoldsAt text c (j - 1) ∧ Throughout text (fun x => !c x) i (j - 1) := by
  fun_induction EndsAt c p generalizing i j with
  | case1 p =>
    obtain ⟨hi, rfl⟩ := h
    exact ⟨Nat.lt_succ_self i, hi.imp hp, .empty (Nat.le_refl i)⟩
  | case2 first e ih =>
    obtain ⟨m, hm, -, rfl⟩ := h
    exact ih hp hm
  | case3 first second _ ih =>
    obtain ⟨m, hm, hj⟩ := h
    obtain ⟨hmj, hc, hbefore⟩ := ih hp.2 hj
    exact ⟨Nat.lt_of_le_of_lt hm.le hmj, hc, (hp.1.throughout hm).trans hbefore⟩
  | case4 first second ih ih' => exact h.elim (ih hp.1) (ih' hp.2)
  | case5 n body ih => exact ih hp h
  | case6 => exact absurd hp not_false

theorem Spans.eq_add_of_width {p : Pattern} {n : Nat} (hp : p.width? = some n)
    (h : p.Spans text i j) : j = i + n := by
  induction p generalizing i j n with
  | empty =>
    obtain rfl := Option.some.inj hp
    exact h
  | one p =>
    obtain rfl := Option.some.inj hp
    exact h.2
  | edge e =>
    obtain rfl := Option.some.inj hp
    exact h.2
  | seq first second ih ih' =>
    obtain ⟨m, hm, hj⟩ := h
    rw [width?] at hp
    split at hp
    · rename_i a b ha hb
      obtain rfl := Option.some.inj hp
      have hm' := ih ha hm
      have hj' := ih' hb hj
      omega
    · exact absurd hp (by simp)
  | alt first second ih ih' =>
    rw [width?] at hp
    split at hp
    · rename_i heq
      exact h.elim (ih hp) (ih' (heq ▸ hp))
    · exact absurd hp (by simp)
  | run p => exact absurd hp (by simp [width?])
  | lazyRun p => exact absurd hp (by simp [width?])
  | many body ih => exact absurd hp (by simp [width?])
  | group m body ih => exact ih hp h
  | absent body ih =>
    obtain rfl := Option.some.inj hp
    exact h.2

/-! ## Patterns in order -/

theorem inOrder_cons_of_ne_nil (p : Pattern) {ps : List Pattern} (h : ps ≠ []) :
    inOrder (p :: ps) = .seq p (inOrder ps) := by
  cases ps with
  | nil => exact absurd rfl h
  | cons q ps => rfl

theorem mayBeEmpty_seq (p q : Pattern) :
    (Pattern.seq p q).opening.mayBeEmpty = (p.opening.mayBeEmpty && q.opening.mayBeEmpty) := by
  rw [opening]
  by_cases h : p.opening.mayBeEmpty = true
  · simp [h]
  · simp [Bool.eq_false_iff.mpr h]

theorem mayBeEmpty_seq_left {p q : Pattern} (h : p.opening.mayBeEmpty = false) :
    (Pattern.seq p q).opening.mayBeEmpty = false := by
  rw [mayBeEmpty_seq, h, Bool.false_and]

theorem mayBeEmpty_seq_right {p q : Pattern} (h : q.opening.mayBeEmpty = false) :
    (Pattern.seq p q).opening.mayBeEmpty = false := by
  rw [mayBeEmpty_seq, h, Bool.and_false]

theorem mayBeEmpty_inOrder_append {ps qs : List Pattern}
    (h : (inOrder qs).opening.mayBeEmpty = false) :
    (inOrder (ps ++ qs)).opening.mayBeEmpty = false := by
  have hne : qs ≠ [] := by
    rintro rfl
    exact absurd h (by decide)
  induction ps with
  | nil => exact h
  | cons p ps ih =>
    rw [List.cons_append, inOrder_cons_of_ne_nil p (by simp [hne])]
    exact mayBeEmpty_seq_right ih

theorem Closes.seq {c : Char → Bool} {p q : Pattern} (h : q.Closes c) :
    (Pattern.seq p q).Closes c := by
  cases q with
  | edge e => exact absurd h not_false
  | _ => exact h

theorem closes_inOrder_append {c : Char → Bool} {ps qs : List Pattern} (h : (inOrder qs).Closes c) :
    (inOrder (ps ++ qs)).Closes c := by
  have hne : qs ≠ [] := by
    rintro rfl
    exact h
  induction ps with
  | nil => exact h
  | cons p ps ih =>
    rw [List.cons_append, inOrder_cons_of_ne_nil p (by simp [hne])]
    exact ih.seq

theorem within_inOrder {c : Char → Bool} {ps : List Pattern} (h : ∀ p ∈ ps, p.Within c) :
    (inOrder ps).Within c := by
  induction ps with
  | nil => trivial
  | cons p ps ih =>
    have htail := ih fun q hq => h q (List.mem_cons_of_mem p hq)
    cases ps with
    | nil => exact h p List.mem_cons_self
    | cons q ps => exact ⟨h p List.mem_cons_self, htail⟩

theorem spans_inOrder_append {ps qs : List Pattern} :
    (inOrder (ps ++ qs)).Spans text i j ↔
      ∃ m, (inOrder ps).Spans text i m ∧ (inOrder qs).Spans text m j := by
  induction ps generalizing i with
  | nil =>
    refine ⟨fun h => ⟨i, rfl, h⟩, ?_⟩
    rintro ⟨m, hm, hj⟩
    obtain rfl : m = i := hm
    exact hj
  | cons p ps ih =>
    cases ps with
    | nil =>
      cases qs with
      | nil =>
        refine ⟨fun h => ⟨j, h, rfl⟩, ?_⟩
        rintro ⟨m, hm, hj⟩
        obtain rfl : j = m := hj
        exact hm
      | cons q qs => exact Iff.rfl
    | cons p' ps =>
      constructor
      · rintro ⟨k, hk, hj⟩
        obtain ⟨m, hm, hj⟩ := ih.mp hj
        exact ⟨m, ⟨k, hk, hm⟩, hj⟩
      · rintro ⟨m, ⟨k, hk, hm⟩, hj⟩
        exact ⟨k, hk, ih.mpr ⟨m, hm, hj⟩⟩

theorem spans_some1 {c : Char → Bool} : (some1 c).Spans text i j ↔ i < j ∧ Throughout text c i j := by
  constructor
  · rintro ⟨m, ⟨hi, rfl⟩, hle, hall⟩
    exact ⟨hle, .cons hi hall⟩
  · rintro ⟨hlt, hall⟩
    exact ⟨i + 1, ⟨hall.holds hlt, rfl⟩, hlt, hall.mono (Nat.le_succ i) (Nat.le_refl j)⟩

/-! ## Fixed texts -/

theorem class_of_beq {c : Char → Bool} {d : Char} (h : c d = true) :
    ∀ x, (x == d) = true → c x = true := by
  intro x hx
  obtain rfl : x = d := by simpa using hx
  exact h

theorem within_text {c : Char → Bool} {s : String} (h : s.toList.all c = true) :
    (Pattern.text s).Within c := by
  refine within_inOrder fun p hp => ?_
  obtain ⟨x, hx, rfl⟩ := List.mem_map.mp hp
  exact class_of_beq (List.all_eq_true.mp h x hx)

theorem closes_text {c : Char → Bool} {s : String} (hne : s.toList ≠ [])
    (h : s.toList.all c = true) : (Pattern.text s).Closes c := by
  obtain ⟨front, x, hs⟩ : ∃ front x, s.toList = front ++ [x] :=
    ⟨_, _, (List.dropLast_concat_getLast hne).symm⟩
  rw [Pattern.text, hs, List.map_append]
  exact closes_inOrder_append (class_of_beq (List.all_eq_true.mp h x (by simp [hs])))

theorem width?_inOrder_ones (cs : List Char) :
    (inOrder (cs.map fun c => .one (· == c))).width? = some cs.length := by
  induction cs with
  | nil => rfl
  | cons c cs ih =>
    cases cs with
    | nil => rfl
    | cons d cs =>
      rw [List.map_cons, inOrder_cons_of_ne_nil _ (by simp), width?, ih, width?]
      simp [Nat.add_comm]

@[simp] theorem width?_text (s : String) : (Pattern.text s).width? = some s.toList.length :=
  width?_inOrder_ones s.toList

end CodeCensus.Pattern
