import CodeCensus.Pattern.Build
import CodeCensus.Pattern.Search
import CodeCensus.Proofs.Pattern.Places
import Mathlib.Logic.Relation

/-! The stretches of a text that a pattern can cover, said without any order of choices, and the groups
that are recorded along them. The matcher answers at a place exactly when some stretch begins there, and
what it answers is one of them with what was recorded on the way. -/

namespace CodeCensus.Pattern

open Text Cursor

/-- A pattern covers a text from one index to another. -/
def Spans (text : List Char) : Pattern → Nat → Nat → Prop
  | .empty, i, j => j = i
  | .one p, i, j => HoldsAt text p i ∧ j = i + 1
  | .edge e, i, j => e.holds (on text i) = true ∧ j = i
  | .seq first second, i, j => ∃ m, first.Spans text i m ∧ second.Spans text m j
  | .alt first second, i, j => first.Spans text i j ∨ second.Spans text i j
  | .run p, i, j => i ≤ j ∧ Throughout text p i j
  | .lazyRun p, i, j => i ≤ j ∧ Throughout text p i j
  | .many body, i, j => Relation.ReflTransGen (fun a b => a < b ∧ body.Spans text a b) i j
  | .group _ body, i, j => body.Spans text i j
  | .absent body, i, j => (¬ ∃ m, body.Spans text i m) ∧ j = i

variable {text : List Char} {i j : Nat}

theorem Spans.le {p : Pattern} (h : p.Spans text i j) : i ≤ j := by
  induction p generalizing i j with
  | empty => exact Nat.le_of_eq h.symm
  | one p => exact h.2 ▸ Nat.le_succ i
  | edge e => exact Nat.le_of_eq h.2.symm
  | seq first second ih ih' =>
    obtain ⟨m, hm, hj⟩ := h
    exact Nat.le_trans (ih hm) (ih' hj)
  | alt first second ih ih' => exact h.elim ih ih'
  | run p => exact h.1
  | lazyRun p => exact h.1
  | many body ih =>
    induction h with
    | refl => exact Nat.le_refl i
    | tail _ hstep ihm => exact Nat.le_trans ihm (Nat.le_of_lt hstep.1)
  | group n body ih => exact ih h
  | absent body ih => exact Nat.le_of_eq h.2.symm

theorem Spans.le_length {p : Pattern} (h : p.Spans text i j) (hij : i < j) : j ≤ text.length := by
  induction p generalizing i j with
  | empty => exact absurd h (Nat.ne_of_gt hij)
  | one p =>
    obtain ⟨hp, rfl⟩ := h
    exact hp.lt
  | edge e => exact absurd h.2 (Nat.ne_of_gt hij)
  | seq first second ih ih' =>
    obtain ⟨m, hm, hj⟩ := h
    rcases Nat.eq_or_lt_of_le (Spans.le hj) with rfl | hmj
    · exact ih hm hij
    · exact ih' hj hmj
  | alt first second ih ih' => exact h.elim (fun h => ih h hij) (fun h => ih' h hij)
  | run p => exact h.2.le_length.resolve_left (Nat.not_le.mpr hij)
  | lazyRun p => exact h.2.le_length.resolve_left (Nat.not_le.mpr hij)
  | many body ih =>
    rcases Relation.ReflTransGen.cases_tail h with rfl | ⟨m, -, hstep⟩
    · exact absurd hij (Nat.lt_irrefl _)
    · exact ih hstep.2 hstep.1
  | group n body ih => exact ih h hij
  | absent body ih => exact absurd h.2 (Nat.ne_of_gt hij)

/-- A pattern covers a text from one index to another and records groups on the way, the last one
first. -/
inductive Captures (text : List Char) : Pattern → Nat → Nat → Groups → Prop
  | empty {i : Nat} : Captures text .empty i i []
  | one {p : Char → Bool} {i : Nat} (holds : HoldsAt text p i) : Captures text (.one p) i (i + 1) []
  | edge {e : Edge} {i : Nat} (holds : e.holds (on text i) = true) : Captures text (.edge e) i i []
  | seq {first second : Pattern} {i m j : Nat} {new new' : Groups}
    (first_captures : Captures text first i m new)
    (second_captures : Captures text second m j new') :
    Captures text (.seq first second) i j (new' ++ new)
  | left {first second : Pattern} {i j : Nat} {new : Groups}
    (captures : Captures text first i j new) : Captures text (.alt first second) i j new
  | right {first second : Pattern} {i j : Nat} {new : Groups}
    (captures : Captures text second i j new) : Captures text (.alt first second) i j new
  | run {p : Char → Bool} {i j : Nat} (le : i ≤ j) (all : Throughout text p i j) :
    Captures text (.run p) i j []
  | lazyRun {p : Char → Bool} {i j : Nat} (le : i ≤ j) (all : Throughout text p i j) :
    Captures text (.lazyRun p) i j []
  | done {body : Pattern} {i : Nat} : Captures text (.many body) i i []
  | turn {body : Pattern} {i m j : Nat} {new new' : Groups} (lt : i < m)
    (captures : Captures text body i m new) (later : Captures text (.many body) m j new') :
    Captures text (.many body) i j (new' ++ new)
  | group {n : Nat} {body : Pattern} {i j : Nat} {new : Groups}
    (captures : Captures text body i j new) :
    Captures text (.group n body) i j ((n, ⟨on text i, on text j⟩) :: new)
  | absent {body : Pattern} {i : Nat} (not_spans : ¬ ∃ m, body.Spans text i m) :
    Captures text (.absent body) i i []

theorem Captures.spans {p : Pattern} {new : Groups} (h : Captures text p i j new) : p.Spans text i j := by
  induction h with
  | empty => rfl
  | one hp => exact ⟨hp, rfl⟩
  | edge he => exact ⟨he, rfl⟩
  | seq _ _ ih ih' => exact ⟨_, ih, ih'⟩
  | left _ ih => exact .inl ih
  | right _ ih => exact .inr ih
  | run hij hp => exact ⟨hij, hp⟩
  | lazyRun hij hp => exact ⟨hij, hp⟩
  | done => exact .refl
  | turn hlt _ _ ih ih' => exact .head ⟨hlt, ih⟩ ih'
  | group _ ih => exact ih
  | absent hnot => exact ⟨hnot, rfl⟩

/-! ## The matcher -/

/-- The matcher goes on with what was recorded along a stretch that the pattern covers. -/
def Records (text : List Char) (p : Pattern) : Prop :=
  ∀ {α : Type} {i : Nat} {g : Groups} {k : Cursor → Groups → Option α} {x : α},
    p.matchAt (on text i) g k = some x →
      ∃ j new, Captures text p i j new ∧ k (on text j) (new ++ g) = some x

/-- The matcher goes on only from the ends of stretches that the pattern covers. -/
def Sound (text : List Char) (p : Pattern) : Prop :=
  ∀ {α : Type} {i : Nat} {g : Groups} {k : Cursor → Groups → Option α} {x : α},
    p.matchAt (on text i) g k = some x → ∃ j g', p.Spans text i j ∧ k (on text j) g' = some x

/-- The matcher answers if it can go on from the end of some stretch that the pattern covers. -/
def Complete (text : List Char) (p : Pattern) : Prop :=
  ∀ {α : Type} {i j : Nat} {g : Groups} {k : Cursor → Groups → Option α},
    p.Spans text i j → (∀ g', (k (on text j) g').isSome) → (p.matchAt (on text i) g k).isSome

theorem repeatStep_records {α : Type} {body : Pattern} (hbody : Records text body)
    {k : Cursor → Groups → Option α} {x : α} {times i : Nat} {g : Groups}
    (h : repeatStep (fun c g k => body.matchAt c g k) k times (on text i) g = some x) :
    ∃ j new, Captures text (.many body) i j new ∧ k (on text j) (new ++ g) = some x := by
  induction times generalizing i g with
  | zero => exact ⟨i, [], .done, h⟩
  | succ times ih =>
    rw [repeatStep] at h
    split at h
    · rename_i y hy
      obtain rfl := Option.some.inj h
      obtain ⟨m, new, hm, hgo⟩ := hbody hy
      by_cases him : i < m
      · rw [on_pos, on_pos, if_pos him] at hgo
        obtain ⟨j, new', hj, hk⟩ := ih hgo
        exact ⟨j, new' ++ new, .turn him hm hj, by rwa [List.append_assoc]⟩
      · rw [on_pos, on_pos, if_neg him] at hgo
        cases hgo
    · exact ⟨i, [], .done, h⟩

theorem isSome_repeatStep {α : Type} {body : Pattern} (hbody : Complete text body)
    {k : Cursor → Groups → Option α} {times i j : Nat} {g : Groups}
    (htimes : text.length ≤ i + times)
    (h : Relation.ReflTransGen (fun a b => a < b ∧ body.Spans text a b) i j)
    (hk : ∀ g', (k (on text j) g').isSome) :
    (repeatStep (fun c g k => body.matchAt c g k) k times (on text i) g).isSome := by
  -- each turn moves on by a character, so as many turns as characters are left are enough
  induction times generalizing i g with
  | zero =>
    rcases Relation.ReflTransGen.cases_head h with rfl | ⟨m, hstep, -⟩
    · exact hk g
    · have := hstep.2.le_length hstep.1
      have := hstep.1
      omega
  | succ times ih =>
    rw [repeatStep]
    split
    · rfl
    · rename_i hnone
      rcases Relation.ReflTransGen.cases_head h with rfl | ⟨m, hstep, hrest⟩
      · exact hk g
      · have him := hstep.1
        have hsome := hbody (g := g)
          (k := fun c' g' => if (on text i).pos < c'.pos then
            repeatStep (fun c g k => body.matchAt c g k) k times c' g' else none) hstep.2
              fun g' => by
              rw [on_pos, on_pos, if_pos him]
              exact ih (by omega) hrest
        rw [hnone] at hsome
        exact absurd hsome (by simp)

theorem matchAt_eq_none_iff {body : Pattern} {g : Groups} (hrecords : Records text body)
    (hcomplete : Complete text body) :
    body.matchAt (on text i) g (fun c _ => some c) = none ↔ ¬ ∃ m, body.Spans text i m := by
  rw [← Option.not_isSome_iff_eq_none]
  refine not_congr ⟨fun h => ?_, fun ⟨m, hm⟩ => hcomplete hm fun _ => rfl⟩
  obtain ⟨y, hy⟩ := Option.isSome_iff_exists.mp h
  obtain ⟨m, _, hm, _⟩ := hrecords hy
  exact ⟨m, hm.spans⟩

theorem matchAt_spec (p : Pattern) : Records text p ∧ Complete text p := by
  -- both at once: what is absent is recorded because its body is complete, and the other way round
  induction p with
  | empty =>
    refine ⟨fun h => ⟨_, [], .empty, h⟩, fun h hk => ?_⟩
    obtain rfl : _ = _ := h
    exact hk _
  | one p =>
    refine ⟨fun {α i g k x} h => ?_, fun {α i j g k} h hk => ?_⟩
    · rw [matchAt] at h
      by_cases hi : HoldsAt text p i
      · rw [pass?_on_of_holds hi] at h
        exact ⟨i + 1, [], .one hi, h⟩
      · rw [pass?_on_of_not hi] at h
        cases h
    · obtain ⟨hi, rfl⟩ := h
      rw [matchAt, pass?_on_of_holds hi]
      exact hk g
  | edge e =>
    refine ⟨fun {α i g k x} h => ?_, fun {α i j g k} h hk => ?_⟩
    · rw [matchAt] at h
      split at h
      · rename_i he
        exact ⟨i, [], .edge he, h⟩
      · cases h
    · obtain ⟨he, rfl⟩ := h
      rw [matchAt, if_pos he]
      exact hk g
  | seq first second ih ih' =>
    refine ⟨fun h => ?_, fun h hk => ?_⟩
    · obtain ⟨m, new, hm, h⟩ := ih.1 h
      obtain ⟨j, new', hj, h⟩ := ih'.1 h
      exact ⟨j, new' ++ new, .seq hm hj, by rwa [List.append_assoc]⟩
    · obtain ⟨m, hm, hj⟩ := h
      exact ih.2 hm fun g' => ih'.2 hj hk
  | alt first second ih ih' =>
    refine ⟨fun {α i g k x} h => ?_, fun {α i j g k} h hk => ?_⟩
    · rw [matchAt] at h
      split at h
      · rename_i y hy
        obtain ⟨j, new, hj, hx⟩ := ih.1 hy
        exact ⟨j, new, .left hj, hx.trans h⟩
      · obtain ⟨j, new, hj, hx⟩ := ih'.1 h
        exact ⟨j, new, .right hj, hx⟩
    · rw [matchAt]
      split
      · rfl
      · rename_i hnone
        rcases h with h | h
        · exact absurd (ih.2 (g := g) h hk) (by simp [hnone])
        · exact ih'.2 h hk
  | run p =>
    refine ⟨fun {α i g k x} h => ?_, fun {α i j g k} h hk => ?_⟩
    · obtain ⟨j, hij, hp, hj, -⟩ := findSome?_reach h
      exact ⟨j, [], .run hij hp, hj⟩
    · rw [matchAt, List.findSome?_isSome_iff]
      exact ⟨on text j, mem_reach.mpr ⟨j, h.1, h.2, rfl⟩, hk g⟩
  | lazyRun p =>
    refine ⟨fun {α i g k x} h => ?_, fun {α i j g k} h hk => ?_⟩
    · obtain ⟨j, hij, hp, hj, -⟩ := firstReached_eq_some h
      exact ⟨j, [], .lazyRun hij hp, hj⟩
    · have := h.2.le_length
      rw [matchAt, on_ahead]
      exact isSome_firstReached h.1 (by omega) h.2 (hk g)
  | many body ih =>
    refine ⟨fun h => repeatStep_records ih.1 h, fun {α i j g k} h hk => ?_⟩
    rw [matchAt, on_ahead]
    exact isSome_repeatStep ih.2 (by omega) h hk
  | group n body ih =>
    refine ⟨fun h => ?_, fun h hk => ?_⟩
    · obtain ⟨j, new, hj, h⟩ := ih.1 h
      exact ⟨j, _, .group hj, h⟩
    · exact ih.2 h fun g' => hk _
  | absent body ih =>
    refine ⟨fun {α i g k x} h => ?_, fun {α i j g k} h hk => ?_⟩
    · rw [matchAt] at h
      split at h
      · cases h
      · rename_i hnone
        exact ⟨i, [], .absent ((matchAt_eq_none_iff ih.1 ih.2).mp hnone), h⟩
    · obtain ⟨hnot, rfl⟩ := h
      rw [matchAt, (matchAt_eq_none_iff ih.1 ih.2).mpr hnot]
      exact hk g

theorem matchAt_records (p : Pattern) : Records text p := p.matchAt_spec.1

theorem matchAt_complete (p : Pattern) : Complete text p := p.matchAt_spec.2

theorem matchAt_sound (p : Pattern) : Sound text p := by
  intro α i g k x h
  obtain ⟨j, new, hnew, hk⟩ := p.matchAt_records h
  exact ⟨j, new ++ g, hnew.spans, hk⟩

theorem here?_eq_some {p : Pattern} {m : Match} (h : p.here? (on text i) = some m) :
    m.start = on text i ∧ ∃ j, m.stop = on text j ∧ p.Spans text i j := by
  obtain ⟨j, g, hj, hm⟩ := p.matchAt_sound h
  obtain rfl := Option.some.inj hm
  exact ⟨rfl, j, rfl, hj⟩

theorem here?_isSome {p : Pattern} (h : p.Spans text i j) : (p.here? (on text i)).isSome :=
  p.matchAt_complete h fun _ => rfl

end CodeCensus.Pattern
