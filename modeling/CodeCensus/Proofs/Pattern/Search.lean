import CodeCensus.Proofs.Pattern.Spans
import Mathlib.Data.List.Chain

/-! Searching for all matches of a pattern. Every match is found at a place where the pattern covers
some stretch, and each search goes on where the last match stopped. How many matches there are is
bounded from below by any row of places at which the pattern matches, as long as no match reaches
over two of them. -/

namespace CodeCensus.Pattern

open Text Cursor

variable {text : List Char} {i j : Nat} {p : Pattern}

theorem Spans.begins (h : p.Spans text i j) :
    (j = i ∧ p.opening.mayBeEmpty = true) ∨ (i < j ∧ HoldsAt text p.opening.chars i) := by
  induction p generalizing i j with
  | empty => exact .inl ⟨h, rfl⟩
  | one p => exact .inr ⟨h.2 ▸ Nat.lt_succ_self i, h.1⟩
  | edge e => exact .inl ⟨h.2, rfl⟩
  | seq first second ih ih' =>
    obtain ⟨m, hm, hj⟩ := h
    have hmj := hj.le
    rw [opening]
    by_cases he : first.opening.mayBeEmpty = true
    · simp only [he, if_true]
      rcases ih hm with ⟨rfl, -⟩ | ⟨him, hc⟩
      · exact (ih' hj).imp_right fun ⟨hij, hc⟩ => ⟨hij, hc.imp fun c hc => by simp [hc]⟩
      · exact .inr ⟨Nat.lt_of_lt_of_le him hmj, hc.imp fun c hc => by simp [hc]⟩
    · simp only [he]
      obtain ⟨him, hc⟩ := (ih hm).resolve_left fun h => he h.2
      exact .inr ⟨Nat.lt_of_lt_of_le him hmj, hc⟩
  | alt first second ih ih' =>
    rcases h with h | h
    · exact (ih h).imp (fun h => ⟨h.1, by simp [opening, h.2]⟩) fun h =>
        ⟨h.1, h.2.imp fun c hc => by simp [opening, hc]⟩
    · exact (ih' h).imp (fun h => ⟨h.1, by simp [opening, h.2]⟩) fun h =>
        ⟨h.1, h.2.imp fun c hc => by simp [opening, hc]⟩
  | run p =>
    rcases Nat.eq_or_lt_of_le h.1 with rfl | hij
    · exact .inl ⟨rfl, rfl⟩
    · exact .inr ⟨hij, h.2.holds hij⟩
  | lazyRun p =>
    rcases Nat.eq_or_lt_of_le h.1 with rfl | hij
    · exact .inl ⟨rfl, rfl⟩
    · exact .inr ⟨hij, h.2.holds hij⟩
  | many body ih =>
    rcases Relation.ReflTransGen.cases_head h with rfl | ⟨m, hstep, hrest⟩
    · exact .inl ⟨rfl, rfl⟩
    · obtain ⟨-, hc⟩ := (ih hstep.2).resolve_left fun h => absurd h.1 (Nat.ne_of_gt hstep.1)
      have hmj : m ≤ j := Spans.le (p := .many body) hrest
      exact .inr ⟨Nat.lt_of_lt_of_le hstep.1 hmj, hc⟩
  | group n body ih => exact ih h
  | absent body ih => exact .inl ⟨h.2, rfl⟩

theorem Spans.admits (h : p.Spans text i j) : p.opening.admits (on text i) = true := by
  rw [Opening.admits]
  rcases h.begins with ⟨-, he⟩ | ⟨-, hc⟩
  · simp [he]
  · have hi := hc.lt
    obtain ⟨c, hc, hp⟩ := hc
    obtain rfl : text[i] = c := by simpa [hi] using hc
    rw [on_rest, List.drop_eq_getElem_cons hi]
    simp [hp]

theorem Spans.lt (h : p.Spans text i j) (he : p.opening.mayBeEmpty = false) : i < j := by
  rcases h.begins with ⟨-, he'⟩ | ⟨hij, -⟩
  · simp [he] at he'
  · exact hij

theorem Spans.lt_length (h : p.Spans text i j) (he : p.opening.mayBeEmpty = false) :
    i < text.length :=
  Nat.lt_of_lt_of_le (h.lt he) (h.le_length (h.lt he))

/-! ## The leftmost match -/

/-- The matcher finds a match from one index to another. -/
def Finds (p : Pattern) (text : List Char) (m : Match) (i j : Nat) : Prop :=
  p.here? (on text i) = some m ∧ m.start = on text i ∧ m.stop = on text j

theorem finds_of_here? {m : Match} (h : p.here? (on text i) = some m) :
    ∃ j, p.Finds text m i j ∧ p.Spans text i j := by
  obtain ⟨hstart, j, hstop, hj⟩ := here?_eq_some h
  exact ⟨j, ⟨h, hstart, hstop⟩, hj⟩

theorem Finds.spans {m : Match} (h : p.Finds text m i j) : p.Spans text i j := by
  obtain ⟨hstart, j', hstop, hj⟩ := here?_eq_some h.1
  have := congrArg Cursor.pos (h.2.2.symm.trans hstop)
  simp only [on_pos] at this
  exact this ▸ hj

/-- A place that a search passes begins no stretch, be it that it was tried or that its first character ruled it
out. -/
theorem not_spans_of_passed {k : Nat}
    (hk : (if p.opening.admits (on text k) then p.here? (on text k) else none) = none) (j : Nat) :
    ¬ p.Spans text k j := by
  intro hj
  have hsome := here?_isSome hj
  rw [if_pos hj.admits] at hk
  rw [hk] at hsome
  cases hsome

theorem findFrom_eq_some {steps : Nat} {m : Match}
    (h : p.findFrom p.opening steps (on text i) = some m) :
    ∃ s e, i ≤ s ∧ p.Finds text m s e ∧ ∀ k, i ≤ k → k < s → ∀ j, ¬ p.Spans text k j := by
  have hadmitted {k : Nat}
      (hk : (if p.opening.admits (on text k) then p.here? (on text k) else none) = some m) :
      ∃ e, p.Finds text m k e := by
    -- what the first character rules out is not even tried
    split at hk
    · obtain ⟨e, he, -⟩ := finds_of_here? hk
      exact ⟨e, he⟩
    · exact absurd hk (by simp)
  induction steps generalizing i with
  | zero =>
    obtain ⟨e, he⟩ := hadmitted h
    exact ⟨i, e, Nat.le_refl i, he, by omega⟩
  | succ steps ih =>
    rw [findFrom] at h
    split at h
    · rename_i m' hm'
      obtain rfl := Option.some.inj h
      obtain ⟨e, he⟩ := hadmitted hm'
      exact ⟨i, e, Nat.le_refl i, he, by omega⟩
    · rename_i hnone
      rcases Nat.lt_or_ge i text.length with hi | hi
      · rw [next?_on hi] at h
        obtain ⟨s, e, his, he, hbefore⟩ := ih h
        refine ⟨s, e, by omega, he, fun k hik hks j hj => ?_⟩
        rcases Nat.eq_or_lt_of_le hik with rfl | hik
        · exact not_spans_of_passed hnone j hj
        · exact hbefore k hik hks j hj
      · simp [next?_on_of_le hi] at h

theorem not_spans_of_findFrom_eq_none {steps k : Nat}
    (h : p.findFrom p.opening steps (on text i) = none) (hik : i ≤ k) (hk : k ≤ i + steps)
    (hlen : k ≤ text.length) : ¬ p.Spans text k j := by
  intro hj
  induction steps generalizing i with
  | zero =>
    obtain rfl : i = k := by omega
    exact not_spans_of_passed h j hj
  | succ steps ih =>
    rw [findFrom] at h
    split at h
    · exact absurd h (by simp)
    · rename_i hnone
      rcases Nat.eq_or_lt_of_le hik with rfl | hik
      · exact not_spans_of_passed hnone j hj
      · rw [next?_on (by omega)] at h
        exact ih h hik (by omega)

/-- A pattern that matches no empty stretch is found in a text exactly if it covers a stretch of it. -/
theorem foundIn_iff (hempty : p.opening.mayBeEmpty = false) : p.foundIn text = true ↔ ∃ i j, p.Spans text i j := by
  have hsearch : p.find? text = p.findFrom p.opening (on text 0).ahead (on text 0) := rfl
  rw [foundIn]
  constructor
  · intro hfound
    obtain ⟨m, hm⟩ := Option.isSome_iff_exists.mp hfound
    obtain ⟨i, j, -, hspans, -⟩ := findFrom_eq_some (hsearch.symm.trans hm)
    exact ⟨i, j, hspans.spans⟩
  · rintro ⟨i, j, hspans⟩
    have hlt := hspans.lt_length hempty
    by_contra hnone
    rw [Option.not_isSome_iff_eq_none, hsearch] at hnone
    have hwithin : i ≤ 0 + (on text 0).ahead := by
      rw [on_ahead]
      omega
    exact not_spans_of_findFrom_eq_none hnone (Nat.zero_le i) hwithin (Nat.le_of_lt hlt) hspans

/-! ## All matches -/

/-- Matches that a search finds from an index on, one after another. -/
inductive Scan (p : Pattern) (text : List Char) : Nat → List Match → Prop
  | nil (i : Nat) : Scan p text i []
  | cons {i s e : Nat} {m : Match} {later : List Match} (his : i ≤ s) (hm : p.Finds text m s e)
      (hlater : Scan p text e later) : Scan p text i (m :: later)

theorem Scan.mono {ms : List Match} (h : Scan p text j ms) (hij : i ≤ j) : Scan p text i ms := by
  cases h with
  | nil => exact .nil i
  | cons his hm hlater => exact .cons (Nat.le_trans hij his) hm hlater

theorem resume?_of_finds {m : Match} {s e : Nat} (h : p.Finds text m s e) :
    resume? m = if s < e then some (on text e) else (on text e).next? := by
  rw [resume?, h.2.1, h.2.2, on_pos, on_pos]

theorem allFrom_scan (p : Pattern) (text : List Char) (times i : Nat) (found : List Match) :
    ∃ ms, p.allFrom p.opening times (on text i) found = found.reverse ++ ms ∧ Scan p text i ms := by
  induction times generalizing i found with
  | zero => exact ⟨[], by simp [allFrom], .nil i⟩
  | succ times ih =>
    rw [allFrom]
    split
    · exact ⟨[], by simp, .nil i⟩
    · rename_i m hm
      obtain ⟨s, e, his, hfinds, -⟩ := findFrom_eq_some hm
      split
      · exact ⟨[m], by simp, .cons his hfinds (.nil e)⟩
      · rename_i c hc
        have hresume : ∃ e', e ≤ e' ∧ c = on text e' := by
          rw [resume?_of_finds hfinds] at hc
          split at hc
          · exact ⟨e, Nat.le_refl e, (Option.some.inj hc).symm⟩
          · rcases Nat.lt_or_ge e text.length with he | he
            · rw [next?_on he] at hc
              exact ⟨e + 1, Nat.le_succ e, (Option.some.inj hc).symm⟩
            · simp [next?_on_of_le he] at hc
        obtain ⟨e', hee', rfl⟩ := hresume
        obtain ⟨ms, hms, hscan⟩ := ih e' (m :: found)
        exact ⟨m :: ms, by simp [hms], .cons his hfinds (hscan.mono hee')⟩

theorem all_scan (p : Pattern) (text : List Char) : Scan p text 0 (p.all text) := by
  obtain ⟨ms, hms, hscan⟩ := p.allFrom_scan text (text.length + 1) 0 []
  rw [all, start_eq_on, on_ahead, Nat.sub_zero, hms]
  exact hscan

/-- No match that begins at or before one index reaches beyond another. -/
def Apart (p : Pattern) (text : List Char) (a b : Nat) : Prop :=
  ∀ m s e, p.Finds text m s e → s ≤ a → e ≤ b

theorem length_le_allFrom (times i : Nat) (found : List Match) (starts : List Nat)
    (hne : p.opening.mayBeEmpty = false) (htimes : text.length < i + times)
    (hspans : ∀ a ∈ starts, ∃ j, p.Spans text a j)
    (happart : starts.IsChain (p.Apart text)) (hfirst : ∀ a ∈ starts.head?, i ≤ a) :
    starts.length + found.length ≤ (p.allFrom p.opening times (on text i) found).length := by
  induction times generalizing i found starts with
  | zero =>
    cases starts with
    | nil => simp [allFrom]
    | cons a rest =>
      obtain ⟨j, hj⟩ := hspans a List.mem_cons_self
      have := hj.lt_length hne
      have := hfirst a rfl
      omega
  | succ times ih =>
    cases starts with
    | nil =>
      obtain ⟨ms, hms, -⟩ := p.allFrom_scan text (times + 1) i found
      simp [hms]
    | cons a rest =>
      have hia : i ≤ a := hfirst a rfl
      obtain ⟨j, hj⟩ := hspans a List.mem_cons_self
      have halen := hj.lt_length hne
      rw [allFrom]
      split
      · rename_i hnone
        exact absurd hj (not_spans_of_findFrom_eq_none hnone hia (by rw [on_ahead]; omega)
          (Nat.le_of_lt halen))
      · rename_i m hm
        obtain ⟨s, e, his, hfinds, hbefore⟩ := findFrom_eq_some hm
        have hsa : s ≤ a := Nat.le_of_not_lt fun has => hbefore a hia has j hj
        have hse := hfinds.spans.lt hne
        rw [resume?_of_finds hfinds, if_pos hse]
        -- the match starts no later than the first place, so it stops before the second
        have hnext : ∀ b ∈ rest.head?, e ≤ b := by
          intro b hb
          cases rest with
          | nil => simp at hb
          | cons b' rest =>
            obtain rfl : b' = b := by simpa using hb
            exact (List.isChain_cons_cons.mp happart).1 m s e hfinds hsa
        have := ih e (m :: found) rest (by omega)
          (fun b hb => hspans b (List.mem_cons_of_mem a hb)) happart.tail hnext
        simp only [List.length_cons] at this ⊢
        omega

/-- A row of places at which a pattern matches, no two of them within reach of one match, has no
more places than there are matches. -/
theorem length_le_count (hne : p.opening.mayBeEmpty = false) {starts : List Nat}
    (hspans : ∀ a ∈ starts, ∃ j, p.Spans text a j) (happart : starts.IsChain (p.Apart text)) :
    starts.length ≤ p.count text := by
  have := length_le_allFrom (text.length + 1) 0 [] starts hne (by omega) hspans happart
    fun a _ => Nat.zero_le a
  rw [count, all, start_eq_on, on_ahead, Nat.sub_zero]
  simpa using this

theorem count_eq_zero_iff {p : Pattern} (hne : p.opening.mayBeEmpty = false) {text : List Char} :
    p.count text = 0 ↔ ∀ i j, ¬ p.Spans text i j := by
  constructor
  · intro hcount i j hij
    have hspans : ∀ a ∈ [i], ∃ j, p.Spans text a j := by simpa using ⟨j, hij⟩
    have hle := p.length_le_count hne hspans (List.isChain_singleton i)
    simp [hcount] at hle
  · intro h
    have hscan := p.all_scan text
    rw [count]
    cases hall : p.all text with
    | nil => rfl
    | cons m later =>
      rw [hall] at hscan
      cases hscan with
      | cons _ hm _ => exact absurd hm.spans (h _ _)

/-! ## All matches, told exactly

From each place the search finds the leftmost stretch that the pattern
can cover, takes what the matcher answers there, and goes on where that match stops. So a text can be read from
the left: a part in which no match begins is passed over, and where the matcher answers, that is the next match. -/

/-- The matches that are found from an index on, none of them empty. -/
inductive Sweep (p : Pattern) (text : List Char) : Nat → List Match → Prop
  | done {i : Nat} (none : ∀ k e, i ≤ k → ¬ p.Spans text k e) : Sweep p text i []
  | next {i s e : Nat} {m : Match} {later : List Match} (le : i ≤ s) (lt : s < e)
    (leftmost : ∀ k e, i ≤ k → k < s → ¬ p.Spans text k e) (finds : p.Finds text m s e)
    (sweep : Sweep p text e later) : Sweep p text i (m :: later)

theorem allFrom_sweep (hp : p.opening.mayBeEmpty = false) {times i : Nat} (htimes : text.length < i + times)
    (found : List Match) :
    ∃ ms, p.allFrom p.opening times (on text i) found = found.reverse ++ ms ∧ Sweep p text i ms := by
  induction times generalizing i found with
  | zero =>
    refine ⟨[], by rw [allFrom, List.append_nil], .done fun k e hik hspans => ?_⟩
    have hlength := hspans.lt_length hp
    omega
  | succ times ih =>
    rw [allFrom]
    split
    · rename_i hnone
      refine ⟨[], by rw [List.append_nil], .done fun k e hik hspans => ?_⟩
      have hlength := hspans.lt_length hp
      exact not_spans_of_findFrom_eq_none hnone hik (by rw [on_ahead]; omega) (Nat.le_of_lt hlength) hspans
    · rename_i m hm
      obtain ⟨s, e, his, hfinds, hleft⟩ := findFrom_eq_some hm
      have hse := hfinds.spans.lt hp
      rw [resume?_of_finds hfinds, if_pos hse]
      obtain ⟨ms, hms, hsweep⟩ := ih (i := e) (by omega) (m :: found)
      refine ⟨m :: ms, ?_, .next his hse (fun k e' hik hks => hleft k hik hks e') hfinds hsweep⟩
      dsimp only
      rw [hms, List.reverse_cons, List.append_assoc, List.singleton_append]

theorem all_sweep (hp : p.opening.mayBeEmpty = false) (text : List Char) : Sweep p text 0 (p.all text) := by
  have hfrom : ∃ ms, p.allFrom p.opening (text.length + 1) (on text 0) [] = [].reverse ++ ms ∧
      Sweep p text 0 ms := allFrom_sweep hp (by omega) []
  obtain ⟨ms, hms, hsweep⟩ := hfrom
  rw [all, start_eq_on, on_ahead, Nat.sub_zero, hms]
  exact hsweep

namespace Sweep

variable {ms : List Match}

/-- Where no match begins, nothing is found. -/
theorem skip (h : Sweep p text i ms) (hij : i ≤ j) (hnone : ∀ k e, i ≤ k → k < j → ¬ p.Spans text k e) :
    Sweep p text j ms := by
  cases h with
  | done hall => exact .done fun k e hjk => hall k e (hij.trans hjk)
  | @next _ s e m later his hse hleft hm hlater =>
    have hjs : j ≤ s := Nat.le_of_not_lt fun hsj => hnone s e his hsj hm.spans
    exact .next hjs hse (fun k e hjk => hleft k e (hij.trans hjk)) hm hlater

/-- Where the matcher answers, its answer is found. -/
theorem take (h : Sweep p text i ms) {m : Match} (hm : p.Finds text m i j) :
    ∃ later, ms = m :: later ∧ Sweep p text j later := by
  cases h with
  | done hall => exact absurd hm.spans (hall i j (Nat.le_refl i))
  | @next _ s e m' later his hse hleft hm' hlater =>
    obtain rfl : i = s := by
      rcases Nat.eq_or_lt_of_le his with heq | hlt
      · exact heq
      · exact absurd hm.spans (hleft i j (Nat.le_refl i) hlt)
    obtain rfl : m = m' := Option.some.inj (hm.1.symm.trans hm'.1)
    obtain rfl : j = e := congrArg Cursor.pos (hm.2.2.symm.trans hm'.2.2)
    exact ⟨later, rfl, hlater⟩

theorem eq_nil (h : Sweep p text i ms) (hnone : ∀ k e, i ≤ k → ¬ p.Spans text k e) : ms = [] := by
  cases h with
  | done => rfl
  | next his hse hleft hm hlater => exact absurd hm.spans (hnone _ _ his)

/-- Every match that is found begins no earlier than the search. -/
theorem exists_finds (h : Sweep p text i ms) {m : Match} (hm : m ∈ ms) :
    ∃ s e, i ≤ s ∧ p.Finds text m s e := by
  induction h with
  | done => cases hm
  | @next i s e m' later his hse hleft hfinds hlater ih =>
    rcases List.mem_cons.mp hm with rfl | hm
    · exact ⟨s, e, his, hfinds⟩
    · obtain ⟨s', e', hes', hfinds'⟩ := ih hm
      exact ⟨s', e', by omega, hfinds'⟩

end Sweep

/-! ## What is read off a part of a text -/

section Reads

variable {α : Type} {read : Match → Option α} {found found' : List α} {k : Nat}

/-- From one index to another, a search finds matches off which certain items are read. -/
def Reads (p : Pattern) (read : Match → Option α) (text : List Char) (i j : Nat) (found : List α) : Prop :=
  ∀ ms, Sweep p text i ms → ∃ later, ms.filterMap read = found ++ later.filterMap read ∧ Sweep p text j later

theorem Reads.trans (h : p.Reads read text i j found) (h' : p.Reads read text j k found') :
    p.Reads read text i k (found ++ found') := by
  intro ms hms
  obtain ⟨middle, hfound, hmiddle⟩ := h ms hms
  obtain ⟨later, hfound', hlater⟩ := h' middle hmiddle
  exact ⟨later, by rw [hfound, hfound', List.append_assoc], hlater⟩

theorem reads_nil (hij : i ≤ j) (hnone : ∀ k e, i ≤ k → k < j → ¬ p.Spans text k e) :
    p.Reads read text i j [] :=
  fun ms hms => ⟨ms, rfl, hms.skip hij hnone⟩

theorem reads_match (read : Match → Option α) {m : Match} (hm : p.Finds text m i j) : p.Reads read text i j (read m).toList := by
  intro ms hms
  obtain ⟨later, rfl, hlater⟩ := hms.take hm
  refine ⟨later, ?_, hlater⟩
  cases hread : read m with
  | none => rw [List.filterMap_cons_none hread, Option.toList_none, List.nil_append]
  | some item => rw [List.filterMap_cons_some hread, Option.toList_some, List.singleton_append]

theorem Reads.filterMap_all (hp : p.opening.mayBeEmpty = false) (h : p.Reads read text 0 j found)
    (hj : text.length ≤ j) : (p.all text).filterMap read = found := by
  obtain ⟨later, hfound, hlater⟩ := h _ (all_sweep hp text)
  have hend : later = [] := by
    refine hlater.eq_nil fun k e hk hspans => ?_
    exact absurd (hspans.lt_length hp) (Nat.not_lt.mpr (hj.trans hk))
  rw [hfound, hend, List.filterMap_nil, List.append_nil]

end Reads

end CodeCensus.Pattern
