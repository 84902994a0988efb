import CodeCensus.Proofs.Pattern.Captures
import CodeCensus.Proofs.Pattern.Counting
import CodeCensus.Proofs.Pattern.Returns
import CodeCensus.Proofs.Pattern.Shape
import CodeCensus.Proofs.Pattern.Taking
import Mathlib.Data.Option.Basic

/-! Matching in a text and in the text without its carriage returns. A carriage return is one more place at which a
run of characters can stop, and one more character to be taken alone. What the form of a pattern must be for this
to make no difference can be computed: its classes take line feeds only together with carriage returns, and where a
single character may be a carriage return, what follows does not go on at the end of a line. -/

namespace CodeCensus

/-- Stretches that hold the same text and begin on the same line. -/
structure Stretch.Resembles (s s' : Stretch) : Prop where
  text : s.text = s'.text
  line : s.start.line = s'.start.line

/-- Of the numbers that are kept, the same groups are recorded. -/
def RecordAlike (kept : List Nat) (groups groups' : Groups) : Prop :=
  ∀ n ∈ kept, Option.Rel Stretch.Resembles (groups.lookup n) (groups'.lookup n)

theorem recordAlike_nil (kept : List Nat) : RecordAlike kept [] [] := fun _ _ => .none

section answers

variable {α β : Type} {r : α → β → Prop} {x y : Option α} {x' y' : Option β}

theorem rel_or (h : Option.Rel r x x') (h' : Option.Rel r y y') : Option.Rel r (x.or y) (x'.or y') := by
  cases h with
  | some hr => exact .some hr
  | none => exact h'

/-- A second answer makes no difference if the first is none only where the second is none too. -/
theorem rel_or_right (h : Option.Rel r x x') (h' : Option.Rel r y y') (hnone : x = none → y = none) :
    Option.Rel r x (x'.or y') := by
  cases h with
  | some hr => exact .some hr
  | none =>
    rw [hnone rfl] at h'
    exact h'

/-- An answer that comes before makes no difference if it is the same wherever there is one. -/
theorem rel_or_left (h : Option.Rel r x x') (h' : Option.Rel r y y') (hsome : ∀ z, y = some z → x = some z) :
    Option.Rel r x (y'.or x') := by
  cases h' with
  | some hr =>
    rw [hsome _ rfl]
    exact .some hr
  | none => exact h

theorem isSome_of_rel (h : Option.Rel r x x') : x.isSome = x'.isSome := by
  cases h <;> rfl

end answers

namespace Pattern

open Text Cursor

/-! ## One step of the matcher -/

section steps

variable {α : Type} {text : List Char} {p q : Pattern} {c : Char → Bool} {i : Nat} {g : Groups}
  {k : Cursor → Groups → Option α}

theorem matchAt_alt (at' : Cursor) :
    (Pattern.alt p q).matchAt at' g k = (p.matchAt at' g k).or (q.matchAt at' g k) := by
  rw [matchAt]
  cases p.matchAt at' g k <;> rfl

theorem matchAt_absent (at' : Cursor) : (Pattern.absent p).matchAt at' g k =
    if (p.matchAt at' g fun next _ => some next).isSome then none else k at' g := by
  rw [matchAt]
  cases p.matchAt at' g fun next _ => some next <;> rfl

theorem matchAt_one_of_not (h : ¬ HoldsAt text c i) : (Pattern.one c).matchAt (on text i) g k = none := by
  rw [matchAt, pass?_on_of_not h]

theorem reachFrom_eq_append (c : Char → Bool) (steps : Nat) (at' : Cursor) (nearer : List Cursor) :
    reachFrom c steps at' nearer = reachFrom c steps at' [] ++ nearer := by
  induction steps generalizing at' nearer with
  | zero => rfl
  | succ steps ih =>
    rw [reachFrom, reachFrom]
    split
    · rfl
    · rename_i next _
      rw [ih next (at' :: nearer), ih next [at'], List.append_assoc, List.singleton_append]

theorem matchAt_run_of_holds (h : HoldsAt text c i) :
    (Pattern.run c).matchAt (on text i) g k =
      ((Pattern.run c).matchAt (on text (i + 1)) g k).or (k (on text i) g) := by
  have hlt := h.lt
  have hsteps : text.length - i = text.length - (i + 1) + 1 := by omega
  have hreach : (on text i).reach c = (on text (i + 1)).reach c ++ [on text i] := by
    rw [reach, reach, on_ahead, on_ahead, hsteps, reachFrom, pass?_on_of_holds h]
    exact reachFrom_eq_append c _ _ _
  rw [matchAt, matchAt, hreach, List.findSome?_append, List.findSome?_singleton]

theorem matchAt_run_of_not (h : ¬ HoldsAt text c i) :
    (Pattern.run c).matchAt (on text i) g k = k (on text i) g := by
  have hreach : (on text i).reach c = [on text i] := by
    rw [reach]
    cases (on text i).ahead with
    | zero => rfl
    | succ steps => rw [reachFrom, pass?_on_of_not h]
  rw [matchAt, hreach, List.findSome?_singleton]

/-- Where a run leads to nothing, it would not do to stop at once. -/
theorem eq_none_of_matchAt_run (h : (Pattern.run c).matchAt (on text i) g k = none) : k (on text i) g = none :=
  List.findSome?_eq_none_iff.mp h _ (mem_reach.mpr ⟨i, Nat.le_refl i, .empty (Nat.le_refl i), rfl⟩)

theorem matchAt_lazyRun_of_holds (h : HoldsAt text c i) :
    (Pattern.lazyRun c).matchAt (on text i) g k =
      (k (on text i) g).or ((Pattern.lazyRun c).matchAt (on text (i + 1)) g k) := by
  have hlt := h.lt
  have hsteps : text.length - i = text.length - (i + 1) + 1 := by omega
  rw [matchAt, matchAt, on_ahead, on_ahead, hsteps, firstReached, pass?_on_of_holds h]
  cases k (on text i) g <;> rfl

theorem matchAt_lazyRun_of_not (h : ¬ HoldsAt text c i) :
    (Pattern.lazyRun c).matchAt (on text i) g k = k (on text i) g := by
  rw [matchAt]
  cases (on text i).ahead with
  | zero => rfl
  | succ steps =>
    rw [firstReached, pass?_on_of_not h]
    cases k (on text i) g <;> rfl

/-- Where it does to stop at once, the shortest run is empty. -/
theorem matchAt_lazyRun_of_here {x : α} (h : k (on text i) g = some x) :
    (Pattern.lazyRun c).matchAt (on text i) g k = some x := by
  rw [matchAt]
  cases (on text i).ahead with
  | zero => exact h
  | succ steps => rw [firstReached, h]

theorem matchAt_inOrder_append (ps qs : List Pattern) (at' : Cursor) :
    (inOrder (ps ++ qs)).matchAt at' g k =
      (inOrder ps).matchAt at' g fun at'' g' => (inOrder qs).matchAt at'' g' k := by
  induction ps generalizing at' g with
  | nil => rfl
  | cons p ps ih =>
    cases ps with
    | nil =>
      cases qs with
      | nil => rfl
      | cons q qs => rfl
    | cons p' ps =>
      change p.matchAt at' g (fun at'' g' => (inOrder ((p' :: ps) ++ qs)).matchAt at'' g' k) =
        p.matchAt at' g fun at'' g' => (inOrder (p' :: ps)).matchAt at'' g' _
      congr
      funext at'' g'
      exact ih at''

end steps

/-! ## Searches that agree -/

section agreement

variable {α β : Type} {kept : List Nat} {text : List Char} {r : α → β → Prop}
  {k : Cursor → Groups → Option α} {k' : Cursor → Groups → Option β} {a e : Nat} {g g' : Groups} {guarded : Bool}
  {p q : Pattern} {c d : Char → Bool}

/-- What two searches go on with at a place and at the one that answers to it leads to the same. -/
def Alike (kept : List Nat) (text : List Char) (r : α → β → Prop) (k : Cursor → Groups → Option α)
    (k' : Cursor → Groups → Option β) (a : Nat) : Prop :=
  ∀ g g', RecordAlike kept g g' → Option.Rel r (k (on (bare text) (place text a)) g) (k' (on text a) g')

/-- A search does not go on where a line ends. -/
def Halts (text : List Char) (k : Cursor → Groups → Option β) : Prop :=
  ∀ a g, Edge.lineEnd.holds (on text a) = true → k (on text a) g = none

/-- A pattern matches in a text as in the text without carriage returns, whatever it is followed by; if guarded, as
long as what follows it does not go on where a line ends. -/
structure Agrees (kept : List Nat) (text : List Char) (guarded : Bool) (p : Pattern) : Prop where
  rel : ∀ {α β : Type} {r : α → β → Prop} {k : Cursor → Groups → Option α} {k' : Cursor → Groups → Option β}
    {a : Nat} {g g' : Groups}, RecordAlike kept g g' → (guarded = true → Halts text k') →
      (∀ e, p.Spans text a e → Alike kept text r k k' e) →
        Option.Rel r (p.matchAt (on (bare text) (place text a)) g k) (p.matchAt (on text a) g' k')

theorem ne_of_class {x y : Char} (hx : c x = true) (hy : c y = false) : x ≠ y := by
  rintro rfl
  simp [hx] at hy

theorem agrees_empty : Agrees kept text guarded .empty := ⟨fun hg _ hk => hk _ rfl _ _ hg⟩

theorem agrees_one (hr : ReturnsEndLines text) (hfeed : c '\n' = false) (hreturn : c '\r' = false) :
    Agrees kept text guarded (.one c) := by
  constructor
  intro α β r k k' a g g' hg _ hk
  by_cases ha : HoldsAt text c a
  · obtain ⟨x, hx, hcx⟩ := ha
    have hne : x ≠ '\r' := ne_of_class hcx hreturn
    have hplace : HoldsAt (bare text) c (place text a) := (holdsAt_place_of_ne hx hne).mpr ⟨x, hx, hcx⟩
    rw [matchAt_one_of_holds hplace, matchAt_one_of_holds ⟨x, hx, hcx⟩, ← place_succ_of_ne hx hne]
    exact hk (a + 1) ⟨⟨x, hx, hcx⟩, rfl⟩ g g' hg
  · have hplace : ¬ HoldsAt (bare text) c (place text a) := fun h =>
      ha (hr.holdsAt_of_place (fun hc => by simp [hc] at hfeed) h)
    rw [matchAt_one_of_not hplace, matchAt_one_of_not ha]
    exact .none

theorem agrees_run (hr : ReturnsEndLines text) (hc : c '\n' = true → c '\r' = true) :
    Agrees kept text guarded (.run c) := by
  constructor
  intro α β r k k' a g g' hg _ hk
  -- the induction is on how much of the text is left
  obtain ⟨n, hn⟩ : ∃ n, text.length ≤ a + n := ⟨text.length, Nat.le_add_left _ _⟩
  induction n generalizing a with
  | zero =>
    have ha : ¬ HoldsAt text c a := fun h => absurd h.lt (by omega)
    rw [matchAt_run_of_not ha, matchAt_run_of_not fun h => ha (hr.holdsAt_of_place hc h)]
    exact hk a ⟨Nat.le_refl a, .empty (Nat.le_refl a)⟩ g g' hg
  | succ n ih =>
    have hhere := hk a ⟨Nat.le_refl a, .empty (Nat.le_refl a)⟩ g g' hg
    by_cases ha : HoldsAt text c a
    · have hnext := ih (a := a + 1) (fun e he => hk e ⟨by have := he.1; omega, .cons ha he.2⟩) (by omega)
      rw [matchAt_run_of_holds ha]
      obtain ⟨x, hx, hcx⟩ := ha
      by_cases hreturn : x = '\r'
      · subst hreturn
        rw [place_succ_of_return hx] at hnext
        -- the place before a carriage return and the one after it answer to the same
        exact rel_or_right hnext hhere eq_none_of_matchAt_run
      · have hplace : HoldsAt (bare text) c (place text a) := (holdsAt_place_of_ne hx hreturn).mpr ⟨x, hx, hcx⟩
        rw [matchAt_run_of_holds hplace, ← place_succ_of_ne hx hreturn]
        exact rel_or hnext hhere
    · rw [matchAt_run_of_not ha, matchAt_run_of_not fun h => ha (hr.holdsAt_of_place hc h)]
      exact hhere

theorem agrees_lazyRun (hr : ReturnsEndLines text) (hc : c '\n' = true → c '\r' = true) :
    Agrees kept text guarded (.lazyRun c) := by
  constructor
  intro α β r k k' a g g' hg _ hk
  obtain ⟨n, hn⟩ : ∃ n, text.length ≤ a + n := ⟨text.length, Nat.le_add_left _ _⟩
  induction n generalizing a with
  | zero =>
    have ha : ¬ HoldsAt text c a := fun h => absurd h.lt (by omega)
    rw [matchAt_lazyRun_of_not ha, matchAt_lazyRun_of_not fun h => ha (hr.holdsAt_of_place hc h)]
    exact hk a ⟨Nat.le_refl a, .empty (Nat.le_refl a)⟩ g g' hg
  | succ n ih =>
    have hhere := hk a ⟨Nat.le_refl a, .empty (Nat.le_refl a)⟩ g g' hg
    by_cases ha : HoldsAt text c a
    · have hnext := ih (a := a + 1) (fun e he => hk e ⟨by have := he.1; omega, .cons ha he.2⟩) (by omega)
      rw [matchAt_lazyRun_of_holds ha]
      obtain ⟨x, hx, hcx⟩ := ha
      by_cases hreturn : x = '\r'
      · subst hreturn
        rw [place_succ_of_return hx] at hnext
        exact rel_or_left hnext hhere fun z => matchAt_lazyRun_of_here
      · have hplace : HoldsAt (bare text) c (place text a) := (holdsAt_place_of_ne hx hreturn).mpr ⟨x, hx, hcx⟩
        rw [matchAt_lazyRun_of_holds hplace, ← place_succ_of_ne hx hreturn]
        exact rel_or hhere hnext
    · rw [matchAt_lazyRun_of_not ha, matchAt_lazyRun_of_not fun h => ha (hr.holdsAt_of_place hc h)]
      exact hhere

/-! ## Patterns put together -/

theorem halts_of_opening (hfeed : q.opening.chars '\n' = false) (hempty : q.opening.mayBeEmpty = true → Halts text k) :
    Halts text fun at' g => q.matchAt at' g k := by
  intro a g hend
  rw [Option.eq_none_iff_forall_ne_some]
  intro x hx
  obtain ⟨e, g', hspans, hk⟩ := q.matchAt_sound hx
  rcases hspans.begins with ⟨rfl, hmay⟩ | ⟨-, y, hy, hopens⟩
  · rw [hempty hmay e g' hend] at hk
    cases hk
  · obtain rfl := lineEnd_iff.mp hend y hy
    simp [hfeed] at hopens

theorem Agrees.seq {inner : Bool} (hp : Agrees kept text inner p) (hq : Agrees kept text guarded q)
    (hinner : inner = true → q.opening.chars '\n' = false ∧ (q.opening.mayBeEmpty = true → guarded = true)) :
    Agrees kept text guarded (.seq p q) := by
  constructor
  intro α β r k k' a g g' hg hguard hk
  refine hp.rel hg (fun hin => ?_) fun m hm g₁ g₁' hg₁ => ?_
  · obtain ⟨hfeed, hempty⟩ := hinner hin
    exact halts_of_opening hfeed fun hmay => hguard (hempty hmay)
  · exact hq.rel hg₁ hguard fun e he => hk e ⟨m, hm, he⟩

theorem Agrees.alt (hp : Agrees kept text guarded p) (hq : Agrees kept text guarded q) :
    Agrees kept text guarded (.alt p q) := by
  constructor
  intro α β r k k' a g g' hg hguard hk
  rw [matchAt_alt, matchAt_alt]
  exact rel_or (hp.rel hg hguard fun e he => hk e (.inl he)) (hq.rel hg hguard fun e he => hk e (.inr he))

theorem Agrees.absent (hp : Agrees kept text false p) : Agrees kept text guarded (.absent p) := by
  constructor
  intro α β r k k' a g g' hg _ hk
  have hbody : Option.Rel (fun _ _ => True) (p.matchAt (on (bare text) (place text a)) g fun at' _ => some at')
      (p.matchAt (on text a) g' fun at' _ => some at') :=
    hp.rel hg (by simp) fun _ _ _ _ _ => .some trivial
  rw [matchAt_absent, matchAt_absent, isSome_of_rel hbody]
  split
  · exact .none
  · rename_i hnone
    refine hk a ⟨?_, rfl⟩ g g' hg
    rintro ⟨m, hm⟩
    exact hnone (p.matchAt_complete hm fun _ => rfl)

theorem getLast?_take_of_holds {m : Nat} (hm : 0 < m) (h : HoldsAt text (· != '\r') (m - 1)) :
    (text.take m).getLast? ≠ some '\r' := by
  obtain ⟨x, hx, hne⟩ := h
  obtain ⟨n, rfl⟩ : ∃ n, m = n + 1 := ⟨m - 1, by omega⟩
  rw [Nat.add_sub_cancel] at hx
  obtain ⟨hlt, rfl⟩ := List.getElem?_eq_some_iff.mp hx
  rw [List.take_succ_eq_append_getElem hlt, List.getLast?_concat]
  intro heq
  rw [Option.some.inj heq] at hne
  exact absurd hne (by decide)

theorem lineEnd_place (h : Edge.lineEnd.holds (on text a) = true) :
    Edge.lineEnd.holds (on (bare text) (place text a)) = true := by
  rw [lineEnd_iff] at h ⊢
  intro x hx
  cases hat : text[a]? with
  | none =>
    rw [getElem?_place_of_none hat] at hx
    cases hx
  | some y =>
    obtain rfl := h y hat
    rw [getElem?_place_of_ne hat (by decide)] at hx
    exact (Option.some.inj hx).symm

/-- An edge may be looked for before a pattern that does not begin where a line ends. -/
theorem Agrees.edge_seq {edge : Edge} (hr : ReturnsEndLines text) (hedge : edge.isLocal = true)
    (hempty : q.opening.mayBeEmpty = false) (hfeed : q.opening.chars '\n' = false) (hq : Agrees kept text guarded q) :
    Agrees kept text guarded (.seq (.edge edge) q) := by
  constructor
  intro α β r k k' a g g' hg hguard hk
  change Option.Rel r (if edge.holds (on (bare text) (place text a)) = true then q.matchAt _ g k else none)
    (if edge.holds (on text a) = true then q.matchAt _ g' k' else none)
  by_cases hlast : (text.take a).getLast? = some '\r'
  · have hend := lineEnd_of_getLast? hr hlast
    have hnone {γ : Type} {text' : List Char} {b : Nat} {l : Cursor → Groups → Option γ} (g : Groups)
        (hb : Edge.lineEnd.holds (on text' b) = true) : q.matchAt (on text' b) g l = none :=
      halts_of_opening hfeed (fun hmay => by simp [hempty] at hmay) b g hb
    rw [hnone g (lineEnd_place hend), hnone g' hend, ite_self, ite_self]
    exact .none
  · rw [Edge.holds_place hedge hr hlast]
    split
    · rename_i hholds
      exact hq.rel hg hguard fun e he => hk e ⟨a, ⟨hholds, rfl⟩, he⟩
    · exact .none

/-- An edge may be looked for after a pattern that covers no carriage return. -/
theorem Agrees.seq_edge {edge : Edge} (hr : ReturnsEndLines text) (hedge : edge.isLocal = true)
    (hempty : p.opening.mayBeEmpty = false) (hwithin : p.Within (· != '\r')) (hp : Agrees kept text false p) :
    Agrees kept text guarded (.seq p (.edge edge)) := by
  constructor
  intro α β r k k' a g g' hg hguard hk
  refine hp.rel hg (by simp) fun m hm g₁ g₁' hg₁ => ?_
  have ham := hm.lt hempty
  have hlast : (text.take m).getLast? ≠ some '\r' :=
    getLast?_take_of_holds (by omega) (hwithin.throughout hm (m - 1) (by omega) (by omega))
  change Option.Rel r (if edge.holds (on (bare text) (place text m)) = true then k _ g₁ else none)
    (if edge.holds (on text m) = true then k' _ g₁' else none)
  rw [Edge.holds_place hedge hr hlast]
  split
  · rename_i hholds
    exact hk m ⟨m, hm, hholds, rfl⟩ g₁ g₁' hg₁
  · exact .none

theorem recordAlike_cons {n : Nat} {s s' : Stretch} (hs : n ∈ kept → s.Resembles s') (hg : RecordAlike kept g g') :
    RecordAlike kept ((n, s) :: g) ((n, s') :: g') := by
  intro n' hn'
  rw [List.lookup_cons, List.lookup_cons]
  cases hkey : n' == n with
  | true =>
    obtain rfl := eq_of_beq hkey
    exact .some (hs hn')
  | false => exact hg n' hn'

theorem resembles_place (he : a ≤ e) (h : Throughout text (· != '\r') a e) :
    Stretch.Resembles ⟨on (bare text) (place text a), on (bare text) (place text e)⟩ ⟨on text a, on text e⟩ where
  text := by
    rw [Stretch.text, Stretch.text, upTo_place he, bare_eq_self]
    intro hmem
    obtain ⟨n, hn⟩ := List.mem_iff_getElem?.mp hmem
    rw [Cursor.upTo, on_rest, on_pos, on_pos, List.getElem?_take] at hn
    split at hn
    · rename_i hlt
      rw [List.getElem?_drop] at hn
      exact absurd ((h (a + n) (by omega) (by omega)).eq_true hn) (by decide)
    · cases hn
  line := line_place text a

theorem Agrees.group {n : Nat} (hp : Agrees kept text guarded p) (hn : n ∈ kept → p.Within (· != '\r')) :
    Agrees kept text guarded (.group n p) := by
  constructor
  intro α β r k k' a g g' hg hguard hk
  refine hp.rel hg (fun hin b g hend => hguard hin b _ hend) fun e he g₁ g₁' hg₁ => ?_
  exact hk e he _ _ (recordAlike_cons (fun hmem => resembles_place he.le ((hn hmem).throughout he)) hg₁)

/-- A character and a run after it: where the character is a carriage return, the line feed after it goes to the run
if the character could have been a line feed, and to neither if not. -/
theorem agrees_one_run (hr : ReturnsEndLines text) (hone : c '\n' = true → c '\r' = true)
    (hrun : d '\n' = true → d '\r' = true) (hboth : c '\r' = true → c '\n' = d '\n') :
    Agrees kept text true (.seq (.one c) (.run d)) := by
  constructor
  intro α β r k k' a g g' hg hguard hk
  change Option.Rel r ((Pattern.one c).matchAt _ g fun at' g => (Pattern.run d).matchAt at' g k)
    ((Pattern.one c).matchAt _ g' fun at' g => (Pattern.run d).matchAt at' g k')
  by_cases ha : HoldsAt text c a
  · have hrest : ∀ e, (Pattern.run d).Spans text (a + 1) e → Alike kept text r k k' e := fun e he =>
      hk e ⟨a + 1, ⟨ha, rfl⟩, he⟩
    rw [matchAt_one_of_holds ha]
    obtain ⟨x, hx, hcx⟩ := ha
    by_cases hreturn : x = '\r'
    · subst hreturn
      have hplace := hr.getElem?_place_of_return hx
      have hend : Edge.lineEnd.holds (on text (a + 1)) = true := lineEnd_iff.mpr fun y hy => hr.next hx hy
      have hhalt := hguard rfl (a + 1) g' hend
      by_cases hd : HoldsAt text d (a + 1)
      · obtain ⟨y, hy, hdy⟩ := hd
        obtain rfl := hr.next hx hy
        have hfeed : HoldsAt (bare text) c (place text a) := ⟨'\n', hplace.trans hy, (hboth hcx).trans hdy⟩
        have hnext : place text (a + 1 + 1) = place text a + 1 := by
          rw [place_succ_of_ne hy (by decide), place_succ_of_return hx]
        rw [matchAt_run_of_holds ⟨'\n', hy, hdy⟩, hhalt, Option.or_none, matchAt_one_of_holds hfeed, ← hnext]
        exact (agrees_run hr hrun).rel hg hguard fun e he =>
          hrest e ⟨by have := he.1; omega, .cons ⟨'\n', hy, hdy⟩ he.2⟩
      · have hfeed : ¬ HoldsAt (bare text) c (place text a) := by
          rintro ⟨y, hy, hcy⟩
          rw [hplace] at hy
          obtain rfl := hr.next hx hy
          exact hd ⟨'\n', hy, (hboth hcx).symm.trans hcy⟩
        rw [matchAt_run_of_not hd, hhalt, matchAt_one_of_not hfeed]
        exact .none
    · rw [matchAt_one_of_holds ((holdsAt_place_of_ne hx hreturn).mpr ⟨x, hx, hcx⟩), ← place_succ_of_ne hx hreturn]
      exact (agrees_run hr hrun).rel hg hguard hrest
  · rw [matchAt_one_of_not ha, matchAt_one_of_not fun h => ha (hr.holdsAt_of_place hone h)]
    exact .none

/-! ## Repetitions -/

theorem repeatStep_succ (times : Nat) (at' : Cursor) :
    repeatStep (fun c g k => p.matchAt c g k) k (times + 1) at' g =
      (p.matchAt at' g fun c' g' => if at'.pos < c'.pos then
        repeatStep (fun c g k => p.matchAt c g k) k times c' g' else none).or (k at' g) := by
  rw [repeatStep]
  cases p.matchAt at' g fun c' g' => if at'.pos < c'.pos then
    repeatStep (fun c g k => p.matchAt c g k) k times c' g' else none <;> rfl

theorem repeatStep_of_not_spans (h : ∀ e, ¬ p.Spans text a e) (times : Nat) :
    repeatStep (fun c g k => p.matchAt c g k) k times (on text a) g = k (on text a) g := by
  cases times with
  | zero => rfl
  | succ times => rw [repeatStep_succ, matchAt_eq_none h, Option.none_or]

/-- Each repetition begins with a character that is the end of no line, so it gets ahead in both texts. -/
theorem Agrees.many (hp : Agrees kept text true p) (hempty : p.opening.mayBeEmpty = false)
    (hfeed : p.opening.chars '\n' = false) (hreturn : p.opening.chars '\r' = false) :
    Agrees kept text true (.many p) := by
  constructor
  intro α β r k k' a g g' hg hguard hk
  have hbegins {b m : Nat} (h : p.Spans text b m) : ∃ x, text[b]? = some x ∧ x ≠ '\r' ∧ b < m := by
    obtain ⟨hlt, x, hx, hopens⟩ := h.begins.resolve_left fun hmay => by simp [hempty] at hmay
    exact ⟨x, hx, ne_of_class hopens hreturn, hlt⟩
  have hhalts (times : Nat) : Halts text (repeatStep (fun c g k => p.matchAt c g k) k' times) := by
    intro b g hend
    rw [repeatStep_of_not_spans]
    · exact hguard rfl b g hend
    · intro m hm
      obtain ⟨-, x, hx, hopens⟩ := hm.begins.resolve_left fun hmay => by simp [hempty] at hmay
      obtain rfl := lineEnd_iff.mp hend x hx
      simp [hfeed] at hopens
  -- the turns left are enough in both texts, though not equally many
  have key : ∀ times times' a g g', (bare text).length ≤ place text a + times → text.length ≤ a + times' →
      RecordAlike kept g g' → (∀ e, (Pattern.many p).Spans text a e → Alike kept text r k k' e) →
        Option.Rel r (repeatStep (fun c g k => p.matchAt c g k) k times (on (bare text) (place text a)) g)
          (repeatStep (fun c g k => p.matchAt c g k) k' times' (on text a) g') := by
    intro times
    induction times with
    | zero =>
      intro times' a g g' htimes _ hg hk
      rw [repeatStep_of_not_spans (k := k')]
      · exact hk a .refl g g' hg
      · intro m hm
        obtain ⟨x, hx, hne, -⟩ := hbegins hm
        have hlt := (List.getElem?_eq_some_iff.mp (getElem?_place_of_ne hx hne)).1
        omega
    | succ times ih =>
      intro times' a g g' htimes htimes' hg hk
      cases times' with
      | zero =>
        rw [repeatStep_of_not_spans (k := k)]
        · exact hk a .refl g g' hg
        · intro m hm
          have hlt := hm.lt_length hempty
          have hend : text.length ≤ a := htimes'
          rw [place_eq_length hend] at hlt
          exact absurd hlt (Nat.lt_irrefl _)
      | succ times' =>
        rw [repeatStep_succ, repeatStep_succ]
        refine rel_or (hp.rel hg (fun _ b g hend => ?_) fun m hm g₁ g₁' hg₁ => ?_) (hk a .refl g g' hg)
        · rw [hhalts times' b g hend, ite_self]
        · obtain ⟨x, hx, hne, hlt⟩ := hbegins hm
          have hplace : place text a < place text m := by
            have hstep := place_succ_of_ne hx hne
            have hmono : place text (a + 1) ≤ place text m := place_mono hlt
            omega
          rw [on_pos, on_pos, on_pos, on_pos, if_pos hlt, if_pos hplace]
          exact ih times' m g₁ g₁' (by omega) (by omega) hg₁ fun e he => hk e (.head ⟨hlt, hm⟩ he)
  rw [matchAt, matchAt, on_ahead, on_ahead]
  exact key _ _ a g g' (by omega) (by omega) hg hk

end agreement

end Pattern

end CodeCensus
