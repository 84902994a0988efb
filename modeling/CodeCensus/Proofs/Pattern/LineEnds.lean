import CodeCensus.Proofs.Pattern.Agreement
import CodeCensus.Proofs.Pattern.Search

/-! Patterns for which the style of line ends makes no difference. Whether a pattern is one can be computed. All its
matches in a text are then those in the text without carriage returns, each at the place that it answers to. -/

namespace CodeCensus.Pattern

open Text Cursor

/-- Whether a pattern covers no stretch that holds a character. -/
def spares (x : Char) : Pattern → Bool
  | .one c | .run c | .lazyRun c => !c x
  | .seq first second | .alt first second => first.spares x && second.spares x
  | .many body | .group _ body => body.spares x
  | .empty | .edge _ | .absent _ => true

def isLocalEdge : Pattern → Bool
  | .edge e => e.isLocal
  | _ => false

/-- Whether a pattern begins with a character other than a line feed. -/
def startsInLine (p : Pattern) : Bool := !p.opening.mayBeEmpty && !p.opening.chars '\n'

/-- Whether a class takes no line feed without taking carriage returns. -/
def takesReturns (c : Char → Bool) : Bool := !c '\n' || c '\r'

/-- Whether these are a character and a run that goes on as far as the character goes. -/
def isDrawn : Pattern → Pattern → Bool
  | .one c, .run d => takesReturns c && takesReturns d && (!c '\r' || c '\n' == d '\n')
  | _, _ => false

/-- Whether it makes no difference to a pattern that line feeds come after carriage returns; if guarded, as long as
what follows the pattern does not go on where a line ends. -/
def ignoresReturns (kept : List Nat) (guarded : Bool) : Pattern → Bool
  | .empty => true
  | .one c => !c '\n' && !c '\r'
  | .edge _ => false
  | .seq first second =>
    (first.isLocalEdge && second.startsInLine && second.ignoresReturns kept guarded) ||
      (second.isLocalEdge && !first.opening.mayBeEmpty && first.spares '\r' && first.ignoresReturns kept false) ||
      (guarded && isDrawn first second) ||
      (second.ignoresReturns kept guarded &&
        (first.ignoresReturns kept false ||
          (first.ignoresReturns kept true && !second.opening.chars '\n' &&
            (guarded || !second.opening.mayBeEmpty))))
  | .alt first second => first.ignoresReturns kept guarded && second.ignoresReturns kept guarded
  | .run c | .lazyRun c => takesReturns c
  | .many body => guarded && body.ignoresReturns kept true && body.startsInLine && !body.opening.chars '\r'
  | .group n body => body.ignoresReturns kept guarded && (!kept.contains n || body.spares '\r')
  | .absent body => body.ignoresReturns kept false

variable {kept : List Nat} {text : List Char} {guarded : Bool} {p q : Pattern} {c d : Char → Bool}

theorem within_of_spares {x : Char} (h : p.spares x = true) : p.Within (· != x) := by
  induction p with
  | empty | edge | absent => trivial
  | one c | run c | lazyRun c =>
    intro y hy
    rw [bne_iff_ne]
    rintro rfl
    simp [spares, hy] at h
  | seq first second ih ih' | alt first second ih ih' =>
    rw [spares, Bool.and_eq_true] at h
    exact ⟨ih h.1, ih' h.2⟩
  | many body ih | group n body ih => exact ih h

theorem takesReturns_iff : takesReturns c = true ↔ (c '\n' = true → c '\r' = true) := by
  rw [takesReturns]
  cases c '\n' <;> simp

theorem startsInLine_iff :
    p.startsInLine = true ↔ p.opening.mayBeEmpty = false ∧ p.opening.chars '\n' = false := by
  rw [startsInLine, Bool.and_eq_true, Bool.not_eq_true', Bool.not_eq_true']

theorem agrees_of_isDrawn (hr : ReturnsEndLines text) (h : isDrawn p q = true) :
    Agrees kept text true (.seq p q) := by
  unfold isDrawn at h
  split at h
  · rename_i c d
    rw [Bool.and_eq_true, Bool.and_eq_true, takesReturns_iff, takesReturns_iff] at h
    obtain ⟨⟨hone, hrun⟩, hboth⟩ := h
    refine agrees_one_run hr hone hrun fun hreturn => ?_
    simpa [hreturn] using hboth
  · cases h

theorem agrees_of_ignoresReturns (hr : ReturnsEndLines text) (h : p.ignoresReturns kept guarded = true) :
    Agrees kept text guarded p := by
  induction p generalizing guarded with
  | empty => exact agrees_empty
  | one c =>
    rw [ignoresReturns, Bool.and_eq_true, Bool.not_eq_true', Bool.not_eq_true'] at h
    exact agrees_one hr h.1 h.2
  | edge e => cases h
  | seq first second ih ih' =>
    rw [ignoresReturns, Bool.or_eq_true, Bool.or_eq_true, Bool.or_eq_true] at h
    rcases h with ((hedge | hedge) | hdrawn) | hplain
    · rw [Bool.and_eq_true, Bool.and_eq_true, startsInLine_iff] at hedge
      obtain ⟨⟨hlocal, hempty, hfeed⟩, hsecond⟩ := hedge
      cases first with
      | edge e => exact Agrees.edge_seq hr hlocal hempty hfeed (ih' hsecond)
      | _ => cases hlocal
    · rw [Bool.and_eq_true, Bool.and_eq_true, Bool.and_eq_true, Bool.not_eq_true'] at hedge
      obtain ⟨⟨⟨hlocal, hempty⟩, hspares⟩, hfirst⟩ := hedge
      cases second with
      | edge e => exact Agrees.seq_edge hr hlocal hempty (within_of_spares hspares) (ih hfirst)
      | _ => cases hlocal
    · rw [Bool.and_eq_true] at hdrawn
      obtain ⟨rfl, hdrawn⟩ := hdrawn
      exact agrees_of_isDrawn hr hdrawn
    · rw [Bool.and_eq_true, Bool.or_eq_true] at hplain
      obtain ⟨hsecond, hfirst | hfirst⟩ := hplain
      · have hnone : Agrees kept text false first := ih hfirst
        exact hnone.seq (ih' hsecond) fun hinner => by cases hinner
      · rw [Bool.and_eq_true, Bool.and_eq_true, Bool.not_eq_true', Bool.or_eq_true, Bool.not_eq_true'] at hfirst
        obtain ⟨⟨hfirst, hfeed⟩, hguard⟩ := hfirst
        have hinner : Agrees kept text true first := ih hfirst
        refine hinner.seq (ih' hsecond) fun _ => ⟨hfeed, fun hmay => hguard.resolve_right ?_⟩
        rw [hmay]
        decide
  | alt first second ih ih' =>
    rw [ignoresReturns, Bool.and_eq_true] at h
    exact (ih h.1).alt (ih' h.2)
  | run c => exact agrees_run hr (takesReturns_iff.mp h)
  | lazyRun c => exact agrees_lazyRun hr (takesReturns_iff.mp h)
  | many body ih =>
    rw [ignoresReturns, Bool.and_eq_true, Bool.and_eq_true, Bool.and_eq_true, startsInLine_iff,
      Bool.not_eq_true'] at h
    obtain ⟨⟨⟨rfl, hbody⟩, hempty, hfeed⟩, hreturn⟩ := h
    exact (ih hbody).many hempty hfeed hreturn
  | group n body ih =>
    rw [ignoresReturns, Bool.and_eq_true, Bool.or_eq_true, Bool.not_eq_true'] at h
    refine (ih h.1).group fun hn => within_of_spares (h.2.resolve_left ?_)
    rw [List.contains_iff_mem.mpr hn]
    decide
  | absent body ih =>
    have hbody : Agrees kept text false body := ih h
    exact hbody.absent

/-! ## Where patterns that agree match -/

section places

variable {a e j : Nat}

/-- The end of a stretch as the one thing that a search asks for. -/
theorem Agrees.rel_at (h : Agrees kept text false p) (a j : Nat) :
    Option.Rel (fun _ _ => True)
      (p.matchAt (on (bare text) (place text a)) [] fun at' _ => if at'.pos = j then some () else none)
      (p.matchAt (on text a) [] fun at' _ => if place text at'.pos = j then some () else none) := by
  refine h.rel (recordAlike_nil kept) (by simp) fun e _ g g' _ => ?_
  rw [on_pos, on_pos]
  split
  · exact .some trivial
  · exact .none

theorem Agrees.spans_place (h : Agrees kept text false p) (hspans : p.Spans text a e) :
    p.Spans (bare text) (place text a) (place text e) := by
  have hsome := isSome_of_rel (h.rel_at a (place text e))
  rw [p.matchAt_complete hspans fun g => by rw [on_pos, if_pos rfl]; rfl] at hsome
  obtain ⟨_, hx⟩ := Option.isSome_iff_exists.mp hsome
  obtain ⟨j, g', hj, hk⟩ := p.matchAt_sound hx
  by_cases heq : j = place text e
  · exact heq ▸ hj
  · rw [on_pos, if_neg heq] at hk
    cases hk

theorem Agrees.exists_spans (h : Agrees kept text false p) (hspans : p.Spans (bare text) (place text a) j) :
    ∃ e, place text e = j ∧ p.Spans text a e := by
  have hsome := isSome_of_rel (h.rel_at a j)
  rw [p.matchAt_complete hspans fun g => by rw [on_pos, if_pos rfl]; rfl] at hsome
  obtain ⟨_, hx⟩ := Option.isSome_iff_exists.mp hsome.symm
  obtain ⟨e, g', he, hk⟩ := p.matchAt_sound hx
  by_cases heq : place text e = j
  · exact ⟨e, heq, he⟩
  · rw [on_pos, if_neg heq] at hk
    cases hk

end places

/-! ## Matches that answer to one another -/

/-- Matches that begin at places that answer to one another and record the same groups. They may stop at different
places, if from both on a class of characters in which no match begins leads to such places again. -/
structure Answers (kept : List Nat) (gap : Char → Bool) (text : List Char) (m m' : Match) : Prop where
  start : ∃ a, m.start = on (bare text) (place text a) ∧ m'.start = on text a
  stop : ∃ j e f, m.stop = on (bare text) j ∧ m'.stop = on text e ∧ j ≤ place text f ∧ e ≤ f ∧
    Throughout (bare text) gap j (place text f) ∧ Throughout text gap e f
  groups : RecordAlike kept m.groups m'.groups

variable {gap : Char → Bool} {a b e : Nat} {m m' : Match} {ms ms' : List Match}

theorem answers_of_place {g g' : Groups} (hg : RecordAlike kept g g') :
    Answers kept gap text ⟨⟨on (bare text) (place text b), on (bare text) (place text e)⟩, g⟩
      ⟨⟨on text b, on text e⟩, g'⟩ where
  start := ⟨b, rfl, rfl⟩
  stop := ⟨_, e, e, rfl, rfl, Nat.le_refl _, Nat.le_refl e, .empty (Nat.le_refl _), .empty (Nat.le_refl e)⟩
  groups := hg

/-- From a place on, a pattern leads to matches that answer to one another, wherever they begin. -/
def Concludes (kept : List Nat) (gap : Char → Bool) (text : List Char) (p : Pattern) (a : Nat) : Prop :=
  ∀ b, Alike kept text (Answers kept gap text)
    (fun at' g => p.matchAt at' g fun stop g => some ⟨⟨on (bare text) (place text b), stop⟩, g⟩)
    (fun at' g => p.matchAt at' g fun stop g => some ⟨⟨on text b, stop⟩, g⟩) a

/-- Whether a match begins at a place, and which one, is the same in both texts. -/
def Corresponds (kept : List Nat) (gap : Char → Bool) (text : List Char) (p : Pattern) : Prop :=
  ∀ a, Option.Rel (Answers kept gap text) (p.here? (on (bare text) (place text a))) (p.here? (on text a))

theorem corresponds_inOrder {front tail : List Pattern} (hfront : Agrees kept text false (inOrder front))
    (htail : ∀ i a, (inOrder front).Spans text i a → Concludes kept gap text (inOrder tail) a) :
    Corresponds kept gap text (inOrder (front ++ tail)) := by
  intro a
  rw [here?, here?, matchAt_inOrder_append, matchAt_inOrder_append]
  exact hfront.rel (recordAlike_nil kept) (by simp) fun e he => htail a e he a

theorem corresponds_of_agrees (h : Agrees kept text false p) : Corresponds kept gap text p :=
  fun _ => h.rel (recordAlike_nil kept) (by simp) fun _ _ _ _ hg => .some (answers_of_place hg)

theorem Corresponds.spans_iff (h : Corresponds kept gap text p) (a : Nat) :
    (∃ e, p.Spans text a e) ↔ ∃ e, p.Spans (bare text) (place text a) e := by
  have hsome := isSome_of_rel (h a)
  constructor
  · rintro ⟨e, he⟩
    rw [here?_isSome he] at hsome
    obtain ⟨m, hm⟩ := Option.isSome_iff_exists.mp hsome
    obtain ⟨-, j, -, hj⟩ := here?_eq_some hm
    exact ⟨j, hj⟩
  · rintro ⟨e, he⟩
    rw [here?_isSome he] at hsome
    obtain ⟨m, hm⟩ := Option.isSome_iff_exists.mp hsome.symm
    obtain ⟨-, j, -, hj⟩ := here?_eq_some hm
    exact ⟨j, hj⟩

theorem not_spans_of_throughout {text : List Char} {i j : Nat} (hempty : p.opening.mayBeEmpty = false)
    (hgap : ∀ x, gap x = true → p.opening.chars x = false) (h : Throughout text gap i j) :
    ∀ k e, i ≤ k → k < j → ¬ p.Spans text k e := by
  intro k e hik hkj hspans
  obtain ⟨-, hopens⟩ := hspans.begins.resolve_left fun hmay => by simp [hempty] at hmay
  exact (h k hik hkj).elim hopens hgap

/-- No match begins between places if none begins between those that answer to them. -/
theorem Corresponds.not_spans_place (h : Corresponds kept gap text p)
    (hnone : ∀ k e, a ≤ k → k < b → ¬ p.Spans text k e) :
    ∀ k e, place text a ≤ k → k < place text b → ¬ p.Spans (bare text) k e := by
  intro k e hak hkb hspans
  obtain ⟨i, x, hib, rfl, hx, hne⟩ := exists_place_eq hkb
  have hai : a ≤ i := by
    refine Nat.le_of_not_lt fun hia => ?_
    have hmono : place text (i + 1) ≤ place text a := place_mono hia
    rw [place_succ_of_ne hx hne] at hmono
    omega
  obtain ⟨e', he'⟩ := (h.spans_iff i).mpr ⟨e, hspans⟩
  exact hnone i e' hai hib he'

/-- Two searches find matches that answer to one another, one by one. -/
theorem Corresponds.forall₂_sweep (h : Corresponds kept gap text p) (hempty : p.opening.mayBeEmpty = false)
    (hgap : ∀ x, gap x = true → p.opening.chars x = false) (hms' : Sweep p text a ms')
    (hms : Sweep p (bare text) (place text a) ms) : List.Forall₂ (Answers kept gap text) ms ms' := by
  induction ms' generalizing a ms with
  | nil =>
    cases hms' with
    | done hnone =>
      have hnil : ms = [] := by
        refine hms.eq_nil fun k e hak hspans => ?_
        have hlt := hspans.lt_length hempty
        rw [← place_length] at hlt
        exact h.not_spans_place (fun k e hak _ => hnone k e hak) k e hak hlt hspans
      rw [hnil]
      exact .nil
  | cons m' later' ih =>
    cases hms' with
    | @next _ s e _ _ has hse hleft hfinds hlater' =>
      have hskipped := hms.skip (place_mono has) (h.not_spans_place hleft)
      have hrel := h s
      rw [hfinds.1] at hrel
      cases hhere : p.here? (on (bare text) (place text s)) with
      | none =>
        rw [hhere] at hrel
        cases hrel
      | some m =>
        rw [hhere] at hrel
        cases hrel with
        | some hanswers =>
          obtain ⟨j, e', f, hstop, hstop', hjf, hef, hgapj, hgape⟩ := hanswers.stop
          obtain rfl : e' = e := congrArg Cursor.pos (hstop'.symm.trans hfinds.2.2)
          obtain ⟨later, rfl, hlater⟩ := hskipped.take ⟨hhere, (here?_eq_some hhere).1, hstop⟩
          refine .cons hanswers (ih (a := f) ?_ ?_)
          · exact hlater'.skip hef (not_spans_of_throughout hempty hgap hgape)
          · exact hlater.skip hjf (not_spans_of_throughout hempty hgap hgapj)

theorem Corresponds.forall₂_all (h : Corresponds kept gap text p) (hempty : p.opening.mayBeEmpty = false)
    (hgap : ∀ x, gap x = true → p.opening.chars x = false) :
    List.Forall₂ (Answers kept gap text) (p.all (bare text)) (p.all text) :=
  h.forall₂_sweep hempty hgap (all_sweep hempty text) (all_sweep hempty (bare text))

theorem Corresponds.forall₂_all_of_no_gap (h : Corresponds kept (fun _ => false) text p)
    (hempty : p.opening.mayBeEmpty = false) :
    List.Forall₂ (Answers kept (fun _ => false) text) (p.all (bare text)) (p.all text) :=
  h.forall₂_all hempty fun _ hx => by cases hx

theorem count_bare_of_ignoresReturns (hr : ReturnsEndLines text) (hempty : p.opening.mayBeEmpty = false)
    (h : p.ignoresReturns [] false = true) : p.count (bare text) = p.count text := by
  have hcorresponds : Corresponds [] (fun _ => false) text p := corresponds_of_agrees (agrees_of_ignoresReturns hr h)
  exact (hcorresponds.forall₂_all_of_no_gap hempty).length_eq

end CodeCensus.Pattern
