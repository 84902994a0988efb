import CodeCensus.Declaration.Functions
import CodeCensus.Proofs.Pattern.LineEnds
import CodeCensus.Proofs.Pattern.Words

/-! How the heads of functions end where lines end with a carriage return. A head that says what a function results
in takes that text as short as it can, and a carriage return is text enough where a line feed is none. So the ends
of heads are told by other patterns that cover the same stretches and ask for no such text; some do so only for
heads that are not divided in a certain way by the end of a line. -/

namespace CodeCensus

namespace Pattern

open Text Cursor

variable {kept : List Nat} {gap : Char → Bool} {text : List Char} {p q : Pattern} {c d : Char → Bool}
  {a e i j m n : Nat} {new new' g g' : Groups}

theorem spans_lazy1 : (lazy1 c).Spans text i j ↔ i < j ∧ Throughout text c i j := spans_some1

/-- Before the end of a stretch that is not all of a class there is a first character that is not of it. -/
theorem exists_first_not (h : ¬ Throughout text c i j) :
    ∃ k, i ≤ k ∧ k < j ∧ Throughout text c i k ∧ ¬ HoldsAt text c k := by
  induction j with
  | zero => exact absurd (.empty (Nat.zero_le i)) h
  | succ j ih =>
    by_cases hall : Throughout text c i j
    · have hij : i ≤ j := Nat.le_of_not_lt fun hji => h (.empty hji)
      refine ⟨j, hij, Nat.lt_succ_self j, hall, fun hj => h (hall.trans ?_)⟩
      exact .cons hj (.empty (Nat.le_refl _))
    · obtain ⟨k, hik, hkj, hrest⟩ := ih hall
      exact ⟨k, hik, Nat.lt_succ_of_lt hkj, hrest⟩

/-- The first character of a class is at one place only. -/
theorem eq_of_first {k l : Nat} (hik : i ≤ k) (hk : HoldsAt text c k) (hbefore : Throughout text (fun x => !c x) i k)
    (hil : i ≤ l) (hl : HoldsAt text c l) (hbefore' : Throughout text (fun x => !c x) i l) : k = l := by
  have hnot {k l : Nat} (hik : i ≤ k) (hk : HoldsAt text c k) (hl : Throughout text (fun x => !c x) i l) : l ≤ k := by
    refine Nat.le_of_not_lt fun hkl => (hl k hik hkl).elim hk fun x hx => ?_
    simpa using hx
  exact Nat.le_antisymm (hnot hil hl hbefore) (hnot hik hk hbefore')

theorem EndsAt.unique (hp : p.EndsAt c) (h : p.Spans text i e) (h' : p.Spans text i j) : e = j := by
  obtain ⟨hie, he, hbefore⟩ := hp.holds h
  obtain ⟨hij, hj, hbefore'⟩ := hp.holds h'
  have heq := eq_of_first (Nat.le_sub_one_of_lt hie) he hbefore (Nat.le_sub_one_of_lt hij) hj hbefore'
  omega

theorem exists_first_of_word {front : List Pattern} {word : String} {x : Char} (hword : word.toList.head? = some x)
    (hfront : (inOrder front).spares x = true) (h : (inOrder (front ++ [Pattern.text word])).Spans text i e) :
    ∃ k, i ≤ k ∧ HoldsAt text (· == x) k ∧ Throughout text (fun y => !(y == x)) i k ∧ e = k + word.toList.length := by
  obtain ⟨k, hk, hspans⟩ := spans_inOrder_append.mp h
  have hhead : (text.drop k).head? = some x := by
    rw [drop_of_spans_text hspans, List.head?_append, hword, Option.some_or]
  rw [List.head?_drop] at hhead
  exact ⟨k, hk.le, ⟨x, hhead, beq_self_eq_true x⟩, (within_of_spares hfront).throughout hk, eq_add_of_spans_text hspans⟩

/-- A word is covered at one place only if nothing before it holds its first character. -/
theorem eq_of_first_word {front front' : List Pattern} {word : String} {x : Char} (hword : word.toList.head? = some x)
    (hfront : (inOrder front).spares x = true) (hfront' : (inOrder front').spares x = true)
    (h : (inOrder (front ++ [Pattern.text word])).Spans text i e)
    (h' : (inOrder (front' ++ [Pattern.text word])).Spans text i j) : e = j := by
  obtain ⟨k, hik, hk, hbefore, rfl⟩ := exists_first_of_word hword hfront h
  obtain ⟨l, hil, hl, hbefore', rfl⟩ := exists_first_of_word hword hfront' h'
  rw [eq_of_first hik hk hbefore hil hl hbefore']

theorem recordAlike_append (hg : RecordAlike kept g g') (hnew : ∀ entry ∈ new, entry.1 ∉ kept)
    (hnew' : ∀ entry ∈ new', entry.1 ∉ kept) : RecordAlike kept (new ++ g) (new' ++ g') := by
  have hnone {new : Groups} (h : ∀ entry ∈ new, entry.1 ∉ kept) {n : Nat} (hn : n ∈ kept) : new.lookup n = none := by
    rw [List.lookup_eq_none_iff]
    intro entry hentry
    rw [bne_iff_ne]
    exact fun heq => h entry hentry (heq ▸ hn)
  intro n hn
  rw [List.lookup_append, List.lookup_append, hnone hnew hn, hnone hnew' hn]
  exact hg n hn

theorem exists_arrival (h : ∃ e, p.Spans text i e) (start : Cursor) (g : Groups) :
    ∃ e new, Captures text p i e new ∧ p.matchAt (on text i) g (fun stop g => some (⟨⟨start, stop⟩, g⟩ : Match)) =
      some ⟨⟨start, on text e⟩, new ++ g⟩ := by
  obtain ⟨e, he⟩ := h
  have hsome := p.matchAt_complete (g := g) (k := fun stop g => some (⟨⟨start, stop⟩, g⟩ : Match)) he fun _ => rfl
  obtain ⟨m, hm⟩ := Option.isSome_iff_exists.mp hsome
  obtain ⟨e', new, hnew, harrival⟩ := p.matchAt_records hm
  exact ⟨e', new, hnew, hm.trans harrival.symm⟩

/-- A pattern that covers the same as one that agrees leads to matches that answer to one another, if there is only
one place where it can end and it records nothing that is kept. -/
theorem concludes_of_spans (hq : Agrees kept text false q) (h : ∀ e, p.Spans text a e ↔ q.Spans text a e)
    (hbare : ∀ j, p.Spans (bare text) (place text a) j ↔ q.Spans (bare text) (place text a) j)
    (hunique : ∀ j j', q.Spans (bare text) (place text a) j → q.Spans (bare text) (place text a) j' → j = j')
    (hkept : ∀ n ∈ kept, n ∉ p.groupNumbers) : Concludes kept gap text p a := by
  intro b g g' hg
  have hnew {text : List Char} {i j : Nat} {new : Groups} (hnew : Captures text p i j new) :
      ∀ entry ∈ new, entry.1 ∉ kept := fun entry hentry hmem =>
    hkept _ hmem (hnew.mem_groupNumbers entry hentry)
  dsimp only
  by_cases hspans : ∃ e, p.Spans text a e
  · obtain ⟨e, new', hcaptures', harrival'⟩ := exists_arrival hspans (on text b) g'
    have hplace := hq.spans_place ((h e).mp hcaptures'.spans)
    obtain ⟨j, new, hcaptures, harrival⟩ :=
      exists_arrival ⟨_, (hbare _).mpr hplace⟩ (on (bare text) (place text b)) g
    obtain rfl := hunique j _ ((hbare j).mp hcaptures.spans) hplace
    rw [harrival, harrival']
    exact .some (answers_of_place (recordAlike_append hg (hnew hcaptures) (hnew hcaptures')))
  · have hnone : ∀ j, ¬ p.Spans (bare text) (place text a) j := by
      intro j hj
      obtain ⟨e, -, he⟩ := hq.exists_spans ((hbare j).mp hj)
      exact hspans ⟨e, (h e).mpr he⟩
    rw [matchAt_eq_none hnone, matchAt_eq_none fun e he => hspans ⟨e, he⟩]
    exact .none

theorem beyond_of_isBlank_of_ne {marks : List Char} {mark : Char} (hmarks : (marks.erase mark).any isBlank = false)
    {x : Char} (hx : isBlank x = true) (hne : x ≠ mark) : beyond marks x = true := by
  rw [beyond, Bool.not_eq_true', ← Bool.not_eq_true, List.contains_iff_mem]
  intro hmem
  exact List.any_eq_false.mp hmarks x ((List.mem_erase_of_ne hne).mpr hmem) hx

theorem beyond_of_isBlank {marks : List Char} (hmarks : marks.any isBlank = false) {x : Char}
    (hx : isBlank x = true) : beyond marks x = true := by
  rw [beyond, Bool.not_eq_true', ← Bool.not_eq_true, List.contains_iff_mem]
  intro hmem
  exact List.any_eq_false.mp hmarks x hmem hx

/-- The characters of one class that are not of another. -/
def without (c d : Char → Bool) : Char → Bool := fun x => c x && !d x

theorem without_iff {x : Char} : without c d x = true ↔ c x = true ∧ d x = false := by
  rw [without, Bool.and_eq_true, Bool.not_eq_true']

theorem HoldsAt.of_without (h : HoldsAt text (without c d) i) : HoldsAt text c i :=
  h.imp fun _ hx => (without_iff.mp hx).1

theorem Throughout.imp (h : Throughout text c i j) (hcd : ∀ x, c x = true → d x = true) : Throughout text d i j :=
  fun k hik hkj => (h k hik hkj).imp hcd

end Pattern

namespace Functions

open Text Pattern Cursor

variable {text : List Char} {a i j : Nat}

/-! ## A result up to a colon -/

def pythonFront : List Pattern :=
  [lineStart, keep 1 [spaces], optional ["async", spaces1], "def", blanks1, keep 2 [name], blanks, parameterList 3]

def pythonEnd : List Pattern := [optional [blanks, "->", blanks, keep 4 [lazy1 (beyond [':'])]], blanks, ":"]

/-- What follows the arrow, up to the colon, is at least one character. -/
def pythonEnd' : Pattern := .alt (inOrder [blanks, "->", some1 (beyond [':']), ":"]) (inOrder [blanks, ":"])

theorem spans_pythonEnd : (inOrder pythonEnd).Spans text i j ↔ pythonEnd'.Spans text i j := by
  have hblank : ∀ x, isBlank x = true → beyond [':'] x = true := fun x => beyond_of_isBlank (by decide)
  constructor
  · rintro ⟨b, hresult | hnone, c, hblanks, hcolon⟩
    · obtain ⟨d, hfirst, e, harrow, f, hsecond, hlazy⟩ := hresult
      obtain ⟨hfb, hall⟩ := spans_lazy1.mp hlazy
      refine .inl ⟨d, hfirst, e, harrow, c, spans_some1.mpr ⟨?_, ?_⟩, hcolon⟩
      · exact Nat.lt_of_le_of_lt hsecond.1 (Nat.lt_of_lt_of_le hfb hblanks.1)
      · exact ((Throughout.imp hsecond.2 hblank).trans hall).trans (Throughout.imp hblanks.2 hblank)
    · obtain rfl : b = i := hnone
      exact .inr ⟨c, hblanks, hcolon⟩
  · rintro (⟨d, hfirst, e, harrow, c, hresult, hcolon⟩ | ⟨c, hblanks, hcolon⟩)
    · have hnone (k : Nat) : blanks.Spans text k k := ⟨Nat.le_refl k, .empty (Nat.le_refl k)⟩
      exact ⟨c, .inl ⟨d, hfirst, e, harrow, e, hnone e, hresult⟩, c, hnone c, hcolon⟩
    · exact ⟨i, .inr rfl, c, hblanks, hcolon⟩

theorem corresponds_pythonHead (hr : ReturnsEndLines text) : Corresponds [1, 2] (fun _ => false) text pythonHead := by
  have hfront : (inOrder pythonFront).ignoresReturns [1, 2] false = true := by decide
  have hend : pythonEnd'.ignoresReturns [1, 2] false = true := by decide
  have hcolon : pythonEnd'.EndsAt (· == ':') :=
    ⟨⟨within_of_spares (by decide), within_of_spares (by decide), within_of_spares (by decide), fun _ hx => hx⟩,
      within_of_spares (by decide), fun _ hx => hx⟩
  refine corresponds_inOrder (agrees_of_ignoresReturns hr hfront) fun i a _ => ?_
  exact concludes_of_spans (agrees_of_ignoresReturns hr hend) (fun _ => spans_pythonEnd) (fun _ => spans_pythonEnd)
    (fun _ _ => hcolon.unique) (by decide)

/-! ## A result up to a brace -/

def rustFront : List Pattern :=
  [wordEdge, "fn", blanks1, keep 1 [name], blanks, typeParameters, blanks, parameterList 2, blanks]

def rustEnd : List Pattern :=
  [optional ["->", blanks, keep 3 [lazy1 (beyond ['{', ';'])]], blanks,
    optional ["where", .one isBlank, .run (beyond ['{', ';'])], "\x7b"]

/-- What follows the arrow, conditions included, is at least one character. -/
def rustEnd' : Pattern :=
  .alt (inOrder ["->", some1 (beyond ['{', ';']), "\x7b"])
    (inOrder [blanks, optional ["where", .one isBlank, .run (beyond ['{', ';'])], "\x7b"])

theorem spans_rustEnd : (inOrder rustEnd).Spans text i j ↔ rustEnd'.Spans text i j := by
  have hblank : ∀ x, isBlank x = true → beyond ['{', ';'] x = true := fun x => beyond_of_isBlank (by decide)
  have hconditions : (optional ["where", .one isBlank, .run (beyond ['{', ';'])]).Within (beyond ['{', ';']) :=
    ⟨⟨within_text (by decide), hblank, fun _ hx => hx⟩, trivial⟩
  constructor
  · rintro ⟨b, hresult | hnone, c, hblanks, d, hwhere, hbrace⟩
    · obtain ⟨e, harrow, f, hsecond, hlazy⟩ := hresult
      obtain ⟨hfb, hall⟩ := spans_lazy1.mp hlazy
      have hcd := hwhere.le
      refine .inl ⟨e, harrow, d, spans_some1.mpr ⟨?_, ?_⟩, hbrace⟩
      · exact Nat.lt_of_le_of_lt hsecond.1 (Nat.lt_of_lt_of_le hfb (hblanks.1.trans hcd))
      · exact ((Throughout.imp hsecond.2 hblank).trans hall).trans
          ((Throughout.imp hblanks.2 hblank).trans (hconditions.throughout hwhere))
    · obtain rfl : b = i := hnone
      exact .inr ⟨c, hblanks, d, hwhere, hbrace⟩
  · rintro (⟨e, harrow, d, hresult, hbrace⟩ | ⟨c, hblanks, d, hwhere, hbrace⟩)
    · have hnone (k : Nat) : blanks.Spans text k k := ⟨Nat.le_refl k, .empty (Nat.le_refl k)⟩
      exact ⟨d, .inl ⟨e, harrow, e, hnone e, hresult⟩, d, hnone d, d, .inr rfl, hbrace⟩
    · exact ⟨i, .inr rfl, c, hblanks, d, hwhere, hbrace⟩

theorem corresponds_rustHead (hr : ReturnsEndLines text) : Corresponds [1] (fun _ => false) text rustHead := by
  have hfront : (inOrder rustFront).ignoresReturns [1] false = true := by decide
  have hend : rustEnd'.ignoresReturns [1] false = true := by decide
  have hbrace : rustEnd'.EndsAt (· == '{') :=
    ⟨⟨within_of_spares (by decide), within_of_spares (by decide), fun _ hx => hx⟩,
      within_of_spares (by decide), within_of_spares (by decide), fun _ hx => hx⟩
  refine corresponds_inOrder (agrees_of_ignoresReturns hr hfront) fun i a _ => ?_
  exact concludes_of_spans (agrees_of_ignoresReturns hr hend) (fun _ => spans_rustEnd) (fun _ => spans_rustEnd)
    (fun _ _ => hbrace.unique) (by decide)

/-! ## Exceptions up to a brace -/

def typedFront (modifiers : List String) : List Pattern :=
  [lineStart, spaces, manyOf ["@", some1 isWord, optional ["(", .run (beyond [')']), ")"], blanks1],
    manyOf [oneWord modifiers, blanks1],
    keep 1 [some1 (either isWord (among ['<', '>', '[', ']', ',', '.', '?']))], blanks1, keep 2 [name], blanks,
    parameterList 3, blanks]

def exceptionChar (c : Char) : Bool := isWord c || isBlank c || c == '.' || c == ','

def typedEnd : List Pattern := [optional ["throws", blanks1, lazy1 exceptionChar], blanks, "\x7b"]

/-- The word that announces exceptions, with no more than a line feed before the brace. -/
def nothingThrown : List Pattern := ["throws", .one (· == '\n'), "\x7b"]

/-- Exceptions are named, or else there are at least two blanks: of these the first may be a line feed if what follows
it is not the brace. -/
def typedEnd' : Pattern :=
  .alt
    (.alt (inOrder ["throws", blanks1, .one (without exceptionChar isBlank), .run exceptionChar, "\x7b"])
      (.alt (inOrder ["throws", .one (without isBlank (among ['\r', '\n'])), blanks1, "\x7b"])
        (inOrder ["throws", .seq (.one (among ['\r', '\n'])) blanks, "\x7b"])))
    (inOrder [blanks, "\x7b"])

theorem exceptionChar_of_isBlank {x : Char} (hx : isBlank x = true) : exceptionChar x = true := by
  rw [exceptionChar, hx]
  simp

/-- The text after the word begins with a blank and is at least two characters long. -/
theorem spans_typedEnd : (inOrder typedEnd).Spans text i j ↔
    (∃ a b, (Pattern.text "throws").Spans text i a ∧ HoldsAt text isBlank a ∧ a + 2 ≤ b ∧
      Throughout text exceptionChar a b ∧ (Pattern.text "\x7b").Spans text b j) ∨
    (inOrder [blanks, "\x7b"]).Spans text i j := by
  constructor
  · rintro ⟨b, hclause | hnone, c, hblanks, hbrace⟩
    · obtain ⟨a, hthrows, d, hfirst, hlazy⟩ := hclause
      obtain ⟨had, hfirst⟩ := spans_some1.mp hfirst
      obtain ⟨hdb, hall⟩ := spans_lazy1.mp hlazy
      have hbc : b ≤ c := hblanks.1
      refine .inl ⟨a, c, hthrows, hfirst.holds had, by omega, ?_, hbrace⟩
      exact ((Throughout.imp hfirst fun _ => exceptionChar_of_isBlank).trans hall).trans
        (Throughout.imp hblanks.2 fun _ => exceptionChar_of_isBlank)
    · obtain rfl : b = i := hnone
      exact .inr ⟨c, hblanks, hbrace⟩
  · rintro (⟨a, b, hthrows, hblank, hab, hall, hbrace⟩ | ⟨c, hblanks, hbrace⟩)
    · have hfirst : blanks1.Spans text a (a + 1) :=
        spans_some1.mpr ⟨Nat.lt_succ_self a, .cons hblank (.empty (Nat.le_refl _))⟩
      have hlazy : (lazy1 exceptionChar).Spans text (a + 1) b :=
        spans_lazy1.mpr ⟨hab, hall.mono (Nat.le_succ a) (Nat.le_refl b)⟩
      exact ⟨b, .inl ⟨a, hthrows, a + 1, hfirst, hlazy⟩, b, ⟨Nat.le_refl b, .empty (Nat.le_refl b)⟩, hbrace⟩
    · exact ⟨i, .inr rfl, c, hblanks, hbrace⟩

theorem spans_typedEnd' (hr : ReturnsEndLines text) (hnone : ∀ j, ¬ (inOrder nothingThrown).Spans text i j) :
    (inOrder typedEnd).Spans text i j ↔ typedEnd'.Spans text i j := by
  rw [spans_typedEnd]
  refine or_congr_left ⟨?_, ?_⟩
  · rintro ⟨a, b, hthrows, hblank, hab, hall, hbrace⟩
    by_cases hblanks : Throughout text isBlank a b
    · obtain ⟨x, hx, hxblank⟩ := hblank
      cases hfeed : among ['\r', '\n'] x with
      | true =>
        refine .inr (.inr ⟨a, hthrows, b, ⟨a + 1, ⟨⟨x, hx, hfeed⟩, rfl⟩, by omega, ?_⟩, hbrace⟩)
        exact hblanks.mono (Nat.le_succ a) (Nat.le_refl b)
      | false =>
        refine .inr (.inl ⟨a, hthrows, a + 1, ⟨⟨x, hx, without_iff.mpr ⟨hxblank, hfeed⟩⟩, rfl⟩, b, ?_, hbrace⟩)
        exact spans_some1.mpr ⟨hab, hblanks.mono (Nat.le_succ a) (Nat.le_refl b)⟩
    · obtain ⟨k, hak, hkb, hbefore, hk⟩ := exists_first_not hblanks
      obtain ⟨x, hx, hxchar⟩ := hall k hak hkb
      have hne : a ≠ k := by
        rintro rfl
        exact hk hblank
      have hxblank : isBlank x = false := Bool.eq_false_iff.mpr fun hxblank => hk ⟨x, hx, hxblank⟩
      have hrest : (Pattern.run exceptionChar).Spans text (k + 1) b := ⟨hkb, hall.mono (by omega) (Nat.le_refl b)⟩
      exact .inl ⟨a, hthrows, k, spans_some1.mpr ⟨by omega, hbefore⟩, k + 1,
        ⟨⟨x, hx, without_iff.mpr ⟨hxchar, hxblank⟩⟩, rfl⟩, b, hrest, hbrace⟩
  · rintro (⟨a, hthrows, k, hfirst, _, ⟨hnamed, rfl⟩, b, ⟨hkb, hrest⟩, hbrace⟩ |
      ⟨a, hthrows, _, ⟨hfirst, rfl⟩, b, hblanks, hbrace⟩ |
      ⟨a, hthrows, b, ⟨_, ⟨hfirst, rfl⟩, hab, hblanks⟩, hbrace⟩)
    · obtain ⟨hak, hbefore⟩ := spans_some1.mp hfirst
      refine ⟨a, b, hthrows, hbefore.holds hak, by omega, ?_, hbrace⟩
      exact (Throughout.imp hbefore fun _ => exceptionChar_of_isBlank).trans (.cons (HoldsAt.of_without hnamed) hrest)
    · obtain ⟨hab, hrest⟩ := spans_some1.mp hblanks
      have hfirst : HoldsAt text isBlank a := HoldsAt.of_without hfirst
      exact ⟨a, b, hthrows, hfirst, hab,
        Throughout.imp (.cons hfirst hrest) fun _ => exceptionChar_of_isBlank, hbrace⟩
    · have hblank : HoldsAt text isBlank a := hfirst.imp fun x hx => by
        rcases List.mem_cons.mp (List.contains_iff_mem.mp hx) with rfl | hx
        · decide
        · obtain rfl := List.mem_singleton.mp hx
          decide
      refine ⟨a, b, hthrows, hblank, ?_, Throughout.imp (.cons hblank hblanks) fun _ => exceptionChar_of_isBlank, hbrace⟩
      -- the brace comes neither right after a carriage return nor right after the line feed
      refine Nat.lt_of_le_of_ne hab fun heq => ?_
      subst heq
      have hmark : HoldsAt text (· == '{') (a + 1) ∧ j = a + 1 + 1 := hbrace
      obtain ⟨y, hy, hbracey⟩ := hmark.1
      obtain rfl : y = '{' := beq_iff_eq.mp hbracey
      obtain ⟨x, hx, hfeed⟩ := hfirst
      rcases List.mem_cons.mp (List.contains_iff_mem.mp hfeed) with rfl | hfeed
      · exact absurd (hr.next hx hy) (by decide)
      · obtain rfl := List.mem_singleton.mp hfeed
        exact hnone j ⟨a, hthrows, a + 1, ⟨⟨'\n', hx, rfl⟩, rfl⟩, hbrace⟩

theorem returnsEndLines_bare (text : List Char) : ReturnsEndLines (bare text) :=
  returnsEndLines_of_not_mem fun hmem => (mem_bare.mp hmem).2 rfl

/-- A head of a function that throws nothing, though it says so. -/
def throwsNothing (modifiers : List String) : Pattern :=
  inOrder (typedFront modifiers ++ nothingThrown)

theorem nothingThrown_spans_place (hr : ReturnsEndLines text) (h : (inOrder nothingThrown).Spans text i j) :
    (inOrder nothingThrown).Spans (bare text) (place text i) (place text j) := by
  obtain ⟨a, hthrows, _, ⟨⟨x, hx, hfeed⟩, rfl⟩, hbrace⟩ := h
  obtain rfl : x = '\n' := beq_iff_eq.mp hfeed
  have hword : Agrees [] text false (Pattern.text "throws") := agrees_of_ignoresReturns hr (by decide)
  have hmark : Agrees [] text false (Pattern.text "\x7b") := agrees_of_ignoresReturns hr (by decide)
  refine ⟨_, hword.spans_place hthrows, _, ⟨⟨'\n', getElem?_place_of_ne hx (by decide), rfl⟩, rfl⟩, ?_⟩
  rw [← place_succ_of_ne hx (by decide)]
  exact hmark.spans_place hbrace

theorem corresponds_typedMethod {modifiers : List String} (hr : ReturnsEndLines text)
    (hfront : (inOrder (typedFront modifiers)).ignoresReturns [1, 2] false = true)
    (hnone : ∀ i j, ¬ (throwsNothing modifiers).Spans (bare text) i j) :
    Corresponds [1, 2] (fun _ => false) text (typedMethod modifiers) := by
  have hend : typedEnd'.ignoresReturns [1, 2] false = true := by decide
  have hbrace : typedEnd'.EndsAt (· == '{') := by
    refine ⟨⟨?_, ?_, ?_⟩, within_of_spares (by decide), fun _ hx => hx⟩
    · exact ⟨within_of_spares (by decide), within_of_spares (by decide), within_of_spares (by decide),
        within_of_spares (by decide), fun _ hx => hx⟩
    · exact ⟨within_of_spares (by decide), within_of_spares (by decide), within_of_spares (by decide), fun _ hx => hx⟩
    · exact ⟨within_of_spares (by decide), within_of_spares (by decide), fun _ hx => hx⟩
  have hagrees : Agrees [1, 2] text false (inOrder (typedFront modifiers)) := agrees_of_ignoresReturns hr hfront
  refine corresponds_inOrder hagrees fun i a ha => ?_
  have hbare (j : Nat) : ¬ (inOrder nothingThrown).Spans (bare text) (place text a) j := fun hj =>
    hnone _ j (spans_inOrder_append.mpr ⟨_, hagrees.spans_place ha, hj⟩)
  exact concludes_of_spans (agrees_of_ignoresReturns hr hend)
    (fun _ => spans_typedEnd' hr fun j hj => hbare _ (nothingThrown_spans_place hr hj))
    (fun _ => spans_typedEnd' (returnsEndLines_bare text) hbare) (fun _ _ => hbrace.unique) (by decide)

/-! ## A result up to a mark -/

section results

variable {n : Nat} {c : Char → Bool} {mark : String}

def resultEnd (n : Nat) (c : Char → Bool) (mark : String) : List Pattern :=
  [optional [":", blanks, keep n [lazy1 c]], blanks, mark]

/-- Before the mark, or before the blanks that precede it, stands at least one character that ends no line. -/
def resultEnd' (c : Char → Bool) (mark : String) : Pattern :=
  .alt (inOrder [":", blanks, .one (without c (· == '\r')), .run c, blanks, mark]) (inOrder [blanks, mark])

/-- A colon with nothing but the ends of lines before the mark. -/
def nothingResults (mark : String) : List Pattern := [":", some1 (among ['\r', '\n']), mark]

theorem spans_resultEnd' (hc : ∀ x, isBlank x = true → x ≠ '\n' → c x = true)
    (hnone : ∀ j, ¬ (inOrder (nothingResults mark)).Spans text i j) :
    (inOrder (resultEnd n c mark)).Spans text i j ↔ (resultEnd' c mark).Spans text i j := by
  have hreturns : ∀ x, (x == '\r') = true → isBlank x = true := fun x hx => by
    rw [beq_iff_eq.mp hx]
    decide
  constructor
  · rintro ⟨b, ⟨a, hcolon, d, hblanks, hlazy⟩ | hempty, e, hblanks', hmark⟩
    · obtain ⟨hdb, hresult⟩ := spans_lazy1.mp hlazy
      have had : a ≤ d := hblanks.1
      have hbe : b ≤ e := hblanks'.1
      refine .inl ⟨a, hcolon, ?_⟩
      by_cases hall : Throughout text (· == '\r') d b
      -- with no more than a carriage return for a result, all up to the mark is blank
      · have hblank : Throughout text isBlank a e :=
          (Throughout.trans hblanks.2 (Throughout.imp hall hreturns)).trans hblanks'.2
        by_cases hends : Throughout text (among ['\r', '\n']) a e
        · exact absurd ⟨a, hcolon, e, spans_some1.mpr ⟨by omega, hends⟩, hmark⟩ (hnone j)
        · obtain ⟨k, hak, hke, -, hk⟩ := exists_first_not hends
          obtain ⟨x, hx, hxblank⟩ := hblank k hak hke
          have hfeed : x ≠ '\n' := by
            rintro rfl
            exact hk ⟨'\n', hx, rfl⟩
          have hreturn : x ≠ '\r' := by
            rintro rfl
            exact hk ⟨'\r', hx, rfl⟩
          exact ⟨k, ⟨hak, hblank.mono (Nat.le_refl a) (Nat.le_of_lt hke)⟩, k + 1,
            ⟨⟨x, hx, without_iff.mpr ⟨hc x hxblank hfeed, beq_eq_false_iff_ne.mpr hreturn⟩⟩, rfl⟩, k + 1,
            ⟨Nat.le_refl _, .empty (Nat.le_refl _)⟩, e, ⟨hke, hblank.mono (by omega) (Nat.le_refl e)⟩, hmark⟩
      · obtain ⟨k, hdk, hkb, hbefore, hk⟩ := exists_first_not hall
        obtain ⟨x, hx, hcx⟩ := hresult k hdk hkb
        have hreturn : (x == '\r') = false := Bool.eq_false_iff.mpr fun heq => hk ⟨x, hx, heq⟩
        exact ⟨k, ⟨had.trans hdk, Throughout.trans hblanks.2 (Throughout.imp hbefore hreturns)⟩, k + 1,
          ⟨⟨x, hx, without_iff.mpr ⟨hcx, hreturn⟩⟩, rfl⟩, b, ⟨hkb, hresult.mono (by omega) (Nat.le_refl b)⟩, e,
          hblanks', hmark⟩
    · obtain rfl : b = i := hempty
      exact .inr ⟨e, hblanks', hmark⟩
  · rintro (⟨a, hcolon, k, hblanks, _, ⟨hfirst, rfl⟩, b, ⟨hkb, hrest⟩, e, hblanks', hmark⟩ | ⟨e, hblanks, hmark⟩)
    · have hlazy : (lazy1 c).Spans text k b := spans_lazy1.mpr ⟨hkb, .cons (HoldsAt.of_without hfirst) hrest⟩
      exact ⟨b, .inl ⟨a, hcolon, k, hblanks, hlazy⟩, e, hblanks', hmark⟩
    · exact ⟨i, .inr rfl, e, hblanks, hmark⟩

/-- Ends of heads with a result lead to the same, unless a head has a colon and nothing but ends of lines after it. -/
theorem concludes_resultEnd (hr : ReturnsEndLines text) {x : Char} (hmark : mark.toList.head? = some x)
    (hspares : (inOrder [":", blanks, .one (without c (· == '\r')), .run c, blanks]).spares x = true)
    (hend : (resultEnd' c mark).ignoresReturns [1] false = true)
    (hends : (inOrder (nothingResults mark)).ignoresReturns [1] false = true)
    (hc : ∀ x, isBlank x = true → x ≠ '\n' → c x = true) (hkept : ∀ n' ∈ [1], n' ∉ (inOrder (resultEnd n c mark)).groupNumbers)
    (hnone : ∀ j, ¬ (inOrder (nothingResults mark)).Spans (bare text) (place text a) j) :
    Concludes [1] (fun _ => false) text (inOrder (resultEnd n c mark)) a := by
  have hblanks : (inOrder [blanks]).spares x = true := by
    have hparts := hspares
    simp only [inOrder, spares, Bool.and_eq_true] at hparts
    exact hparts.2.1
  have hagrees := agrees_of_ignoresReturns hr hends
  refine concludes_of_spans (agrees_of_ignoresReturns hr hend)
    (fun _ => spans_resultEnd' hc fun j hj => hnone _ (hagrees.spans_place hj)) (fun _ => spans_resultEnd' hc hnone) ?_
    hkept
  rintro j j' (h | h) (h' | h')
  · exact eq_of_first_word hmark hspares hspares h h'
  · exact eq_of_first_word hmark hspares hblanks h h'
  · exact eq_of_first_word hmark hblanks hspares h h'
  · exact eq_of_first_word hmark hblanks hblanks h h'

end results

def methodFront : List Pattern := [optional ["async", blanks1], keep 1 [dollarName], blanks, parameterList 2, blanks]

def arrowFront : List Pattern :=
  [wordEdge, oneWord ["const", "let", "var"], blanks1, keep 1 [dollarName], blanks,
    optional [":", some1 (beyond ['=', '\n'])], "=", blanks, optional ["async", blanks1],
    .alt (parameterList 2) (keep 3 [dollarName]), blanks]

/-- Heads with a colon for a result, and no result. -/
def methodWithoutResult : Pattern := inOrder (methodFront ++ nothingResults "\x7b")

def arrowWithoutResult : Pattern := inOrder (arrowFront ++ nothingResults "=>")

theorem corresponds_scriptMethod (hr : ReturnsEndLines text)
    (hnone : ∀ i j, ¬ methodWithoutResult.Spans (bare text) i j) :
    Corresponds [1] (fun _ => false) text scriptMethod := by
  have hfront : (inOrder methodFront).ignoresReturns [1] false = true := by decide
  have hagrees := agrees_of_ignoresReturns hr hfront
  have hc (x : Char) (hx : isBlank x = true) (hfeed : x ≠ '\n') : beyond ['{', ';', '\n', '(', ')'] x = true :=
    beyond_of_isBlank_of_ne (by decide) hx hfeed
  refine corresponds_inOrder hagrees fun i a ha => ?_
  refine concludes_resultEnd (x := '{') hr rfl (by decide) (by decide) (by decide) hc (by decide) fun j hj => ?_
  exact hnone _ j (spans_inOrder_append.mpr ⟨_, hagrees.spans_place ha, hj⟩)

theorem corresponds_scriptArrow (hr : ReturnsEndLines text)
    (hnone : ∀ i j, ¬ arrowWithoutResult.Spans (bare text) i j) :
    Corresponds [1] (fun _ => false) text scriptArrow := by
  have hfront : (inOrder arrowFront).ignoresReturns [1] false = true := by decide
  have hagrees := agrees_of_ignoresReturns hr hfront
  have hc (x : Char) (hx : isBlank x = true) (hfeed : x ≠ '\n') : beyond ['=', '\n'] x = true :=
    beyond_of_isBlank_of_ne (by decide) hx hfeed
  refine corresponds_inOrder hagrees fun i a ha => ?_
  refine concludes_resultEnd (x := '=') hr rfl (by decide) (by decide) (by decide) hc (by decide) fun j hj => ?_
  exact hnone _ j (spans_inOrder_append.mpr ⟨_, hagrees.spans_place ha, hj⟩)

/-! ## A result that ends the head -/

def functionFront : List Pattern :=
  [wordEdge, "function", blanks, opt "*", blanks, keep 1 [dollarName], blanks, typeParameters, blanks, parameterList 2]

def resultChar : Char → Bool := beyond ['{', ';', '\n']

def functionEnd : Pattern := optional [blanks, ":", blanks, keep 3 [some1 resultChar]]

/-- A result that begins with a character that is no blank. -/
def settledResult : Pattern := inOrder [blanks, ":", blanks, .one (without resultChar isBlank)]

/-- What a head is followed by where its result is not settled. -/
def gapChar (c : Char) : Bool := isBlank c || c == ':'

theorem takes_functionEnd {m e : Nat} (h : settledResult.Spans text i m) (hme : m ≤ e)
    (hall : Throughout text resultChar m e) (hend : ¬ HoldsAt text resultChar e) :
    ∃ s, Takes text functionEnd i e [(3, s)] := by
  obtain ⟨b, ⟨hib, hblanks⟩, d, hcolon, k, ⟨hdk, hblanks'⟩, hfirst, rfl⟩ := h
  obtain ⟨hcolon, rfl⟩ : HoldsAt text (· == ':') b ∧ d = b + 1 := hcolon
  have hfirst' : HoldsAt text resultChar k := HoldsAt.of_without hfirst
  have hb : ¬ HoldsAt text isBlank b := fun hb => hb.elim hcolon fun x hx => by
    rw [beq_eq_false_iff_ne]
    rintro rfl
    exact absurd hx (by decide)
  have hk : ¬ HoldsAt text isBlank k := fun hk => hk.elim hfirst fun x hx => by
    rw [without, hx, Bool.not_true, Bool.and_false]
  have hblank : Takes text blanks i b [] := takes_run_of_throughout hib hblanks hb
  have hmark : Takes text (Pattern.text ":") b (b + 1) [] := takes_one_of_holds hcolon
  have hblank' : Takes text blanks (b + 1) k [] := takes_run_of_throughout hdk hblanks' hk
  have hone : Takes text (.one resultChar) k (k + 1) [] := takes_one_of_holds hfirst'
  have hresult : Takes text (some1 resultChar) k e [] := hone.seq (takes_run_of_throughout hme hall hend)
  exact ⟨_, (hblank.seq (hmark.seq (hblank'.seq hresult.group))).left⟩

/-- A result that is not settled covers nothing but blanks and the colon. -/
theorem throughout_functionEnd {e : Nat} (h : functionEnd.Spans text i e)
    (hnone : ∀ m, ¬ settledResult.Spans text i m) : i ≤ e ∧ Throughout text gapChar i e := by
  have hblank (x : Char) (hx : isBlank x = true) : gapChar x = true := by rw [gapChar, hx, Bool.true_or]
  rcases h with ⟨b, ⟨hib, hblanks⟩, d, hcolon, k, ⟨hdk, hblanks'⟩, hresult⟩ | hempty
  · have hcolons : HoldsAt text (· == ':') b ∧ d = b + 1 := hcolon
    obtain ⟨hmark, rfl⟩ := hcolons
    have hmark : HoldsAt text gapChar b := hmark.imp fun x hx => by rw [gapChar, hx, Bool.or_true]
    obtain ⟨hke, hall⟩ := spans_some1.mp hresult
    refine ⟨by omega, ?_⟩
    have hrest : Throughout text isBlank k e := by
      by_contra hnot
      obtain ⟨l, hkl, hle, hbefore, hl⟩ := exists_first_not hnot
      obtain ⟨x, hx, hxresult⟩ := hall l hkl hle
      have hxblank : isBlank x = false := Bool.eq_false_iff.mpr fun hxblank => hl ⟨x, hx, hxblank⟩
      exact hnone (l + 1) ⟨b, ⟨hib, hblanks⟩, b + 1, hcolon, l, ⟨hdk.trans hkl, Throughout.trans hblanks' hbefore⟩,
        ⟨x, hx, without_iff.mpr ⟨hxresult, hxblank⟩⟩, rfl⟩
    exact (Throughout.imp hblanks hblank).trans
      (.cons hmark ((Throughout.imp hblanks' hblank).trans (Throughout.imp hrest hblank)))
  · obtain rfl : e = i := hempty
    exact ⟨Nat.le_refl e, .empty (Nat.le_refl e)⟩

/-- A run that has begun ends somewhere. -/
theorem exists_run_end (text : List Char) (c : Char → Bool) (m : Nat) :
    ∃ e, m ≤ e ∧ Throughout text c m e ∧ ¬ HoldsAt text c e := by
  have hnot : ¬ Throughout text c m (max m text.length + 1) := by
    intro hall
    have hlt := (hall (max m text.length) (Nat.le_max_left _ _) (Nat.lt_succ_self _)).lt
    omega
  obtain ⟨e, hme, -, hrest⟩ := exists_first_not hnot
  exact ⟨e, hme, hrest⟩

theorem concludes_functionEnd (hr : ReturnsEndLines text) (a : Nat) : Concludes [1] gapChar text functionEnd a := by
  intro b g g' hg
  have hsettled : Agrees [1] text false settledResult := agrees_of_ignoresReturns hr (by decide)
  have hresult : Agrees [1] text false (.run resultChar) := agrees_of_ignoresReturns hr (by decide)
  have hgap : Agrees [1] text false (.run gapChar) := agrees_of_ignoresReturns hr (by decide)
  dsimp only
  by_cases hspans : ∃ m, settledResult.Spans text a m
  · obtain ⟨m, hm⟩ := hspans
    obtain ⟨e, hme, hall, hend⟩ := exists_run_end text resultChar m
    have hplace : (Pattern.run resultChar).Spans (bare text) (place text m) (place text e) :=
      hresult.spans_place ⟨hme, hall⟩
    have hend' : ¬ HoldsAt (bare text) resultChar (place text e) := fun h =>
      hend (hr.holdsAt_of_place (fun hfeed => absurd hfeed (by decide)) h)
    obtain ⟨s', htakes'⟩ := takes_functionEnd hm hme hall hend
    obtain ⟨s, htakes⟩ := takes_functionEnd (hsettled.spans_place hm) hplace.1 hplace.2 hend'
    rw [htakes Match g _ _ rfl, htakes' Match g' _ _ rfl]
    refine .some (answers_of_place (recordAlike_append hg ?_ ?_))
    · exact List.forall_mem_singleton.mpr (show 3 ∉ [1] by decide)
    · exact List.forall_mem_singleton.mpr (show 3 ∉ [1] by decide)
  · have hnone : ∀ m, ¬ settledResult.Spans text a m := fun m hm => hspans ⟨m, hm⟩
    have hnone' : ∀ m, ¬ settledResult.Spans (bare text) (place text a) m := by
      intro m hm
      obtain ⟨e, -, he⟩ := hsettled.exists_spans hm
      exact hnone e he
    have hempty {text : List Char} (i : Nat) : ∃ e, functionEnd.Spans text i e := ⟨i, Or.inr rfl⟩
    obtain ⟨e, new', hcaptures', harrival'⟩ := exists_arrival (hempty a) (on text b) g'
    obtain ⟨j, new, hcaptures, harrival⟩ := exists_arrival (hempty (place text a)) (on (bare text) (place text b)) g
    obtain ⟨hae, hall⟩ := throughout_functionEnd hcaptures'.spans hnone
    obtain ⟨haj, hall'⟩ := throughout_functionEnd hcaptures.spans hnone'
    have hnew {text : List Char} {i j : Nat} {new : Groups} (hnew : Captures text functionEnd i j new) :
        ∀ entry ∈ new, entry.1 ∉ [1] := fun entry hentry hmem =>
      absurd (hnew.mem_groupNumbers entry hentry) (List.mem_singleton.mp hmem ▸ by decide)
    rw [harrival, harrival']
    refine .some ⟨⟨b, rfl, rfl⟩, ?_, recordAlike_append hg (hnew hcaptures) (hnew hcaptures')⟩
    -- the match that stops earlier is followed by no more than what the other covers as well
    rcases Nat.le_total j (place text e) with hle | hle
    · have hplace : (Pattern.run gapChar).Spans (bare text) (place text a) (place text e) :=
        hgap.spans_place ⟨hae, hall⟩
      exact ⟨j, e, e, rfl, rfl, hle, Nat.le_refl e, hplace.2.mono haj (Nat.le_refl _), .empty (Nat.le_refl e)⟩
    · have hrun : (Pattern.run gapChar).Spans (bare text) (place text a) j := ⟨haj, hall'⟩
      obtain ⟨f, rfl, haf, hall''⟩ := hgap.exists_spans hrun
      rcases Nat.le_total e f with hef | hfe
      · exact ⟨_, e, f, rfl, rfl, Nat.le_refl _, hef, .empty (Nat.le_refl _), hall''.mono hae (Nat.le_refl f)⟩
      · have heq : place text f = place text e := Nat.le_antisymm (place_mono hfe) hle
        exact ⟨_, e, e, rfl, rfl, Nat.le_of_eq heq, Nat.le_refl e, .empty (Nat.le_of_eq heq.symm),
          .empty (Nat.le_refl e)⟩

theorem corresponds_scriptFunction (hr : ReturnsEndLines text) : Corresponds [1] gapChar text scriptFunction := by
  have hfront : (inOrder functionFront).ignoresReturns [1] false = true := by decide
  have hhead : Corresponds [1] gapChar text (inOrder (functionFront ++ [functionEnd])) :=
    corresponds_inOrder (agrees_of_ignoresReturns hr hfront) fun i a _ => concludes_functionEnd hr a
  exact hhead

/-! ## The end of a line -/

def rubyFront : List Pattern :=
  [lineStart, spaces, "def", blanks1, opt "self.", keep 1 [name, opt (.one (among ['!', '?', '=']))], spaces,
    opt (parameterList 2), spaces]

/-- A head before a line feed. -/
def headBeforeFeed : Pattern := inOrder (rubyFront ++ [.one (· == '\n')])

/-- Where no line feed comes next, a line ends at the end of the text only, with carriage returns as without. -/
theorem concludes_lineEnd {content : List Char} (hreturns : '\r' ∉ content)
    (hnone : ∀ j, ¬ (Pattern.one (· == '\n')).Spans content (place (withReturns content) a) j) :
    Concludes [1] (fun _ => false) (withReturns content) lineEnd a := by
  intro b g g' hg
  have hr := returnsEndLines_withReturns hreturns
  have hfeed : (bare (withReturns content))[place (withReturns content) a]? ≠ some '\n' := by
    rw [bare_withReturns hreturns]
    exact fun heq => hnone _ ⟨⟨'\n', heq, rfl⟩, rfl⟩
  have hreturn : (withReturns content)[a]? ≠ some '\r' := by
    intro ha
    rw [hr.getElem?_place_of_return ha] at hfeed
    cases hnext : (withReturns content)[a + 1]? with
    | none =>
      have hlt := (List.getElem?_eq_some_iff.mp ha).1
      have hle := List.getElem?_eq_none_iff.mp hnext
      have hlast : (withReturns content).length - 1 = a := by omega
      refine getLast?_withReturns hreturns ?_
      rw [List.getLast?_eq_getElem?, hlast, ha]
    | some x =>
      rw [hnext, hr.next ha hnext] at hfeed
      exact hfeed rfl
  have hend : Edge.lineEnd.holds (on (bare (withReturns content)) (place (withReturns content) a)) =
      Edge.lineEnd.holds (on (withReturns content) a) := by
    refine Bool.eq_iff_iff.mpr ⟨fun h => ?_, lineEnd_place⟩
    rw [lineEnd_iff] at h ⊢
    intro x hx
    exact h x (getElem?_place_of_ne hx fun heq => hreturn (heq ▸ hx))
  dsimp only
  rw [lineEnd, matchAt, matchAt, hend]
  split
  · exact .some (answers_of_place hg)
  · exact .none

theorem corresponds_rubyHead {content : List Char} (hreturns : '\r' ∉ content)
    (hnone : ∀ i j, ¬ headBeforeFeed.Spans content i j) :
    Corresponds [1] (fun _ => false) (withReturns content) rubyHead := by
  have hr := returnsEndLines_withReturns hreturns
  have hfront : (inOrder rubyFront).ignoresReturns [1] false = true := by decide
  have hagrees : Agrees [1] (withReturns content) false (inOrder rubyFront) := agrees_of_ignoresReturns hr hfront
  have hhead : Corresponds [1] (fun _ => false) (withReturns content) (inOrder (rubyFront ++ [lineEnd])) := by
    refine corresponds_inOrder hagrees fun i a ha => concludes_lineEnd hreturns fun j hj => ?_
    have hplace := hagrees.spans_place ha
    rw [bare_withReturns hreturns] at hplace
    exact hnone _ j (spans_inOrder_append.mpr ⟨_, hplace, hj⟩)
  exact hhead

/-! ## Heads that agree as they are -/

theorem corresponds_goHead (hr : ReturnsEndLines text) : Corresponds [1] (fun _ => false) text goHead :=
  corresponds_of_agrees (agrees_of_ignoresReturns hr (by decide))

theorem corresponds_phpHead (hr : ReturnsEndLines text) : Corresponds [1] (fun _ => false) text phpHead :=
  corresponds_of_agrees (agrees_of_ignoresReturns hr (by decide))

end Functions

end CodeCensus
