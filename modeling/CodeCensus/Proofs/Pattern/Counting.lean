import CodeCensus.Proofs.Pattern.Embedding
import CodeCensus.Proofs.Pattern.Search

/-! Counting matches in a text and in a text that it is embedded in. The search goes from the left
and takes what it can, so the matches that it finds in the larger text need not be the images of
those in the smaller one. There are never fewer: no match in the larger text reaches over two
images, either because a match that starts earlier ends earlier, or because a match ends on the line
on which its first mark stands. -/

namespace CodeCensus.Pattern

open Text Cursor

/-- A line feed stands between two indices. -/
def Broken (text : List Char) (i j : Nat) : Prop := ∃ k, i ≤ k ∧ k < j ∧ text[k]? = some '\n'

/-- The conditions under which no match is lost when a text is embedded in another. Every match
found is one of `core`, and where `core` matches something is found. If `lined` holds, matches are
only told apart by the lines on which they stand. -/
structure Steady (p core : Pattern) (lined : Prop) : Prop where
  tame : core.Tame
  consuming : p.opening.mayBeEmpty = false
  spans_of_finds : ∀ {text : List Char} {m : Match} {i j : Nat}, p.Finds text m i j →
    core.Spans text i j
  exists_spans : ∀ {text : List Char} {i j : Nat}, core.Spans text i j → ∃ k, p.Spans text i k
  stops : ∀ {text : List Char} {i j : Nat}, core.Spans text i j →
    i < j ∧ HoldsAt text (· != '\n') (j - 1)
  broken : lined → ∀ {text : List Char} {m m' : Match} {i j i' j' : Nat},
    p.Finds text m i j → p.Finds text m' i' j' → j ≤ i' → Broken text j j'
  apart : ∀ {text : List Char} {i j i' j' : Nat}, core.Spans text i j → core.Spans text i' j' →
    j ≤ i' → (lined → Broken text j j') → p.Apart text i i'

section embedding

variable {p core : Pattern} {lined : Prop} {body text : List Char} {n : Nat} {φ : Nat → Nat}

/-- What follows the part of a text that is embedded is line feeds. -/
def OnlyBreaksFrom (body : List Char) (n : Nat) : Prop :=
  ∀ k c, n ≤ k → body[k]? = some c → c = '\n'

theorem Steady.stop_le (hp : Steady p core lined) (hn : OnlyBreaksFrom body n) {m : Match}
    {i j : Nat} (hm : p.Finds body m i j) : j ≤ n := by
  obtain ⟨hij, c, hc, hbreak⟩ := hp.stops (hp.spans_of_finds hm)
  by_contra hj
  have := hn (j - 1) c (by omega) hc
  simp [this] at hbreak

theorem Broken.image (h : Embeds body text n φ) {i j : Nat} (hj : j ≤ n) (hb : Broken body i j) :
    Broken text (φ i) (φ j) := by
  obtain ⟨k, hik, hkj, hk⟩ := hb
  exact ⟨φ k, h.mono hik (by omega), h.strictMono hkj hj, (h.breaks k (by omega) hk).1⟩

/-- The images of the matches found in a text are no two within reach of one match. -/
theorem Scan.isChain_images (hp : Steady p core lined) (h : Embeds body text n φ)
    (hn : OnlyBreaksFrom body n) {ms : List Match} {i : Nat} (hscan : Scan p body i ms) :
    (ms.map fun m => φ m.start.pos).IsChain (p.Apart text) := by
  induction hscan with
  | nil => exact .nil
  | @cons i s e m later his hm hlater ih =>
    cases hlater with
    | nil => exact .singleton _
    | @cons _ s' e' m' later hes hm' hlater =>
      refine .cons_cons ?_ ih
      have he : e ≤ n := hp.stop_le hn hm
      have he' : e' ≤ n := hp.stop_le hn hm'
      have hs' : s' ≤ e' := hm'.spans.le
      change p.Apart text (φ m.start.pos) (φ m'.start.pos)
      rw [hm.2.1, hm'.2.1, on_pos, on_pos]
      exact hp.apart (hp.tame.spans h (hp.spans_of_finds hm) he)
        (hp.tame.spans h (hp.spans_of_finds hm') he')
        (h.mono hes (Nat.le_trans hs' he')) fun hl => (hp.broken hl hm hm' hes).image h he'

theorem Scan.finds {ms : List Match} {i : Nat} (h : Scan p text i ms) :
    ∀ m ∈ ms, ∃ s e, p.Finds text m s e := by
  induction h with
  | nil => simp
  | cons his hm hlater ih =>
    intro m' hm'
    rcases List.mem_cons.mp hm' with rfl | hm'
    · exact ⟨_, _, hm⟩
    · exact ih m' hm'

theorem Scan.mem_images {ms : List Match} {i a : Nat} (h : Scan p text i ms)
    (ha : a ∈ ms.map fun m => φ m.start.pos) : ∃ m s e, p.Finds text m s e ∧ a = φ s := by
  obtain ⟨m, hm, rfl⟩ := List.mem_map.mp ha
  obtain ⟨s, e, hfinds⟩ := h.finds m hm
  exact ⟨m, s, e, hfinds, by rw [hfinds.2.1, on_pos]⟩

/-- The search in the larger text may find others, but there is a match at the image of each. -/
theorem Scan.spans_images (hp : Steady p core lined) (h : Embeds body text n φ)
    (hn : OnlyBreaksFrom body n) {ms : List Match} {i : Nat} (hscan : Scan p body i ms) :
    ∀ a ∈ ms.map fun m => φ m.start.pos, ∃ j, p.Spans text a j := by
  intro a ha
  obtain ⟨m, s, e, hfinds, rfl⟩ := hscan.mem_images ha
  exact hp.exists_spans (hp.tame.spans h (hp.spans_of_finds hfinds) (hp.stop_le hn hfinds))

/-- A text has no more matches than one that it is embedded in. -/
theorem Steady.count_le (hp : Steady p core lined) (h : Embeds body text n φ)
    (hn : OnlyBreaksFrom body n) : p.count body ≤ p.count text := by
  have hscan := p.all_scan body
  have := length_le_count hp.consuming (hscan.spans_images hp h hn) (hscan.isChain_images hp h hn)
  rwa [List.length_map] at this

end embedding

/-! ## Matches that do not overtake one another -/

/-- A match that starts no later ends no later. -/
def Orderly (p : Pattern) : Prop :=
  ∀ {text : List Char} {s e i j : Nat}, p.Spans text s e → p.Spans text i j → s ≤ i → e ≤ j

theorem Orderly.of_width {p : Pattern} {n : Nat} (h : p.width? = some n) : p.Orderly := by
  intro text s e i j hse hij hsi
  have := hse.eq_add_of_width h
  have := hij.eq_add_of_width h
  omega

/-- A match that ends at the first character of a class ends before any other such character. -/
theorem Orderly.of_endsAt {p : Pattern} {c : Char → Bool} (h : p.EndsAt c) : p.Orderly := by
  intro text s e i j hse hij hsi
  obtain ⟨hlt, hlast, -⟩ := h.holds hij
  obtain ⟨-, -, hbefore⟩ := h.holds hse
  by_contra hej
  exact hlast.elim (hbefore (j - 1) (by omega) (by omega)) fun x hx => by simp [hx]

/-- Stretches without a character in common do not reach into one another. -/
theorem Throughout.le_of_disjoint {text : List Char} {c d : Char → Bool} {s e i j : Nat}
    (hse : Throughout text c s e) (hij : Throughout text d i j) (h : ∀ x, c x = true → d x = false)
    (hsi : s ≤ i) (hlt : i < j) : e ≤ i := by
  by_contra hei
  exact (hse i hsi (by omega)).elim (hij.holds hlt) h

/-- Two patterns without a character in common can take turns. -/
theorem Orderly.alt {p q : Pattern} {c d : Char → Bool} (hp : p.Orderly) (hq : q.Orderly)
    (hpe : p.opening.mayBeEmpty = false) (hqe : q.opening.mayBeEmpty = false) (hpc : p.Within c)
    (hqd : q.Within d) (hcd : ∀ x, c x = true → d x = false) : (Pattern.alt p q).Orderly := by
  have hdc : ∀ x, d x = true → c x = false := by
    intro x hx
    by_contra hc
    simp [hcd x (by simpa using hc)] at hx
  intro text s e i j hse hij hsi
  rcases hse with hse | hse
  · rcases hij with hij | hij
    · exact hp hse hij hsi
    · have hei :=
        Throughout.le_of_disjoint (hpc.throughout hse) (hqd.throughout hij) hcd hsi (hij.lt hqe)
      exact Nat.le_trans hei hij.le
  · rcases hij with hij | hij
    · have hei :=
        Throughout.le_of_disjoint (hqd.throughout hse) (hpc.throughout hij) hdc hsi (hij.lt hpe)
      exact Nat.le_trans hei hij.le
    · exact hq hse hij hsi

theorem Steady.of_orderly {p core : Pattern} (tame : core.Tame)
    (consuming : p.opening.mayBeEmpty = false)
    (spans_of_finds : ∀ {text : List Char} {m : Match} {i j : Nat}, p.Finds text m i j →
      core.Spans text i j)
    (exists_spans : ∀ {text : List Char} {i j : Nat}, core.Spans text i j → ∃ k, p.Spans text i k)
    (stops : ∀ {text : List Char} {i j : Nat}, core.Spans text i j →
      i < j ∧ HoldsAt text (· != '\n') (j - 1))
    (orderly : core.Orderly) : Steady p core False where
  tame := tame
  consuming := consuming
  spans_of_finds := spans_of_finds
  exists_spans := exists_spans
  stops := stops
  broken hfalse := absurd hfalse not_false
  apart hij _ hji' _ _ _ _ hm hsi := Nat.le_trans (orderly (spans_of_finds hm) hij hsi) hji'

theorem Steady.of_endsAt {p : Pattern} {c : Char → Bool} (tame : p.Tame)
    (consuming : p.opening.mayBeEmpty = false) (ends : p.EndsAt c)
    (hc : ∀ x, c x = true → x ≠ '\n') : Steady p p False := by
  refine .of_orderly tame consuming (fun hm => hm.spans) (fun hij => ⟨_, hij⟩) (fun hij => ?_)
    (Orderly.of_endsAt ends)
  obtain ⟨hlt, hlast, -⟩ := ends.holds hij
  exact ⟨hlt, hlast.imp fun x hx => by simpa using hc x hx⟩

theorem Steady.of_tame {p : Pattern} (tame : p.Tame) (consuming : p.opening.mayBeEmpty = false)
    (closes : p.Closes (· != '\n')) (orderly : p.Orderly) : Steady p p False :=
  .of_orderly tame consuming (fun hm => hm.spans) (fun hij => ⟨_, hij⟩) closes.holds orderly

/-! ## Matches up to the last mark of a line -/

/-- A head, blanks that may cross lines, the rest of a line, and the mark that closes it. -/
def LineWide (text : List Char) (mark : Char) (i j : Nat) : Prop :=
  ∃ h m, i < h ∧ h ≤ m ∧ m < j ∧ Throughout text (fun c => !isBlank c && c != mark) i h ∧
    Throughout text isBlank h m ∧ Throughout text (· != '\n') m (j - 1) ∧
      HoldsAt text (· == mark) (j - 1)

theorem ne_lineFeed_of_not_isBlank {c : Char} (h : isBlank c = false) : c ≠ '\n' := by
  rintro rfl
  exact absurd h (by decide)

/-- The mark that closes a stretch stands after its blanks, so from that mark on another stretch
that holds it stays on the line. -/
theorem LineWide.throughout_of_mark {text : List Char} {mark : Char} {i j k : Nat}
    (h : LineWide text mark i j) (hmark : isBlank mark = false)
    (hk : HoldsAt text (· == mark) k) (hik : i ≤ k) : Throughout text (· != '\n') k j := by
  obtain ⟨a, m, hia, ham, hmj, hhead, hblank, hrest, hlast⟩ := h
  have hak : a ≤ k := by
    by_contra hka
    exact hk.elim (hhead k hik (by omega)) fun c hc => by simp_all
  have hmk : m ≤ k := by
    by_contra hkm
    exact hk.elim (hblank k hak (by omega)) fun c hc => by simp_all
  have hfeed := ne_lineFeed_of_not_isBlank hmark
  intro l hkl hlj
  rcases Nat.lt_or_ge l (j - 1) with hl | hl
  · exact hrest l (by omega) hl
  · obtain rfl : l = j - 1 := by omega
    exact hlast.imp fun c hc => by simp_all

/-- A stretch that holds a line feed before which it has a mark holds that line feed in its blanks,
so the mark stands before the stretch. -/
theorem LineWide.lt_of_break {text : List Char} {mark : Char} {i j k l : Nat}
    (h : LineWide text mark i j) (hmark : isBlank mark = false)
    (hk : HoldsAt text (· == mark) k) (hkl : k < l) (hlj : l < j) (hl : text[l]? = some '\n') :
    k < i := by
  by_contra hki
  exact HoldsAt.elim (q := (· == '\n')) (h.throughout_of_mark hmark hk (by omega) l (by omega) hlj)
    ⟨'\n', hl, rfl⟩ fun c hc => by simpa using hc

theorem LineWide.le_of_broken {text : List Char} {mark : Char} {s e i j i' j' : Nat}
    (hmark : isBlank mark = false) (hse : LineWide text mark s e) (hij : LineWide text mark i j)
    (hij' : LineWide text mark i' j') (hsi : s ≤ i) (hji' : j ≤ i') (hbroken : Broken text j j') :
    e ≤ i' := by
  obtain ⟨k, hjk, hkj', hk⟩ := hbroken
  by_contra hei'
  have hlast : HoldsAt text (· == mark) (j - 1) ∧ i < j := by
    obtain ⟨_, _, _, _, _, _, _, _, hlast⟩ := hij
    exact ⟨hlast, by omega⟩
  have hend : HoldsAt text (· == mark) (e - 1) ∧ s < e := by
    obtain ⟨_, _, _, _, _, _, _, _, hend⟩ := hse
    exact ⟨hend, by omega⟩
  -- a match over the line feed would have the mark at `j - 1` in front of it, not within
  have hke : e ≤ k := by
    by_contra hek
    have := hse.lt_of_break hmark hlast.1 (l := k) (by omega) (by omega) hk
    omega
  have := hij'.lt_of_break hmark hend.1 (l := k) (by omega) hkj' hk
  omega

theorem matchAt_one_of_holds {α : Type} {text : List Char} {q : Char → Bool} {i : Nat} {g : Groups}
    {k : Cursor → Groups → Option α} (hq : HoldsAt text q i) :
    (Pattern.one q).matchAt (on text i) g k = k (on text (i + 1)) g := by
  rw [matchAt, pass?_on_of_holds hq]

theorem holds_of_matchAt_one {α : Type} {text : List Char} {q : Char → Bool} {i : Nat} {g : Groups}
    {k : Cursor → Groups → Option α} {x : α}
    (h : (Pattern.one q).matchAt (on text i) g k = some x) : HoldsAt text q i := by
  by_contra hq
  simp [matchAt, pass?_on_of_not hq] at h

/-- A run in front of one last character goes as far as such a character lets it. -/
theorem matchAt_inOrder_run {α : Type} {text : List Char} {before : List Pattern}
    {p q : Char → Bool} {i : Nat} {g : Groups} {k : Cursor → Groups → Option α} {x : α}
    (h : (inOrder (before ++ [.run p, .one q])).matchAt (on text i) g k = some x) :
    ∃ m j g', Throughout text p m j ∧ m ≤ j ∧ HoldsAt text q j ∧ k (on text (j + 1)) g' = some x ∧
      ∀ l, j < l → Throughout text p m l → HoldsAt text q l → k (on text (l + 1)) g' = none := by
  induction before generalizing i g with
  | nil =>
    obtain ⟨j, hij, hrun, hj, hfar⟩ := findSome?_reach h
    have hq : HoldsAt text q j := holds_of_matchAt_one hj
    refine ⟨i, j, g, hrun, hij, hq, (matchAt_one_of_holds hq).symm.trans hj, fun l hjl hl hql => ?_⟩
    exact (matchAt_one_of_holds hql).symm.trans (hfar l hjl hl)
  | cons first before ih =>
    rw [List.cons_append, inOrder_cons_of_ne_nil first (by simp)] at h
    obtain ⟨j, g', -, hj⟩ := first.matchAt_sound h
    exact ih hj

/-- After a match that runs up to the last mark of a line, a line ends before the next mark. -/
theorem broken_of_finds {text : List Char} {before : List Pattern} {mark : Char} {m : Match}
    {i j k : Nat} (hmark : mark ≠ '\n')
    (h : (inOrder (before ++ [.run (beyond ['\n']), .one (· == mark)])).Finds text m i j)
    (hk : HoldsAt text (· == mark) k) (hjk : j ≤ k) : Broken text j (k + 1) := by
  obtain ⟨a, b, g, hrun, hab, hb, hstop, hfar⟩ := matchAt_inOrder_run h.1
  obtain rfl : b + 1 = j := by
    have := congrArg (fun m => m.stop.pos) (Option.some.inj hstop)
    simpa [h.2.2] using this
  by_contra hbroken
  -- on one line the run would have gone on to the later mark
  have hline : Throughout text (beyond ['\n']) a k := by
    intro l hal hlk
    rcases Nat.lt_trichotomy l b with hl | rfl | hl
    · exact hrun l hal hl
    · exact hb.imp fun c hc => by
        obtain rfl : c = mark := by simpa using hc
        simpa [beyond] using hmark
    · have hlen : l < text.length := Nat.lt_trans hlk hk.lt
      refine ⟨text[l], List.getElem?_eq_getElem hlen, ?_⟩
      have : text[l] ≠ '\n' := fun hc =>
        hbroken ⟨l, by omega, by omega, by rw [List.getElem?_eq_getElem hlen, hc]⟩
      simpa [beyond] using this
  exact absurd (hfar k (by omega) hline hk) (by simp)

theorem Steady.of_lineWide {before : List Pattern} {mark : Char} (hmark : isBlank mark = false)
    (tame : (inOrder (before ++ [.run (beyond ['\n']), .one (· == mark)])).Tame)
    (lineWide : ∀ {text : List Char} {i j : Nat},
      (inOrder (before ++ [.run (beyond ['\n']), .one (· == mark)])).Spans text i j →
        LineWide text mark i j) :
    Steady (inOrder (before ++ [.run (beyond ['\n']), .one (· == mark)]))
      (inOrder (before ++ [.run (beyond ['\n']), .one (· == mark)])) True where
  tame := tame
  consuming := mayBeEmpty_inOrder_append rfl
  spans_of_finds hm := hm.spans
  exists_spans hij := ⟨_, hij⟩
  stops hij := by
    obtain ⟨h, k, hih, hhk, hkj, -, -, -, hlast⟩ := lineWide hij
    refine ⟨by omega, hlast.imp fun c hc => ?_⟩
    obtain rfl : c = mark := by simpa using hc
    simpa using ne_lineFeed_of_not_isBlank hmark
  broken _ _ m m' i j i' j' hm hm' hji' := by
    obtain ⟨h, k, hih, hhk, hkj', -, -, -, hlast⟩ := lineWide hm'.spans
    have := broken_of_finds (ne_lineFeed_of_not_isBlank hmark) hm hlast (by omega)
    rwa [Nat.sub_add_cancel (by omega)] at this
  apart hij hij' hji' hbroken m s e hm hsi :=
    (lineWide hm.spans).le_of_broken hmark (lineWide hij) (lineWide hij') hsi hji' (hbroken trivial)

end CodeCensus.Pattern
