import CodeCensus.Proofs.Pattern.Captures
import CodeCensus.Proofs.Pattern.Search
import CodeCensus.Proofs.Pattern.Taking
import CodeCensus.Proofs.Text.Words

/-! Words within patterns, and the blanks between them. Where a pattern covers a fixed word, the word stands in the text,
so a part of a text without the word has no place for it. -/

namespace CodeCensus

namespace Text

/-- The longest front of a text that is of a class. -/
theorem exists_run (p : Char → Bool) (text : List Char) : ∃ front rest, text = front ++ rest ∧
    (∀ c ∈ front, p c = true) ∧ ∀ c ∈ rest.head?, p c = false := by
  refine ⟨text.takeWhile p, text.dropWhile p, List.takeWhile_append_dropWhile.symm,
    fun c hc => List.mem_takeWhile_imp hc, fun c hc => ?_⟩
  have hnot := List.head?_dropWhile_not p text
  rw [hc] at hnot
  simpa using hnot

end Text

namespace Pattern

open Text Cursor

variable {text front rest : List Char} {word : String} {i j k : Nat}

theorem drop_of_spans_chars {cs : List Char} (h : (inOrder (cs.map fun c => .one (· == c))).Spans text i j) :
    text.drop i = cs ++ text.drop j := by
  induction cs generalizing i with
  | nil =>
    obtain rfl : j = i := h
    rfl
  | cons c cs ih =>
    have hone {m : Nat} (hm : (Pattern.one fun x => x == c).Spans text i m) : text.drop i = c :: text.drop m := by
      obtain ⟨⟨d, hd, hmark⟩, rfl⟩ := hm
      obtain rfl : d = c := beq_iff_eq.mp hmark
      exact drop_of_getElem? hd
    cases cs with
    | nil => exact hone h
    | cons d cs =>
      obtain ⟨m, hm, hcs⟩ := h
      rw [hone hm, ih hcs]
      rfl

theorem drop_of_spans_text (h : (Pattern.text word).Spans text i j) : text.drop i = word.toList ++ text.drop j :=
  drop_of_spans_chars h

theorem eq_add_of_spans_text (h : (Pattern.text word).Spans text i j) : j = i + word.toList.length :=
  h.eq_add_of_width (width?_text word)

/-- A word that is covered within a part of a text stands in that part. -/
theorem infix_of_spans_text (hdrop : text.drop i = front ++ rest) (hik : i ≤ k) (hj : j ≤ i + front.length)
    (h : (Pattern.text word).Spans text k j) : word.toList <:+: front := by
  have hlength := eq_add_of_spans_text h
  obtain ⟨l, rfl⟩ := Nat.exists_eq_add_of_le hik
  have hword : (front ++ rest).drop l = word.toList ++ text.drop j := by
    rw [← hdrop, List.drop_drop, drop_of_spans_text h]
  have hbegins : word.toList <+: front.drop l := by
    rw [List.drop_append_of_le_length (by omega)] at hword
    have hlong : word.toList.length ≤ (front.drop l).length := by
      rw [List.length_drop]
      omega
    exact List.prefix_of_prefix_length_le ⟨_, hword.symm⟩ (List.prefix_append _ _) hlong
  exact hbegins.isInfix.trans (List.drop_suffix l front).isInfix

theorem infix_drop_of_spans_text (hik : i ≤ k) (h : (Pattern.text word).Spans text k j) :
    word.toList <:+: text.drop i := by
  obtain ⟨l, rfl⟩ := Nat.exists_eq_add_of_le hik
  have hbegins : word.toList <+: text.drop (i + l) := ⟨_, (drop_of_spans_text h).symm⟩
  rw [← List.drop_drop] at hbegins
  exact hbegins.isInfix.trans (List.drop_suffix l _).isInfix

/-- A word that reaches over the end of a part of a text holds the last character of that part. -/
theorem getLast?_mem_of_spans_text (hdrop : text.drop i = front ++ rest) (hik : i ≤ k) (hk : k < i + front.length)
    (hj : i + front.length ≤ j) (h : (Pattern.text word).Spans text k j) : ∃ c ∈ front.getLast?, c ∈ word.toList := by
  obtain ⟨l, rfl⟩ := Nat.exists_eq_add_of_le hik
  have hlength := eq_add_of_spans_text h
  have hword := drop_of_spans_text h
  have hlast : text[i + (front.length - 1)]? = front.getLast? := by
    rw [getElem?_of_drop hdrop (by omega), List.getLast?_eq_getElem?]
  have hat : text[i + (front.length - 1)]? = word.toList[front.length - 1 - l]? := by
    rw [show i + (front.length - 1) = i + l + (front.length - 1 - l) by omega]
    exact getElem?_of_drop hword (by omega)
  have hlt : front.length - 1 - l < word.toList.length := by omega
  rw [List.getElem?_eq_getElem hlt] at hat
  exact ⟨_, hlast.symm.trans hat, List.getElem_mem hlt⟩

/-- No word is covered from within a part of a text that does not hold it and that no character of it ends. -/
theorem not_spans_text (hdrop : text.drop i = front ++ rest) (hfront : ¬ word.toList <:+: front)
    (hlast : ∀ c ∈ front.getLast?, c ∉ word.toList) (hik : i ≤ k) (hk : k < i + front.length) :
    ¬ (Pattern.text word).Spans text k j := by
  intro h
  rcases Nat.lt_or_ge j (i + front.length) with hj | hj
  · exact hfront (infix_of_spans_text hdrop hik (Nat.le_of_lt hj) h)
  · obtain ⟨c, hc, hmem⟩ := getLast?_mem_of_spans_text hdrop hik hk hj h
    exact hlast c hc hmem

/-- A run that stops where a certain character stands, none of which is in a word, ends with the word. -/
theorem eq_add_of_stop {c stop : Char → Bool} {mark : Char} (hfront : ∀ x ∈ front, stop x = false)
    (hmark : c mark = false) (h : text.drop i = front ++ mark :: rest) (hij : i ≤ j) (hrun : Throughout text c i j)
    (hstop : HoldsAt text stop j) : j = i + front.length := by
  have hle : j ≤ i + front.length := not_throughout_of_drop h (forall_mem_head? hmark) hrun
  rcases Nat.eq_or_lt_of_le hle with heq | hlt
  · exact heq
  · obtain ⟨k, rfl⟩ := Nat.exists_eq_add_of_le hij
    have hk : k < front.length := by omega
    obtain ⟨x, hx, hxstop⟩ := hstop
    rw [getElem?_of_drop h hk] at hx
    rw [hfront x (List.mem_of_getElem? hx)] at hxstop
    cases hxstop

theorem spans_oneWord {words : List String} (h : (oneWord words).Spans text i j) :
    ∃ word ∈ words, (Pattern.text word).Spans text i j := by
  induction words with
  | nil => exact absurd ⟨i, rfl⟩ h.1
  | cons word words ih =>
    cases words with
    | nil => exact ⟨word, List.mem_cons_self, h⟩
    | cons next words =>
      rcases h with h | h
      · exact ⟨word, List.mem_cons_self, h⟩
      · obtain ⟨found, hfound, hspans⟩ := ih h
        exact ⟨found, List.mem_cons_of_mem word hfound, hspans⟩

theorem oneWord_spans {words : List String} (hword : word ∈ words) (h : (Pattern.text word).Spans text i j) :
    (oneWord words).Spans text i j := by
  induction words with
  | nil => cases hword
  | cons next words ih =>
    cases words with
    | nil =>
      obtain rfl := List.mem_singleton.mp hword
      exact h
    | cons other words =>
      rcases List.mem_cons.mp hword with rfl | hword
      · exact .inl h
      · exact .inr (ih hword)

theorem wordEdge_append {before : List Char} (hbefore : ∀ c ∈ before.getLast?, isWord c = false)
    (hrest : rest.head?.any isWord = true) : Edge.word.holds (on (before ++ rest) before.length) = true := by
  have hlast : isWord (before.getLast?.getD '\n') = false := by
    cases hc : before.getLast? with
    | none => decide
    | some c => exact hbefore c hc
  change (isWord (((before ++ rest).take before.length).getLast?.getD '\n') !=
    ((before ++ rest).drop before.length).head?.any isWord) = true
  rw [List.take_left, List.drop_left, hlast, hrest]
  rfl

theorem lineStart_append {before : List Char} (hbefore : ∀ c ∈ before.getLast?, c = '\n') :
    Edge.lineStart.holds (on (before ++ rest) before.length) = true := by
  change (((before ++ rest).take before.length).getLast?.getD '\n' == '\n') = true
  rw [List.take_left]
  cases hc : before.getLast? with
  | none => rfl
  | some c => exact beq_iff_eq.mpr (hbefore c hc)

theorem newline_of_lineStart (hk : 0 < k) (hlength : k ≤ text.length)
    (h : Edge.lineStart.holds (on text k) = true) : text[k - 1]? = some '\n' := by
  obtain ⟨l, rfl⟩ : ∃ l, k = l + 1 := ⟨k - 1, by omega⟩
  have hlast : (text.take (l + 1)).getLast? = text[l]? := by
    rw [List.take_succ_eq_append_getElem hlength, List.getLast?_concat, List.getElem?_eq_getElem hlength]
  have hfeed : (text[l]?.getD '\n' == '\n') = true := by
    rw [← hlast]
    exact h
  rw [Nat.add_sub_cancel, List.getElem?_eq_getElem hlength]
  rw [List.getElem?_eq_getElem hlength] at hfeed
  exact congrArg some (beq_iff_eq.mp hfeed)

/-! ## Blanks between words

A run ends where its class does, so which part of a text it is taken for can be told by what stands behind that part. -/

variable {gap : List Char} {p q : Pattern} {m : Nat} {new : Groups}

/-! ## Which part of a text is covered -/

theorem exists_append_of_spans_run {c : Char → Bool} (h : (Pattern.run c).Spans text i j) :
    ∃ front, text.drop i = front ++ text.drop j ∧ j = i + front.length ∧ ∀ x ∈ front, c x = true := by
  obtain ⟨hij, hall⟩ := h
  obtain ⟨l, rfl⟩ := Nat.exists_eq_add_of_le hij
  have hfront : ∀ x ∈ (text.drop i).take l, c x = true := by
    intro x hx
    obtain ⟨k, hk⟩ := List.mem_iff_getElem?.mp hx
    rw [List.getElem?_take] at hk
    split at hk
    · rw [List.getElem?_drop] at hk
      exact (hall (i + k) (Nat.le_add_right i k) (by omega)).eq_true hk
    · cases hk
  refine ⟨(text.drop i).take l, ?_, ?_, hfront⟩
  · rw [← List.drop_drop, List.take_append_drop]
  · rcases hall.le_length with hle | hle
    · rw [show l = 0 by omega, List.take_zero, List.length_nil]
    · rw [List.length_take, List.length_drop, Nat.min_eq_left (by omega)]

theorem exists_append_of_spans_some1 {c : Char → Bool} (h : (some1 c).Spans text i j) :
    ∃ front, text.drop i = front ++ text.drop j ∧ j = i + front.length ∧ front ≠ [] ∧ ∀ x ∈ front, c x = true := by
  obtain ⟨hij, hall⟩ := spans_some1.mp h
  obtain ⟨front, hdrop, rfl, hfront⟩ := exists_append_of_spans_run ⟨Nat.le_of_lt hij, hall⟩
  have hpos : 0 < front.length := by omega
  exact ⟨front, hdrop, rfl, List.ne_nil_of_length_pos hpos, hfront⟩

theorem exists_gap_of_spans_blanks1 (h : blanks1.Spans text i j) :
    ∃ gap, text.drop i = gap ++ text.drop j ∧ j = i + gap.length ∧ IsBlanks1 gap := by
  obtain ⟨gap, hdrop, hj, hne, hgap⟩ := exists_append_of_spans_some1 h
  exact ⟨gap, hdrop, hj, hne, hgap⟩

theorem spans_oneOf {ps : List Pattern} : (oneOf ps).Spans text i j ↔ ∃ p ∈ ps, p.Spans text i j := by
  induction ps with
  | nil => exact ⟨fun h => absurd ⟨i, rfl⟩ h.1, fun ⟨p, hp, _⟩ => absurd hp List.not_mem_nil⟩
  | cons p ps ih =>
    cases ps with
    | nil => exact ⟨fun h => ⟨p, List.mem_cons_self, h⟩, fun ⟨q, hq, h⟩ => List.mem_singleton.mp hq ▸ h⟩
    | cons q ps =>
      have hmem : (∃ r ∈ p :: q :: ps, r.Spans text i j) ↔ p.Spans text i j ∨ ∃ r ∈ q :: ps, r.Spans text i j := by
        simp only [List.mem_cons, exists_eq_or_imp]
      rw [hmem, ← ih]
      exact Iff.rfl

/-- A word that another word and a blank follow is that other word. -/
theorem not_spans_text_of_gap {word : String} (hword : ∀ c ∈ word.toList, isBlank c = false)
    (h : text.drop i = front ++ (gap ++ rest)) (hgap : IsBlanks1 gap) (hfront : ¬ word.toList <+: front) (e : Nat) :
    ¬ (Pattern.text word).Spans text i e := by
  intro hspans
  have hdrop := drop_of_spans_text hspans
  rw [h] at hdrop
  rcases List.append_eq_append_iff.mp hdrop with ⟨more, hmore, hrest⟩ | ⟨more, hmore, -⟩
  · cases more with
    | nil => exact hfront ⟨[], by rw [hmore, List.append_nil, List.append_nil]⟩
    | cons c more =>
      have hblank := hgap.head?_append rest c (by rw [hrest]; rfl)
      rw [hword c (by rw [hmore]; simp)] at hblank
      cases hblank
  · exact hfront ⟨more, hmore.symm⟩

/-! ## What the matcher takes -/

theorem takes_blanks (h : text.drop i = gap ++ rest) (hgap : IsBlanks gap) (hrest : ∀ c ∈ rest.head?, isBlank c = false) :
    Takes text blanks i (i + gap.length) [] := takes_run h hgap hrest

theorem takes_blanks1 (h : text.drop i = gap ++ rest) (hgap : IsBlanks1 gap) (hrest : ∀ c ∈ rest.head?, isBlank c = false) :
    Takes text blanks1 i (i + gap.length) [] := takes_some1_of_ne_nil hgap.1 h hgap.2 hrest

theorem takes_oneOf (front : List Pattern) {back : List Pattern} (hfront : ∀ q ∈ front, ∀ e, ¬ q.Spans text i e)
    (h : Takes text p i j new) : Takes text (oneOf (front ++ p :: back)) i j new := by
  induction front with
  | nil =>
    cases back with
    | nil => exact h
    | cons q back => exact h.left
  | cons q front ih =>
    obtain ⟨hq, hfront⟩ := List.forall_mem_cons.mp hfront
    have hrest : Takes text (oneOf (front ++ p :: back)) i j new := ih hfront
    obtain ⟨next, more, hmore⟩ : ∃ next more, front ++ p :: back = next :: more :=
      List.exists_cons_of_ne_nil (List.append_ne_nil_of_right_ne_nil _ (List.cons_ne_nil p back))
    rw [List.cons_append, hmore]
    rw [hmore] at hrest
    exact hrest.right hq

/-! ## The first match -/

theorem find?_eq_none_of (h : ∀ k e, ¬ p.Spans text k e) : p.find? text = none := by
  rw [Option.eq_none_iff_forall_ne_some]
  intro m hm
  obtain ⟨i, j, hfinds⟩ := exists_finds_of_find? hm
  exact h i j hfinds.spans

theorem find?_of_takes (h : Takes text p i j new) (hfirst : ∀ k e, k < i → ¬ p.Spans text k e)
    (hi : i ≤ text.length) : p.find? text = some ⟨⟨on text i, on text j⟩, new⟩ := by
  have hfrom : p.find? text = p.findFrom p.opening (on text 0).ahead (on text 0) := rfl
  cases hfound : p.findFrom p.opening (on text 0).ahead (on text 0) with
  | none =>
    have hspans : p.Spans text i j := h.finds.spans
    exact absurd hspans (not_spans_of_findFrom_eq_none hfound (Nat.zero_le i) (by rw [on_ahead]; omega) hi)
  | some m =>
    obtain ⟨s, e, -, hfinds, hbefore⟩ := findFrom_eq_some hfound
    obtain rfl : s = i := by
      rcases Nat.lt_trichotomy s i with hlt | heq | hlt
      · exact absurd hfinds.spans (hfirst s e hlt)
      · exact heq
      · exact absurd h.finds.spans (hbefore i (Nat.zero_le i) hlt j)
    obtain rfl : m = _ := Option.some.inj (hfinds.1.symm.trans h.here?)
    rw [hfrom, hfound]

/-! ## Pieces between matches -/

theorem getLast?_piecesFrom (c : Cursor) (ms : List Match) :
    (piecesFrom c ms).getLast? = some (((ms.getLast?.map fun m => m.stop).getD c).rest) := by
  induction ms generalizing c with
  | nil => rfl
  | cons m ms ih =>
    rw [piecesFrom, List.getLast?_cons, ih, List.getLast?_cons]
    cases ms.getLast? <;> rfl

theorem getLast?_split_of_none (hp : p.opening.mayBeEmpty = false) (h : ∀ k e, ¬ p.Spans text k e) :
    (p.split text).getLast? = some text := by
  have hall : p.all text = [] := (p.all_sweep hp text).eq_nil fun k e _ => h k e
  rw [split, hall]
  rfl

/-- Where a pattern is taken once and nowhere else, the last piece is what stands behind it. -/
theorem getLast?_split_of_takes (hp : p.opening.mayBeEmpty = false) (h : Takes text p i j new)
    (hfront : ∀ k e, k < i → ¬ p.Spans text k e) (hback : ∀ k e, j ≤ k → ¬ p.Spans text k e) :
    (p.split text).getLast? = some (text.drop j) := by
  have hsweep := (p.all_sweep hp text).skip (Nat.zero_le i) fun k e _ hk => hfront k e hk
  obtain ⟨later, hall, hlater⟩ := hsweep.take h.finds
  rw [hlater.eq_nil fun k e hk => hback k e hk] at hall
  rw [split, getLast?_piecesFrom, hall]
  rfl

/-! ## Runs that stop before their end, and options left out -/

/-- A run is taken up to a place if what follows covers nothing from any place further on. -/
theorem Takes.run_seq {c : Char → Bool} (hij : i ≤ j) (hrun : Throughout text c i j) (h : Takes text q j m new)
    (hlater : ∀ l, j < l → Throughout text c i l → ∀ e, ¬ q.Spans text l e) :
    Takes text (.seq (.run c) q) i m new := by
  intro α g k x hk
  have hj : q.matchAt (on text j) g k = some x := h α g k x hk
  have hmem : on text j ∈ (on text i).reach c := mem_reach.mpr ⟨j, hij, hrun, rfl⟩
  change ((on text i).reach c).findSome? (fun c' => q.matchAt c' g k) = some x
  cases hfound : ((on text i).reach c).findSome? fun c' => q.matchAt c' g k with
  | none =>
    have hnone := List.findSome?_eq_none_iff.mp hfound _ hmem
    exact absurd (hnone.symm.trans hj) (by simp)
  | some y =>
    obtain ⟨e, hie, he, hy, hfar⟩ := findSome?_reach hfound
    rcases Nat.lt_trichotomy e j with hlt | rfl | hlt
    · exact absurd ((hfar j hlt hrun).symm.trans hj) (by simp)
    · exact hy.symm.trans hj
    · exact absurd ((matchAt_eq_none (hlater e hlt he)).symm.trans hy) (by simp)

/-- An option is left out where, behind all that it can cover, what follows covers nothing. -/
theorem Takes.opt_seq_none (h : Takes text q i j new) (hnone : ∀ m e, p.Spans text i m → ¬ q.Spans text m e) :
    Takes text (.seq (opt p) q) i j new := by
  intro α g k x hk
  have hout : p.matchAt (on text i) g (fun c' g' => q.matchAt c' g' k) = none := by
    rw [Option.eq_none_iff_forall_ne_some]
    intro y hy
    obtain ⟨m, g', hm, hgo⟩ := p.matchAt_sound hy
    obtain ⟨e, g'', he, -⟩ := q.matchAt_sound hgo
    exact hnone m e hm he
  change (Pattern.alt p .empty).matchAt (on text i) g (fun c' g' => q.matchAt c' g' k) = some x
  rw [matchAt, hout]
  exact h α g k x hk

end Pattern

end CodeCensus
