import CodeCensus.Declaration.Functions
import CodeCensus.Proofs.Language.Branching
import CodeCensus.Proofs.Text.Class
import CodeCensus.Proofs.Text.Lines

/-! Every function that the library finds in a text is scored by an excerpt of it: a part of the text that cuts no word,
or some of its lines, with or without the blank ones among them. No pattern that scores code matches more often in such
an excerpt than in the whole text. -/

namespace CodeCensus

open Text Pattern Cursor

/-- A body cut out of a text. -/
inductive Excerpt (text : List Char) : List Char → Prop
  | piece {x b y : List Char} (eq : text = x ++ b ++ y)
    (start : wordAt b 0 = true → wordBefore text x.length = false)
    (stop : wordBefore b b.length = true → wordAt y 0 = false) : Excerpt text b
  | rows (above body below : List (List Char)) (eq : lines text = above ++ body ++ below) :
    Excerpt text (unlines body)
  | block (above : List (List Char)) (first : List Char) (body below : List (List Char))
    (eq : lines text = above ++ (first :: body) ++ below) :
    Excerpt text (unlines (first :: body.filter fun line => !Body.isBlankLine line))

theorem wordBefore_unlines (body : List (List Char)) (rest : List Char) :
    wordBefore (unlines body ++ rest) (unlines body).length = false := by
  rcases eq_or_ne body [] with rfl | hne
  · rfl
  · obtain ⟨front, hfront⟩ := exists_unlines_eq_append hne
    rw [hfront]
    exact wordBefore_append (by simp) (by decide)

namespace Pattern.Lossless

variable {p : Pattern} {text : List Char}

theorem count_infix_le (hp : p.Lossless) {x b y : List Char}
    (hstart : wordAt b 0 = true → wordBefore (x ++ b ++ y) x.length = false)
    (hend : wordBefore b b.length = true → wordAt y 0 = false) :
    p.count b ≤ p.count (x ++ b ++ y) := by
  obtain ⟨core, lined, hsteady⟩ := hp
  refine hsteady.count_le (embeds_between hstart hend) fun k c hk hc => ?_
  rw [List.getElem?_eq_none hk] at hc
  exact absurd hc (by simp)

/-- A line feed at the end brings no new match. -/
theorem count_lineFeed_le (hp : p.Lossless) (t : List Char) :
    p.count (t ++ ['\n']) ≤ p.count t := by
  obtain ⟨core, lined, hsteady⟩ := hp
  refine hsteady.count_le (embeds_dropLast t) fun k c hk hc => ?_
  rw [List.getElem?_append_right hk] at hc
  exact List.mem_singleton.mp (List.mem_of_getElem? hc)

/-- A blank line takes no match away. -/
theorem count_le_blankLine (hp : p.Lossless) {above below : List (List Char)} {line : List Char}
    (hne : above ≠ []) (hline : Body.isBlankLine line = true) :
    p.count (unlines (above ++ below)) ≤ p.count (unlines (above ++ line :: below)) := by
  obtain ⟨core, lined, hsteady⟩ := hp
  obtain ⟨front, hfront⟩ := exists_unlines_eq_append hne
  have h : unlines (above ++ below) = front ++ '\n' :: unlines below := by
    rw [unlines_append, hfront, List.append_assoc, List.singleton_append]
  have h' :
      unlines (above ++ line :: below) = front ++ '\n' :: (line ++ '\n' :: unlines below) := by
    rw [unlines_append, hfront, unlines_cons, List.append_assoc, List.singleton_append]
  rw [h, h']
  refine hsteady.count_le (embeds_blankLine front (unlines below) hline) fun k c hk hc => ?_
  rw [List.getElem?_eq_none hk] at hc
  exact absurd hc (by simp)

theorem count_filter_le (hp : p.Lossless) (above body : List (List Char)) (hne : above ≠ []) :
    p.count (unlines (above ++ body.filter fun line => !Body.isBlankLine line)) ≤
      p.count (unlines (above ++ body)) := by
  induction body generalizing above with
  | nil => exact Nat.le_refl _
  | cons line body ih =>
    have hone := ih (above ++ [line]) (by simp)
    rw [List.append_assoc, List.append_assoc, List.singleton_append, List.singleton_append] at hone
    by_cases hline : Body.isBlankLine line = true
    · rw [List.filter_cons_of_neg (by simp [hline])]
      exact Nat.le_trans (ih above hne) (hp.count_le_blankLine hne hline)
    · rw [List.filter_cons_of_pos (by simp [hline])]
      exact hone

theorem count_rows_le (hp : p.Lossless) {above body below : List (List Char)}
    (h : lines text = above ++ body ++ below) : p.count (unlines body) ≤ p.count text := by
  -- the last line has no line feed in the text, so the lines are a part of the text and one more
  have hall : text ++ ['\n'] = unlines above ++ unlines body ++ unlines below := by
    rw [← unlines_lines, h, unlines_append, unlines_append]
  refine Nat.le_trans ?_ (hp.count_lineFeed_le text)
  rw [hall]
  refine hp.count_infix_le (fun _ => ?_) fun hword => ?_
  · rw [List.append_assoc]
    exact wordBefore_unlines above _
  · have := wordBefore_unlines body []
    rw [List.append_nil, hword] at this
    exact absurd this (by simp)

/-- A pattern that scores code matches no more often in an excerpt than in the text. -/
theorem count_excerpt_le (hp : p.Lossless) {b : List Char} (h : Excerpt text b) :
    p.count b ≤ p.count text := by
  -- a block keeps its first line, which is what the blank lines left out must stand after
  cases h with
  | piece eq start stop =>
    subst eq
    exact hp.count_infix_le start stop
  | rows above body below eq => exact hp.count_rows_le eq
  | block above first body below eq =>
    exact Nat.le_trans (hp.count_filter_le [first] body (by simp)) (hp.count_rows_le eq)

end Pattern.Lossless

variable {text : List Char}

namespace Body

/-- A block is a part of its text, and stops after a closing brace or at the end. -/
theorem exists_closeFrom_eq (depth : Nat) (taken rest : List Char) :
    ∃ cut after, rest = cut ++ after ∧ closeFrom depth taken rest = taken.reverse ++ cut ∧
      (after = [] ∨ ∃ front, cut = front ++ ['}']) := by
  induction rest generalizing depth taken with
  | nil => exact ⟨[], [], rfl, by simp [closeFrom], .inl rfl⟩
  | cons c rest ih =>
    have hstep (depth : Nat) : ∃ cut after, c :: rest = cut ++ after ∧
        closeFrom depth (c :: taken) rest = taken.reverse ++ cut ∧
          (after = [] ∨ ∃ front, cut = front ++ ['}']) := by
      obtain ⟨cut, after, hrest, hclose, hstop⟩ := ih depth (c :: taken)
      refine ⟨c :: cut, after, by rw [hrest, List.cons_append], by simp [hclose],
        hstop.imp_right ?_⟩
      rintro ⟨front, rfl⟩
      exact ⟨c :: front, rfl⟩
    rw [closeFrom]
    split
    · exact hstep (depth + 1)
    · split
      · rename_i hc
        split
        -- the brace that brings the depth back to nothing ends the block
        · exact ⟨[c], rest, rfl, by simp, .inr ⟨[], by simpa using hc⟩⟩
        · exact hstep (depth - 1)
      · exact hstep depth

theorem excerpt_braced {before rest : List Char} (h : text = before ++ rest) :
    Excerpt text (braced rest) := by
  obtain ⟨cut, after, hblock, hclose, hstop⟩ := exists_closeFrom_eq 0 [] (rest.dropWhile (· != '{'))
  have htext : text = before ++ rest.takeWhile (· != '{') ++ cut ++ after := by
    rw [h, List.append_assoc, List.append_assoc, ← hblock, List.takeWhile_append_dropWhile]
  have hcut : braced rest = cut := hclose
  rw [hcut]
  refine .piece htext (fun hword => ?_) fun hword => ?_
  -- the cut begins with an opening brace, and neither end of it is inside a word
  · cases cut with
    | nil => simp [wordAt] at hword
    | cons c cut =>
      have hc : c = '{' := by
        have := List.head?_dropWhile_not (· != '{') rest
        rw [hblock] at this
        simpa using this
      rw [hc] at hword
      exact absurd (show wordAt ('{' :: cut) 0 = false from rfl) (by simp [hword])
  · rcases hstop with rfl | ⟨front, rfl⟩
    · rfl
    · have := wordBefore_append (x := front) (v := ['}']) (y := []) (by simp) (by decide)
      rw [List.append_nil, hword] at this
      exact absurd this (by simp)

theorem excerpt_bracedOpen {before rest : List Char} (h : text = before ++ '{' :: rest) :
    Excerpt text (bracedOpen rest) := excerpt_braced h

theorem excerpt_ofArrow {before rest : List Char} (h : text = before ++ rest) :
    Excerpt text (ofArrow rest) := by
  rw [ofArrow]
  split
  · exact .rows [] [] (lines text) rfl
  · rename_i front after hcut
    have htext :
        text = before ++ front ++ (['=', '>'] ++ after.takeWhile isBlank) ++
          after.dropWhile isBlank := by
      rw [h, cutFirst_eq_some hcut]
      simp
    dsimp only
    split
    · exact excerpt_braced htext
    · generalize hrest : after.dropWhile isBlank = rest at htext ⊢
      refine .piece (x := before ++ front ++ (['=', '>'] ++ after.takeWhile isBlank))
        (y := rest.dropWhile fun c => c != '\n' && c != ';') ?_ (fun _ => ?_) fun _ => ?_
      · rw [List.append_assoc _ _ (List.dropWhile _ _), List.takeWhile_append_dropWhile, htext]
      · rw [htext]
        have hblank : (after.takeWhile isBlank).any isWord = false := by
          refine List.any_eq_false.mpr fun c hc => ?_
          simpa using not_isWord_of_isBlank (List.all_eq_true.mp List.all_takeWhile c hc)
        have harrow : ['=', '>'].any isWord = false := by decide
        exact wordBefore_append (by simp) (by rw [List.any_append, harrow, hblank, Bool.or_self])
      · have hhead := List.head?_dropWhile_not (fun c => c != '\n' && c != ';') rest
        cases hstop : rest.dropWhile fun c => c != '\n' && c != ';' with
        | nil => rfl
        | cons c tail =>
          rw [hstop] at hhead
          have hc : c = '\n' ∨ c = ';' := by simpa [Classical.or_iff_not_imp_left] using hhead
          rcases hc with rfl | rfl <;> rfl

theorem excerpt_indented (header : Int) {above after : List (List Char)}
    (h : lines text = above ++ after) : Excerpt text (indented header after) := by
  have hnone : Excerpt text (unlines []) := .rows [] [] (lines text) rfl
  rw [indented, indentedLines]
  split
  · exact hnone
  · rename_i first rest hblock
    dsimp only
    split
    · exact hnone
    · refine .block (above ++ after.takeWhile isBlankLine) first _
        (rest.dropWhile fun line => isBlankLine line || indentation first ≤ indentation line) ?_
      rw [List.append_assoc, List.cons_append, List.takeWhile_append_dropWhile, ← hblock,
        List.append_assoc, List.takeWhile_append_dropWhile, h]

theorem excerpt_untilEnd {above after : List (List Char)} (h : lines text = above ++ after) :
    Excerpt text (untilEnd after) := by
  refine .rows above _ (after.dropWhile fun line => trim line != ['e', 'n', 'd']) ?_
  rw [List.append_assoc, List.takeWhile_append_dropWhile, h]

end Body

namespace Functions

variable {score : Scorer} {f : Function}

/-- A function is scored by an excerpt of a text. -/
def ScoredIn (score : Scorer) (text : List Char) (f : Function) : Prop :=
  ∃ b, Excerpt text b ∧ f.complexity = score b

theorem exists_rest_eq {p : Pattern} {m : Match} (h : m ∈ p.all text) :
    (∃ before, text = before ++ m.start.rest) ∧ ∃ before, text = before ++ m.stop.rest := by
  obtain ⟨i, j, -, hstart, hstop⟩ := (p.all_scan text).finds m h
  rw [hstart, hstop]
  exact ⟨⟨text.take i, (List.take_append_drop i text).symm⟩,
    ⟨text.take j, (List.take_append_drop j text).symm⟩⟩

theorem exists_brace_rest_eq {p : Pattern} {m : Match} (hp : p.Closes (· == '{'))
    (h : m ∈ p.all text) : ∃ before, text = before ++ '{' :: m.stop.rest := by
  obtain ⟨i, j, hfinds⟩ := (p.all_scan text).finds m h
  obtain ⟨hij, c, hc, hbrace⟩ := hp.holds hfinds.spans
  obtain rfl : c = '{' := by simpa using hbrace
  obtain ⟨hlt, hget⟩ := List.getElem?_eq_some_iff.mp hc
  refine ⟨text.take (j - 1), ?_⟩
  rw [hfinds.2.2, on_rest, ← hget, show text.drop j = text.drop (j - 1 + 1) by congr; omega,
    ← List.drop_eq_getElem_cons hlt, List.take_append_drop]

theorem mem_foldl_addNew {candidates found : List Function}
    (h : f ∈ candidates.foldl addNew found) : f ∈ found ∨ f ∈ candidates := by
  induction candidates generalizing found with
  | nil => exact .inl h
  | cons g candidates ih =>
    rcases ih h with hf | hf
    · rw [addNew] at hf
      split at hf
      · exact .inl hf
      · exact (List.mem_cons.mp hf).symm.imp_right fun hfg => by simp [hfg]
    · exact .inr (List.mem_cons_of_mem g hf)

theorem exists_match_of_mem_script (h : f ∈ script score text) :
    (∃ m ∈ scriptFunction.all text, f = ofScriptFunction score m) ∨
      (∃ m ∈ scriptArrow.all text, f = ofScriptArrow score m) ∨
      ∃ m ∈ scriptMethod.all text, f = ofScriptMethod score m := by
  rw [script, List.mem_reverse] at h
  have hcandidate := (mem_foldl_addNew h).resolve_left List.not_mem_nil
  simpa only [List.mem_append, List.mem_map, or_assoc, eq_comm] using hcandidate

theorem scoredIn_script (h : f ∈ script score text) : ScoredIn score text f := by
  rcases exists_match_of_mem_script h with ⟨m, hm, rfl⟩ | ⟨m, hm, rfl⟩ | ⟨m, hm, rfl⟩
  · obtain ⟨before, hbefore⟩ := (exists_rest_eq hm).2
    exact ⟨_, Body.excerpt_braced hbefore, rfl⟩
  · obtain ⟨before, hbefore⟩ := (exists_rest_eq hm).1
    exact ⟨_, Body.excerpt_ofArrow hbefore, rfl⟩
  · have hcloses : scriptMethod.Closes (· == '{') := fun x hx => hx
    obtain ⟨before, hbefore⟩ := exists_brace_rest_eq hcloses hm
    exact ⟨_, Body.excerpt_bracedOpen hbefore, rfl⟩

theorem scoredIn_python (h : f ∈ python score text) : ScoredIn score text f := by
  obtain ⟨m, -, rfl⟩ := List.mem_map.mp h
  exact ⟨_, Body.excerpt_indented _ (List.take_append_drop _ (lines text)).symm, rfl⟩

theorem ofTypedMethod?_eq_some {m : Match} (h : ofTypedMethod? score m = some f) :
    f.line = lineOfGroup m 2 ∧ f.complexity = score (Body.bracedOpen m.stop.rest) := by
  rw [ofTypedMethod?] at h
  split at h
  · cases h
  · obtain rfl := Option.some.inj h
    exact ⟨rfl, rfl⟩

theorem scoredIn_typed {modifiers : List String}
    (h : f ∈ typed (typedMethod modifiers) score text) : ScoredIn score text f := by
  have hcloses : (typedMethod modifiers).Closes (· == '{') := fun x hx => hx
  obtain ⟨m, hm, hf⟩ := List.mem_filterMap.mp h
  obtain ⟨before, hbefore⟩ := exists_brace_rest_eq hcloses hm
  exact ⟨_, Body.excerpt_bracedOpen hbefore, (ofTypedMethod?_eq_some hf).2⟩

theorem scoredIn_ofHead {head : Pattern} (hhead : head.Closes (· == '{')) {m : Match}
    (hm : m ∈ head.all text) (result : Option (List Char)) :
    ScoredIn score text (ofHead score m result) := by
  obtain ⟨before, hbefore⟩ := exists_brace_rest_eq hhead hm
  exact ⟨_, Body.excerpt_bracedOpen hbefore, rfl⟩

theorem scoredIn_go (h : f ∈ go score text) : ScoredIn score text f := by
  obtain ⟨m, hm, rfl⟩ := List.mem_map.mp h
  have hcloses : goHead.Closes (· == '{') := fun x hx => hx
  exact scoredIn_ofHead hcloses hm _

theorem scoredIn_rust (h : f ∈ rust score text) : ScoredIn score text f := by
  obtain ⟨m, hm, rfl⟩ := List.mem_map.mp h
  have hcloses : rustHead.Closes (· == '{') := fun x hx => hx
  exact scoredIn_ofHead hcloses hm _

theorem scoredIn_php (h : f ∈ php score text) : ScoredIn score text f := by
  obtain ⟨m, hm, rfl⟩ := List.mem_map.mp (List.mem_of_mem_filter h)
  have hcloses : phpHead.Closes (· == '{') := fun x hx => hx
  exact scoredIn_ofHead hcloses hm _

theorem scoredIn_ruby (h : f ∈ ruby score text) : ScoredIn score text f := by
  obtain ⟨m, -, rfl⟩ := List.mem_map.mp h
  exact ⟨_, Body.excerpt_untilEnd (List.take_append_drop _ (lines text)).symm, rfl⟩

end Functions

end CodeCensus
