import CodeCensus.Proofs.Declaration.BodyReturns
import CodeCensus.Proofs.Declaration.HeadEnds

/-! The functions found in a text and in the text without its carriage returns. Where the heads of functions answer
to one another, so do the functions: their names and lines are the same, and their bodies are, but for carriage
returns, of which a scorer takes no notice. -/

namespace CodeCensus

open Text Pattern Cursor

/-- What is compared of functions that are found: the name, the line and the score. -/
def Function.key (f : Function) : String × Nat × Nat := (f.name, f.line, f.complexity)

/-- A scorer to which it makes no difference that line feeds come after carriage returns. -/
def IgnoresReturns (score : Scorer) : Prop := ∀ body, ReturnsEndLines body → score (bare body) = score body

theorem map_eq_of_forall₂ {α β γ : Type} {R : α → β → Prop} {f : α → γ} {f' : β → γ} {l : List α} {l' : List β}
    (h : List.Forall₂ R l l') (hf : ∀ x x', R x x' → f x = f' x') : l.map f = l'.map f' := by
  induction h with
  | nil => rfl
  | cons hx _ ih => rw [List.map_cons, List.map_cons, hf _ _ hx, ih]

theorem filterMap_eq_of_forall₂ {α β γ : Type} {R : α → β → Prop} {f : α → Option γ} {f' : β → Option γ}
    {l : List α} {l' : List β} (h : List.Forall₂ R l l') (hf : ∀ x x', R x x' → f x = f' x') :
    l.filterMap f = l'.filterMap f' := by
  induction h with
  | nil => rfl
  | cons hx _ ih => rw [List.filterMap_cons, List.filterMap_cons, hf _ _ hx, ih]

theorem map_eq_of_rel {α β γ : Type} {r : α → β → Prop} {f : α → γ} {f' : β → γ} {x : Option α} {x' : Option β}
    (h : Option.Rel r x x') (hf : ∀ a a', r a a' → f a = f' a') : x.map f = x'.map f' := by
  cases h with
  | none => rfl
  | some hr => exact congrArg some (hf _ _ hr)

variable {text : List Char} {score : Scorer} {kept : List Nat} {gap : Char → Bool} {m m' : Match} {n : Nat}

namespace Pattern.Answers

theorem text?_eq (h : Answers kept gap text m m') (hn : n ∈ kept) : m.text? n = m'.text? n :=
  map_eq_of_rel (h.groups n hn) fun _ _ hresembles => hresembles.text

theorem groupText_eq (h : Answers kept gap text m m') (hn : n ∈ kept) : m.groupText n = m'.groupText n := by
  rw [Match.groupText, Match.groupText, h.text?_eq hn]

theorem line_eq (h : Answers kept gap text m m') : m.start.line = m'.start.line := by
  obtain ⟨a, hstart, hstart'⟩ := h.start
  rw [hstart, hstart', line_place]

theorem lineOfGroup_eq (h : Answers kept gap text m m') (hn : n ∈ kept) :
    Functions.lineOfGroup m n = Functions.lineOfGroup m' n := by
  have hline : (m.group? n).map (fun s => s.start.line) = (m'.group? n).map fun s => s.start.line :=
    map_eq_of_rel (h.groups n hn) fun _ _ hresembles => hresembles.line
  rw [Functions.lineOfGroup, Functions.lineOfGroup, hline, h.line_eq]

/-- Without a gap, the matches stop at places that answer to one another. -/
theorem exists_stop (h : Answers kept (fun _ => false) text m m') :
    ∃ e, m.stop = on (bare text) (place text e) ∧ m'.stop = on text e := by
  obtain ⟨j, e, f, hstop, hstop', hjf, hef, hgap, hgap'⟩ := h.stop
  have hnone {text : List Char} {i j : Nat} (hij : i ≤ j) (h : Throughout text (fun _ => false) i j) : i = j := by
    refine Nat.le_antisymm hij (Nat.le_of_not_lt fun hlt => ?_)
    obtain ⟨_, -, hfalse⟩ := h.holds hlt
    cases hfalse
  obtain rfl : e = f := hnone hef hgap'
  rw [hnone hjf hgap] at hstop
  exact ⟨e, hstop, hstop'⟩

theorem score_bracedOpen (h : Answers kept (fun _ => false) text m m') (hr : ReturnsEndLines text)
    (hscore : IgnoresReturns score) :
    score (Body.bracedOpen m.stop.rest) = score (Body.bracedOpen m'.stop.rest) := by
  obtain ⟨e, hstop, hstop'⟩ := h.exists_stop
  rw [hstop, hstop', rest_place, Body.bracedOpen_bare]
  exact hscore _ (Body.returnsEndLines_bracedOpen (hr.drop e))

end Pattern.Answers

namespace Functions

/-! ## Languages with a keyword and braces -/

theorem key_ofHead (h : Answers [1] (fun _ => false) text m m') (hr : ReturnsEndLines text)
    (hscore : IgnoresReturns score) (result result' : Option (List Char)) :
    (ofHead score m result).key = (ofHead score m' result').key := by
  rw [ofHead, ofHead, Function.key, Function.key, h.groupText_eq List.mem_cons_self, h.line_eq,
    h.score_bracedOpen hr hscore]

theorem keys_go (hr : ReturnsEndLines text) (hscore : IgnoresReturns score) :
    (go score (bare text)).map Function.key = (go score text).map Function.key := by
  rw [go, go, List.map_map, List.map_map]
  refine map_eq_of_forall₂ ((corresponds_goHead hr).forall₂_all_of_no_gap (by decide)) fun m m' h => ?_
  exact key_ofHead h hr hscore _ _

theorem keys_rust (hr : ReturnsEndLines text) (hscore : IgnoresReturns score) :
    (rust score (bare text)).map Function.key = (rust score text).map Function.key := by
  rw [rust, rust, List.map_map, List.map_map]
  refine map_eq_of_forall₂ ((corresponds_rustHead hr).forall₂_all_of_no_gap (by decide)) fun m m' h => ?_
  exact key_ofHead h hr hscore _ _

/-- What a name decides is decided alike where the names are the same. -/
theorem keys_filter {found found' : List Function} (h : found.map Function.key = found'.map Function.key)
    (p : String → Bool) :
    (found.filter fun f => p f.name).map Function.key = (found'.filter fun f => p f.name).map Function.key := by
  have hfilter (found : List Function) :
      (found.filter fun f => p f.name).map Function.key = (found.map Function.key).filter fun k => p k.1 := by
    rw [List.filter_map]
    rfl
  rw [hfilter, hfilter, h]

theorem keys_php (hr : ReturnsEndLines text) (hscore : IgnoresReturns score) :
    (php score (bare text)).map Function.key = (php score text).map Function.key := by
  refine keys_filter ?_ fun name => !reservedNames.contains name
  rw [List.map_map, List.map_map]
  refine map_eq_of_forall₂ ((corresponds_phpHead hr).forall₂_all_of_no_gap (by decide)) fun m m' h => ?_
  exact key_ofHead h hr hscore _ _

/-! ## Languages that write the type first -/

theorem key_ofTypedMethod? (h : Answers [1, 2] (fun _ => false) text m m') (hr : ReturnsEndLines text)
    (hscore : IgnoresReturns score) :
    (ofTypedMethod? score m).map Function.key = (ofTypedMethod? score m').map Function.key := by
  have htype : m.groupText 1 = m'.groupText 1 := h.groupText_eq (by decide)
  have hname : m.groupText 2 = m'.groupText 2 := h.groupText_eq (by decide)
  have hline : lineOfGroup m 2 = lineOfGroup m' 2 := h.lineOfGroup_eq (by decide)
  rw [ofTypedMethod?, ofTypedMethod?, htype, hname, hline, h.score_bracedOpen hr hscore]
  split <;> rfl

theorem keys_typed {modifiers : List String} (hr : ReturnsEndLines text) (hscore : IgnoresReturns score)
    (hmethod : Corresponds [1, 2] (fun _ => false) text (typedMethod modifiers))
    (hempty : (typedMethod modifiers).opening.mayBeEmpty = false) :
    (typed (typedMethod modifiers) score (bare text)).map Function.key =
      (typed (typedMethod modifiers) score text).map Function.key := by
  rw [typed, typed, List.map_filterMap, List.map_filterMap]
  exact filterMap_eq_of_forall₂ (hmethod.forall₂_all_of_no_gap hempty) fun m m' h => key_ofTypedMethod? h hr hscore

/-! ## Languages whose bodies are lines -/

theorem isRow_of_mem_drop (hr : ReturnsEndLines text) (n : Nat) : ∀ row ∈ (lines text).drop n, Body.IsRow row :=
  fun _ hrow => Body.isRow_of_mem_lines hr (List.mem_of_mem_drop hrow)

theorem keys_python (hr : ReturnsEndLines text) (hscore : IgnoresReturns score) :
    (python score (bare text)).map Function.key = (python score text).map Function.key := by
  rw [python, python, List.map_map, List.map_map]
  refine map_eq_of_forall₂ ((corresponds_pythonHead hr).forall₂_all_of_no_gap (by decide)) fun m m' h => ?_
  have hindent : m.groupText 1 = m'.groupText 1 := h.groupText_eq (by decide)
  have hname : m.groupText 2 = m'.groupText 2 := h.groupText_eq (by decide)
  have hline : lineOfGroup m 2 = lineOfGroup m' 2 := h.lineOfGroup_eq (by decide)
  have hstop : m.stop.line = m'.stop.line := by
    obtain ⟨e, hstop, hstop'⟩ := h.exists_stop
    rw [hstop, hstop', line_place]
  have hrows := isRow_of_mem_drop hr m'.stop.line
  dsimp only [Function.comp_apply, Function.key]
  rw [hindent, hname, hline, hstop, Body.lines_bare, ← List.map_drop, Body.indented_bare _ hrows,
    hscore _ (Body.returnsEndLines_indented _ hrows)]

theorem keys_ruby (hr : ReturnsEndLines text) (hscore : IgnoresReturns score)
    (hhead : Corresponds [1] (fun _ => false) text rubyHead) :
    (ruby score (bare text)).map Function.key = (ruby score text).map Function.key := by
  rw [ruby, ruby, List.map_map, List.map_map]
  refine map_eq_of_forall₂ (hhead.forall₂_all_of_no_gap (by decide)) fun m m' h => ?_
  have hname : m.groupText 1 = m'.groupText 1 := h.groupText_eq (by decide)
  have hrows := isRow_of_mem_drop hr m'.start.line
  dsimp only [Function.comp_apply, Function.key]
  rw [hname, h.line_eq, Body.lines_bare, ← List.map_drop, Body.untilEnd_bare hrows,
    hscore _ (Body.returnsEndLines_untilEnd hrows)]

/-! ## Script languages -/

theorem braced_drop_of_throughout {c : Char → Bool} {i j : Nat} (hij : i ≤ j) (h : Throughout text c i j)
    (hc : c '{' = false) : Body.braced (text.drop i) = Body.braced (text.drop j) := by
  obtain ⟨n, rfl⟩ := Nat.exists_eq_add_of_le hij
  rw [← List.take_append_drop n (text.drop i), List.drop_drop]
  refine Body.braced_append fun hmem => ?_
  obtain ⟨k, hk⟩ := List.mem_iff_getElem?.mp hmem
  rw [List.getElem?_take] at hk
  split at hk
  · rename_i hlt
    rw [List.getElem?_drop] at hk
    have hbrace := (h (i + k) (by omega) (by omega)).eq_true hk
    rw [hc] at hbrace
    cases hbrace
  · cases hk

/-- The block after a head is the same block wherever in the gap after it the head stops. -/
theorem key_ofScriptFunction (h : Answers [1] gapChar text m m') (hr : ReturnsEndLines text)
    (hscore : IgnoresReturns score) : (ofScriptFunction score m).key = (ofScriptFunction score m').key := by
  obtain ⟨j, e, f, hstop, hstop', hjf, hef, hgap, hgap'⟩ := h.stop
  have hblock : Body.braced m.stop.rest = bare (Body.braced m'.stop.rest) := by
    rw [hstop, hstop', on_rest, on_rest, braced_drop_of_throughout hjf hgap (by decide),
      braced_drop_of_throughout hef hgap' (by decide), drop_place, Body.braced_bare]
  have hreturns : ReturnsEndLines (Body.braced m'.stop.rest) := by
    rw [hstop', on_rest]
    exact (hr.drop e).of_isInfix (Body.braced_isInfix _)
  rw [ofScriptFunction, ofScriptFunction, Function.key, Function.key, h.groupText_eq List.mem_cons_self, h.line_eq,
    hblock, hscore _ hreturns]

theorem key_ofScriptArrow (h : Answers [1] (fun _ => false) text m m') (hr : ReturnsEndLines text)
    (hscore : IgnoresReturns score) : (ofScriptArrow score m).key = (ofScriptArrow score m').key := by
  obtain ⟨a, hstart, hstart'⟩ := h.start
  have hbody : Body.ofArrow m.start.rest = bare (Body.ofArrow m'.start.rest) := by
    rw [hstart, hstart', rest_place, on_rest, Body.ofArrow_bare (hr.drop a)]
  have hreturns : ReturnsEndLines (Body.ofArrow m'.start.rest) := by
    rw [hstart', on_rest]
    exact Body.returnsEndLines_ofArrow (hr.drop a)
  rw [ofScriptArrow, ofScriptArrow, Function.key, Function.key, h.groupText_eq List.mem_cons_self, h.line_eq, hbody,
    hscore _ hreturns]

theorem key_ofScriptMethod (h : Answers [1] (fun _ => false) text m m') (hr : ReturnsEndLines text)
    (hscore : IgnoresReturns score) : (ofScriptMethod score m).key = (ofScriptMethod score m').key := by
  have hline : lineOfGroup m 1 = lineOfGroup m' 1 := h.lineOfGroup_eq List.mem_cons_self
  rw [ofScriptMethod, ofScriptMethod, Function.key, Function.key, h.groupText_eq List.mem_cons_self,
    h.score_bracedOpen hr hscore]
  exact congrArg (fun line => (_, line, _)) hline

/-- Whether a function is added is decided by the names and lines of those there already. -/
theorem keys_addNew {found found' : List Function} {f f' : Function}
    (h : found.map Function.key = found'.map Function.key) (hf : f.key = f'.key) :
    (addNew found f).map Function.key = (addNew found' f').map Function.key := by
  have hname : f.name = f'.name := congrArg Prod.fst hf
  have hline : f.line = f'.line := congrArg (fun k => k.2.1) hf
  have hany (found : List Function) : (found.any fun g => g.name == f'.name && g.line == f'.line) =
      (found.map Function.key).any fun k => k.1 == f'.name && k.2.1 == f'.line := by
    rw [List.any_map]
    rfl
  rw [addNew, addNew, hname, hline, hany, hany, h]
  split
  · exact h
  · rw [List.map_cons, List.map_cons, hf, h]

theorem keys_foldl_addNew {found found' candidates candidates' : List Function}
    (h : found.map Function.key = found'.map Function.key)
    (hcandidates : candidates.map Function.key = candidates'.map Function.key) :
    (candidates.foldl addNew found).map Function.key = (candidates'.foldl addNew found').map Function.key := by
  induction candidates generalizing found found' candidates' with
  | nil =>
    obtain rfl := List.map_eq_nil_iff.mp hcandidates.symm
    exact h
  | cons f rest ih =>
    cases candidates' with
    | nil => cases hcandidates
    | cons f' rest' =>
      obtain ⟨hf, hrest⟩ := List.cons.inj hcandidates
      rw [List.foldl_cons, List.foldl_cons]
      exact ih (keys_addNew h hf) hrest

theorem keys_script (hr : ReturnsEndLines text) (hscore : IgnoresReturns score)
    (harrow : ∀ i j, ¬ arrowWithoutResult.Spans (bare text) i j)
    (hmethod : ∀ i j, ¬ methodWithoutResult.Spans (bare text) i j) :
    (script score (bare text)).map Function.key = (script score text).map Function.key := by
  have hgap (x : Char) (hx : gapChar x = true) : scriptFunction.opening.chars x = false :=
    beq_eq_false_iff_ne.mpr (ne_of_class hx (show gapChar 'f' = false by decide))
  have hfunctions : ((scriptFunction.all (bare text)).map (ofScriptFunction score)).map Function.key =
      ((scriptFunction.all text).map (ofScriptFunction score)).map Function.key := by
    rw [List.map_map, List.map_map]
    exact map_eq_of_forall₂ ((corresponds_scriptFunction hr).forall₂_all (by decide) hgap) fun m m' h =>
      key_ofScriptFunction h hr hscore
  have harrows : ((scriptArrow.all (bare text)).map (ofScriptArrow score)).map Function.key =
      ((scriptArrow.all text).map (ofScriptArrow score)).map Function.key := by
    rw [List.map_map, List.map_map]
    exact map_eq_of_forall₂ ((corresponds_scriptArrow hr harrow).forall₂_all_of_no_gap (by decide)) fun m m' h =>
      key_ofScriptArrow h hr hscore
  have hmethods : ((scriptMethod.all (bare text)).map (ofScriptMethod score)).map Function.key =
      ((scriptMethod.all text).map (ofScriptMethod score)).map Function.key := by
    rw [List.map_map, List.map_map]
    exact map_eq_of_forall₂ ((corresponds_scriptMethod hr hmethod).forall₂_all_of_no_gap (by decide)) fun m m' h =>
      key_ofScriptMethod h hr hscore
  rw [script, script, List.map_reverse, List.map_reverse]
  refine congrArg List.reverse (keys_foldl_addNew rfl ?_)
  rw [List.map_append, List.map_append, List.map_append, List.map_append, hfunctions, harrows, hmethods]

end Functions

end CodeCensus
