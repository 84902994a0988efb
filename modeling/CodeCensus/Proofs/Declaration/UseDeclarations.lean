import CodeCensus.Proofs.Declaration.Series
import CodeCensus.Proofs.Declaration.UseGroups
import CodeCensus.Proofs.Pattern.Words

/-! Declarations that use the names of trees of paths. Each declaration is matched once, from the beginning of its line
to its semicolon, and what is read off it depends on its tree alone. -/

namespace CodeCensus

open Text Pattern Cursor Imports

/-! ## Declarations as written -/

structure UseVisibility where
  scope? : Option (List Char)
  gap : List Char

structure UseDeclaration where
  indent : List Char
  visibility? : Option UseVisibility
  gap : List Char
  tree : UseTree
  trail : List Char

def UseVisibility.text (v : UseVisibility) : List Char :=
  "pub".toList ++ ((v.scope?.map fun scope => '(' :: (scope ++ [')'])).getD [] ++ v.gap)

namespace UseDeclaration

def text (d : UseDeclaration) : List Char :=
  d.indent ++ ((d.visibility?.map UseVisibility.text).getD [] ++
    ("use".toList ++ (d.gap ++ ((d.tree.text ++ d.trail) ++ [';']))))

structure IsProper (d : UseDeclaration) : Prop where
  indent_isSpace : ∀ c ∈ d.indent, among [' ', '\t'] c = true
  visibility_isProper : ∀ v ∈ d.visibility?, (∀ scope ∈ v.scope?, ')' ∉ scope) ∧ IsBlanks1 v.gap
  gap_isBlanks : IsBlanks1 d.gap
  tree_isProper : d.tree.IsProper
  trail_isBlanks : IsBlanks d.trail

/-- What is read off a declaration at a line. -/
def record (d : UseDeclaration) (line : Nat) : Import :=
  ⟨(usePath (squeezed d.tree.text)).1, d.tree.reported, line⟩

end UseDeclaration

/-! ## The match of a declaration -/

section Match

variable {text rest : List Char} {i : Nat} {scope? : Option (List Char)} {visibility? : Option UseVisibility}
  {d : UseDeclaration}

def scopeText (scope? : Option (List Char)) : List Char := (scope?.map fun scope => '(' :: (scope ++ [')'])).getD []

def visibilityText (visibility? : Option UseVisibility) : List Char := (visibility?.map UseVisibility.text).getD []

def scopeMark : Pattern := Pattern.optional ["(", .run (beyond [')']), ")"]

def visibilityMark : Pattern := Pattern.optional ["pub", scopeMark, blanks1]

theorem takes_scope (hscope : ∀ scope ∈ scope?, ')' ∉ scope) (hrest : ∀ c ∈ rest.head?, c ≠ '(')
    (h : text.drop i = scopeText scope? ++ rest) :
    Takes text scopeMark i (i + (scopeText scope?).length) [] := by
  cases scope? with
  | none =>
    refine takes_opt_none (not_spans_of_head? (by decide) fun c hc => ?_)
    rw [h] at hc
    exact beq_eq_false_iff_ne.mpr (hrest c hc)
  | some scope =>
    have hopen : text.drop i = "(".toList ++ (scope ++ (")".toList ++ rest)) := by
      rw [h]
      simp [scopeText]
    have hscopeDrop := drop_add_length hopen
    have hclose := drop_add_length hscopeDrop
    have hrun : Takes text (.run (beyond [')'])) (i + "(".toList.length) (i + "(".toList.length + scope.length) [] := by
      refine takes_run hscopeDrop (fun c hc => ?_) (forall_mem_head? (by decide))
      have hne : c ≠ ')' := fun heq => hscope scope rfl (heq ▸ hc)
      simpa [beyond] using hne
    have htaken := ((takes_text hclose).after hrun).after (takes_text hopen)
    have hlength : i + "(".toList.length + scope.length + ")".toList.length = i + (scopeText (some scope)).length := by
      simp [scopeText]
      omega
    rw [hlength] at htaken
    exact htaken.left

theorem takes_visibility (hvisibility : ∀ v ∈ visibility?, (∀ scope ∈ v.scope?, ')' ∉ scope) ∧ IsBlanks1 v.gap)
    (hrest : ∀ c ∈ rest.head?, isBlank c = false ∧ c ≠ 'p') (h : text.drop i = visibilityText visibility? ++ rest) :
    Takes text visibilityMark i (i + (visibilityText visibility?).length) [] := by
  cases visibility? with
  | none =>
    refine takes_opt_none (not_spans_of_head? (by decide) fun c hc => ?_)
    rw [h] at hc
    exact beq_eq_false_iff_ne.mpr (hrest c hc).2
  | some v =>
    obtain ⟨hscope, hgap⟩ := hvisibility v rfl
    have hpub : text.drop i = "pub".toList ++ (scopeText v.scope? ++ (v.gap ++ rest)) := by
      rw [h, visibilityText, Option.map_some, Option.getD_some, UseVisibility.text, scopeText]
      simp only [List.append_assoc]
    have hscopeDrop := drop_add_length hpub
    have hgapDrop := drop_add_length hscopeDrop
    have hopen : ∀ c ∈ (v.gap ++ rest).head?, c ≠ '(' := by
      rintro c hc rfl
      exact absurd (hgap.head?_append rest '(' hc) (by decide)
    have hblanks := takes_blanks1 hgapDrop hgap fun c hc => (hrest c hc).1
    have htaken := (hblanks.after (takes_scope hscope hopen hscopeDrop)).after (takes_text hpub)
    have hlength : i + "pub".toList.length + (scopeText v.scope?).length + v.gap.length =
        i + (visibilityText (some v)).length := by
      simp only [visibilityText, UseVisibility.text, scopeText, Option.map_some, Option.getD_some, List.length_append]
      omega
    rw [hlength] at htaken
    exact htaken.left

/-- A declaration is taken from the beginning of its line to its semicolon. -/
theorem takes_useDeclaration (hd : d.IsProper) (hline : Edge.lineStart.holds (on text i) = true)
    (h : text.drop i = d.text ++ rest) :
    ∃ s : Stretch, s.text = d.tree.text ++ d.trail ∧
      Takes text useDeclaration i (i + d.text.length) [(1, s)] := by
  have hindent : text.drop i = d.indent ++ (visibilityText d.visibility? ++ ("use".toList ++ (d.gap ++
      ((d.tree.text ++ d.trail) ++ (";".toList ++ rest))))) := by
    rw [h, UseDeclaration.text, visibilityText]
    simp
  have hvisible := drop_add_length hindent
  have huse := drop_add_length hvisible
  have hgap := drop_add_length huse
  have htree := drop_add_length hgap
  have hend := drop_add_length htree
  have hspaces := takes_run hindent hd.indent_isSpace fun c hc => by
    cases hvis : d.visibility? with
    | none =>
      rw [hvis] at hc
      exact Option.some.inj hc ▸ by decide
    | some v =>
      rw [hvis] at hc
      exact Option.some.inj hc ▸ by decide
  have hmark := takes_visibility hd.visibility_isProper (forall_mem_head? (by decide)) hvisible
  obtain ⟨first, hfirst, hsolid⟩ := hd.tree_isProper.head? id (d.trail ++ (";".toList ++ rest))
  rw [← UseTree.text, ← List.append_assoc] at hfirst
  have hblanks := takes_blanks1 hgap hd.gap_isBlanks fun c hc => by
    rw [hfirst] at hc
    exact Option.some.inj hc ▸ hsolid
  have hsemicolon : ∀ c ∈ d.tree.text ++ d.trail, beyond [';'] c = true := by
    intro c hc
    have hne : c ≠ ';' := by
      rintro rfl
      rcases List.mem_append.mp hc with hc | hc
      · exact hd.tree_isProper.semicolon_not_mem hc
      · exact absurd (hd.trail_isBlanks ';' hc) (by decide)
    simpa [beyond] using hne
  have hne : d.tree.text ++ d.trail ≠ [] := by
    obtain ⟨c, hc, -⟩ := hd.tree_isProper.getLast? id
    exact List.append_ne_nil_of_left_ne_nil (fun hnil => by rw [UseTree.text] at hnil; simp [hnil] at hc) _
  have hkept := (takes_some1_of_ne_nil hne htree hsemicolon (forall_mem_head? (by decide))).group (n := 1)
  have htaken := (((((hkept.seq (takes_text hend)).after hblanks).after (takes_text huse)).after hmark).after
    hspaces).after (takes_edge hline)
  have hlength : i + d.indent.length + (visibilityText d.visibility?).length + "use".toList.length + d.gap.length +
      (d.tree.text ++ d.trail).length + ";".toList.length = i + d.text.length := by
    simp only [UseDeclaration.text, visibilityText, List.length_append]
    have hone : ";".toList.length = [';'].length := rfl
    omega
  rw [hlength] at htaken
  exact ⟨_, text_stretch htree, htaken⟩

end Match

/-! ## What is read off declarations -/

/-- What is read off a match of a declaration. -/
def useOf (m : Match) : Import :=
  ⟨(usePath (squeezed (m.groupText 1))).1, (usePath (squeezed (m.groupText 1))).2, m.start.line⟩

theorem rust_eq_filterMap (text : List Char) :
    Imports.rust text = (useDeclaration.all text).filterMap fun m => some (useOf m) :=
  (List.filterMap_eq_map' (f := useOf) ▸ rfl)

namespace UseDeclaration

variable {d : UseDeclaration} {ds : List UseDeclaration}

theorem getLast?_text (d : UseDeclaration) : d.text.getLast? = some ';' := by
  unfold UseDeclaration.text
  simp only [← List.append_assoc]
  exact List.getLast?_concat

theorem readsOn (hd : d.IsProper) :
    useDeclaration.ReadsOn (fun m => some (useOf m)) d.text fun line => [d.record line] := by
  intro above rest habove _
  have hline : Edge.lineStart.holds (on (above ++ (d.text ++ rest)) above.length) = true := lineStart_append habove
  generalize htext : above ++ (d.text ++ rest) = text at hline ⊢
  have hdrop : text.drop above.length = d.text ++ rest := by rw [← htext, List.drop_left]
  obtain ⟨s, hs, htaken⟩ := takes_useDeclaration hd hline hdrop
  have hstart : (on text above.length).line = above.count '\n' + 1 := by rw [line_on, ← htext, List.take_left]
  have hrecord : useOf ⟨⟨on text above.length, on text (above.length + d.text.length)⟩, [(1, s)]⟩ =
      d.record (above.count '\n' + 1) := by
    have hgroup : Match.groupText ⟨⟨on text above.length, on text (above.length + d.text.length)⟩, [(1, s)]⟩ 1 =
        d.tree.text ++ d.trail := hs
    rw [useOf, hgroup, squeezed_append_blanks hd.trail_isBlanks, record, UseTree.reported, ← hstart]
  have hmatch := reads_match (fun m => some (useOf m)) htaken.finds
  rw [Option.toList_some, hrecord] at hmatch
  -- no line begins right behind a semicolon
  refine hmatch.trans (reads_nil (by omega) fun k e hk hlt hspans => ?_)
  obtain ⟨l, hl⟩ : ∃ l, d.text.length = l + 1 :=
    Nat.exists_eq_succ_of_ne_zero fun hnil => by
      rw [List.length_eq_zero_iff] at hnil
      have hlast := d.getLast?_text
      rw [hnil] at hlast
      cases hlast
  have hlength := hspans.lt_length (by decide)
  obtain ⟨j, ⟨hedge, -⟩, -⟩ := hspans
  have hfeed := newline_of_lineStart (by omega) (Nat.le_of_lt hlength) hedge
  rw [show k - 1 = above.length + (d.text.length - 1) by omega, ← List.getElem?_drop, hdrop,
    List.getElem?_append_left (by omega), ← List.getLast?_eq_getElem?, d.getLast?_text] at hfeed
  exact absurd hfeed (by decide)

theorem rust_below (h : ∀ d ∈ ds, d.IsProper) :
    Imports.rust (below text ds) = foundFrom text (fun line d => [d.record line]) 1 ds := by
  rw [rust_eq_filterMap]
  exact filterMap_all_below (by decide) fun d hd => readsOn (h d hd)

/-- Declarations below one another are read in their order, each at its line. The names of one are those that its tree
binds exactly if the tree is a path or an open group, and exactly if no brace, comma or separator is left in a name. -/
theorem rust_useTrees (h : ∀ d ∈ ds, d.IsProper) :
    Imports.rust (below text ds) = foundFrom text (fun line d => [d.record line]) 1 ds ∧
      ∀ d ∈ ds, (d.tree.reported = d.tree.names ↔ d.tree.IsOpen) ∧
        (d.tree.reported = d.tree.names ↔ ∀ name ∈ d.tree.reported, IsPlainName name) :=
  ⟨rust_below h, fun d hd => (h d hd).tree_isProper.reported_eq_names_iff⟩

/-! ## A group within a group -/

def leaf (word : List Char) : UseTree := .name ⟨⟨word, []⟩, none⟩

def nested : UseDeclaration where
  indent := []
  visibility? := none
  gap := [' ']
  tree := .group (some ⟨⟨['a'], []⟩, [], []⟩)
    (.more [] (.group (some ⟨⟨['b'], []⟩, [], []⟩) (.more [] (leaf ['c']) [] (.last [' '] (leaf ['d']) []))) []
      (.last [' '] (leaf ['e']) []))
  trail := []

theorem isUseWord_singleton {c : Char} (hc : isBlank c = false ∧ c ∉ [',', ':', '{', '}', ';']) : IsUseWord [c] where
  ne_nil := List.cons_ne_nil c []
  isSolid := List.forall_mem_singleton.mpr hc
  ne_as h := by
    have hlength : 1 = 2 := congrArg List.length h
    exact absurd hlength (by decide)

theorem isProper_singleton {c : Char} (hc : isBlank c = false ∧ c ∉ [',', ':', '{', '}', ';']) :
    UsePath.IsProper ⟨[c], []⟩ :=
  ⟨isUseWord_singleton hc, List.forall_mem_nil _⟩

theorem leaf_isProper {c : Char} (hc : isBlank c = false ∧ c ∉ [',', ':', '{', '}', ';']) : (leaf [c]).IsProper :=
  ⟨isProper_singleton hc, by rintro _ ⟨⟩⟩

theorem lead_isProper {c : Char} (hc : isBlank c = false ∧ c ∉ [',', ':', '{', '}', ';']) :
    ∀ l ∈ some (UseLead.mk ⟨[c], []⟩ [] []), l.IsProper := by
  rintro _ ⟨⟩
  exact ⟨isProper_singleton hc, List.forall_mem_nil _, List.forall_mem_nil _⟩

theorem nested_isProper : nested.IsProper where
  indent_isSpace := List.forall_mem_nil _
  visibility_isProper := by rintro _ ⟨⟩
  gap_isBlanks := ⟨List.cons_ne_nil _ _, List.forall_mem_singleton.mpr (by decide)⟩
  trail_isBlanks := List.forall_mem_nil _
  tree_isProper := by
    have hnone : IsBlanks [] := List.forall_mem_nil _
    have hspace : IsBlanks [' '] := List.forall_mem_singleton.mpr (by decide)
    have hinner : UseItems.IsProper (.more [] (leaf ['c']) [] (.last [' '] (leaf ['d']) [])) :=
      ⟨hnone, leaf_isProper (by decide), hnone, hspace, leaf_isProper (by decide), hnone⟩
    exact ⟨lead_isProper (by decide), hnone, ⟨lead_isProper (by decide), hinner⟩, hnone, hspace,
      leaf_isProper (by decide), hnone⟩

theorem rust_useTrees_nested : (∀ d ∈ [nested], d.IsProper) ∧
    Imports.rust (below text [nested]) = foundFrom text (fun line d => [d.record line]) 1 [nested] ∧
      ∀ d ∈ [nested], (d.tree.reported = d.tree.names ↔ d.tree.IsOpen) ∧
        (d.tree.reported = d.tree.names ↔ ∀ name ∈ d.tree.reported, IsPlainName name) :=
  have h : ∀ d ∈ [nested], d.IsProper := List.forall_mem_singleton.mpr nested_isProper
  ⟨h, rust_useTrees h⟩

/-- The names of the inner group keep its braces. -/
theorem rust_ne_names_nested : ¬ ∀ d : UseDeclaration, d.IsProper →
    (Imports.rust d.text).map Import.names = [d.tree.names] := by
  intro h
  have hnames := h nested nested_isProper
  have hread : (Imports.rust nested.text).map Import.names = [["b::\x7bc", "d\x7d", "e"]] := by decide +kernel
  have hbound : nested.tree.names = ["c", "d", "e"] := by decide +kernel
  rw [hread, hbound] at hnames
  exact absurd hnames (by decide)

end UseDeclaration

end CodeCensus
