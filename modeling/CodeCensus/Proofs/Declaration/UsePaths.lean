import CodeCensus.Declaration.Imports
import CodeCensus.Proofs.Text.Class
import CodeCensus.Proofs.Text.Cutting
import CodeCensus.Proofs.Text.Words

/-! Paths with an alias. With single spaces in its gaps, such a path has no other `as` than the one before its alias,
and its last segment stands behind the last pair of colons, so what it binds is read off its end. -/

namespace CodeCensus

open Text Imports

/-! ## Paths as written -/

/-- A pair of colons with the blanks around it, and the segment behind it. -/
structure UseStep where
  before : List Char
  after : List Char
  segment : List Char

structure UsePath where
  first : List Char
  steps : List UseStep

/-- The word `as` with the blanks around it, and the name behind it. -/
structure UseAlias where
  before : List Char
  after : List Char
  name : List Char

structure UseName where
  path : UsePath
  alias? : Option UseAlias

/-- A step with each gap in a certain form. -/
def UseStep.render (space : List Char → List Char) (s : UseStep) : List Char :=
  space s.before ++ ("::".toList ++ (space s.after ++ s.segment))

def UsePath.render (space : List Char → List Char) (p : UsePath) : List Char :=
  p.first ++ p.steps.flatMap (UseStep.render space)

def UseAlias.render (space : List Char → List Char) (a : UseAlias) : List Char :=
  space a.before ++ ("as".toList ++ (space a.after ++ a.name))

def UseName.render (space : List Char → List Char) (n : UseName) : List Char :=
  n.path.render space ++ (n.alias?.map (UseAlias.render space)).getD []

def UsePath.last (p : UsePath) : List Char := (p.steps.getLast?.map UseStep.segment).getD p.first

/-- The name that a path binds: its alias, and without one its last segment. -/
def UseName.bound (n : UseName) : List Char := (n.alias?.map UseAlias.name).getD n.path.last

/-- A word that is no mark of a use tree. -/
structure IsUseWord (word : List Char) : Prop where
  ne_nil : word ≠ []
  isSolid : ∀ c ∈ word, isBlank c = false ∧ c ∉ [',', ':', '\x7b', '\x7d', ';']
  ne_as : word ≠ "as".toList

structure UseStep.IsProper (s : UseStep) : Prop where
  before_isBlanks : IsBlanks s.before
  after_isBlanks : IsBlanks s.after
  segment_isWord : IsUseWord s.segment

structure UsePath.IsProper (p : UsePath) : Prop where
  first_isWord : IsUseWord p.first
  steps_areProper : ∀ s ∈ p.steps, s.IsProper

structure UseAlias.IsProper (a : UseAlias) : Prop where
  before_isBlanks : IsBlanks1 a.before
  after_isBlanks : IsBlanks1 a.after
  name_isWord : IsUseWord a.name

structure UseName.IsProper (n : UseName) : Prop where
  path_isProper : n.path.IsProper
  alias_isProper : ∀ a ∈ n.alias?, a.IsProper

/-- A path without steps, or one with an alias. -/
def UseName.IsShort (n : UseName) : Prop := n.path.steps = [] ∨ n.alias?.isSome = true

/-! ## Words -/

variable {word rest front : List Char} {p : UsePath} {n : UseName}

namespace IsUseWord

theorem not_mem (h : IsUseWord word) {c : Char} (hc : isBlank c = true ∨ c ∈ [',', ':', '\x7b', '\x7d', ';']) : c ∉ word := by
  intro hmem
  obtain ⟨hblank, hmark⟩ := h.isSolid c hmem
  rcases hc with hc | hc
  · rw [hc] at hblank
    cases hblank
  · exact hmark hc

theorem head? (h : IsUseWord word) (rest : List Char) : ∃ c ∈ (word ++ rest).head?, isBlank c = false := by
  obtain ⟨c, word, rfl⟩ := List.exists_cons_of_ne_nil h.ne_nil
  exact ⟨c, rfl, (h.isSolid c List.mem_cons_self).1⟩

theorem getLast? (h : IsUseWord word) :
    ∃ c ∈ word.getLast?, isBlank c = false ∧ c ∉ [',', ':', '\x7b', '\x7d', ';'] :=
  ⟨_, List.getLast?_eq_some_getLast h.ne_nil, h.isSolid _ (List.getLast_mem h.ne_nil)⟩

theorem getLast?_letter (h : IsUseWord word) : ∃ c ∈ word.getLast?, isBlank c = false := by
  obtain ⟨c, hc, hblank, -⟩ := h.getLast?
  exact ⟨c, hc, hblank⟩

theorem squeezed_eq (h : IsUseWord word) : squeezed word = word :=
  squeezed_of_forall h.ne_nil fun c hc => (h.isSolid c hc).1

theorem not_as_isPrefix (h : IsUseWord word) (hrest : ∀ c ∈ rest.head?, c ≠ 's') : ¬ "as ".toList <+: word ++ rest :=
  Text.not_as_isPrefix h.ne_nil (h.not_mem (.inl (by decide))) h.ne_as hrest

end IsUseWord

/-! ## Gaps with single spaces -/

theorem exists_getLast?_append {p : Char → Prop} {back : List Char} (h : ∃ c ∈ back.getLast?, p c) (front : List Char) :
    ∃ c ∈ (front ++ back).getLast?, p c := by
  obtain ⟨c, hc, hp⟩ := h
  have hne : back ≠ [] := fun hnil => by simp [hnil] at hc
  exact ⟨c, by rwa [List.getLast?_append_of_ne_nil _ hne], hp⟩

theorem squeezed_steps (hfront : ∃ c ∈ front.getLast?, isBlank c = false) {steps : List UseStep}
    (hsteps : ∀ s ∈ steps, s.IsProper) :
    squeezed (front ++ steps.flatMap (UseStep.render id)) = squeezed front ++ steps.flatMap (UseStep.render pinch) := by
  induction steps generalizing front with
  | nil => rw [List.flatMap_nil, List.flatMap_nil, List.append_nil, List.append_nil]
  | cons s steps ih =>
    obtain ⟨hs, hsteps⟩ := List.forall_mem_cons.mp hsteps
    have hsegment := hs.segment_isWord
    have hcolons : squeezed ("::".toList ++ (s.after ++ (s.segment ++ steps.flatMap (UseStep.render id)))) =
        "::".toList ++ (pinch s.after ++ (s.segment ++ steps.flatMap (UseStep.render pinch))) := by
      rw [squeezed_append ⟨':', rfl, by decide⟩ hs.after_isBlanks (hsegment.head? _), ih hsegment.getLast?_letter hsteps, hsegment.squeezed_eq]
      rfl
    have hmore : (UseStep.render id s) ++ steps.flatMap (UseStep.render id) =
        s.before ++ ("::".toList ++ (s.after ++ (s.segment ++ steps.flatMap (UseStep.render id)))) := by
      rw [UseStep.render, List.append_assoc, List.append_assoc, List.append_assoc]
      rfl
    rw [List.flatMap_cons, hmore, squeezed_append hfront hs.before_isBlanks ⟨':', rfl, by decide⟩, hcolons,
      List.flatMap_cons, UseStep.render, List.append_assoc, List.append_assoc, List.append_assoc]

theorem UsePath.IsProper.getLast? (hp : p.IsProper) (space : List Char → List Char) :
    ∃ c ∈ (p.render space).getLast?, isBlank c = false ∧ c ∉ [',', ':', '\x7b', '\x7d', ';'] := by
  rw [UsePath.render]
  rcases List.eq_nil_or_concat' p.steps with hnil | ⟨steps, s, hsteps⟩
  · rw [hnil, List.flatMap_nil, List.append_nil]
    exact hp.first_isWord.getLast?
  · have hs := hp.steps_areProper s (by rw [hsteps]; simp)
    rw [hsteps, List.flatMap_append, List.flatMap_singleton, UseStep.render, ← List.append_assoc, ← List.append_assoc,
      ← List.append_assoc, ← List.append_assoc]
    exact exists_getLast?_append hs.segment_isWord.getLast? _

theorem UsePath.IsProper.squeezed_render (hp : p.IsProper) : squeezed (p.render id) = p.render pinch := by
  rw [UsePath.render, squeezed_steps hp.first_isWord.getLast?_letter hp.steps_areProper, hp.first_isWord.squeezed_eq]
  rfl

theorem UseName.IsProper.squeezed_render (hn : n.IsProper) : squeezed (n.render id) = n.render pinch := by
  rw [UseName.render, UseName.render]
  cases halias : n.alias? with
  | none =>
    rw [Option.map_none, Option.map_none, Option.getD_none, List.append_nil, List.append_nil,
      hn.path_isProper.squeezed_render]
  | some a =>
    have ha := hn.alias_isProper a halias
    obtain ⟨c, hc, hblank, -⟩ := hn.path_isProper.getLast? id
    have hword : squeezed ("as".toList ++ (a.after ++ a.name)) = "as".toList ++ (pinch a.after ++ a.name) := by
      have hhead := ha.name_isWord.head? []
      rw [List.append_nil] at hhead
      rw [squeezed_append ⟨'s', rfl, by decide⟩ ha.after_isBlanks.2 hhead, ha.name_isWord.squeezed_eq]
      rfl
    rw [Option.map_some, Option.map_some, Option.getD_some, Option.getD_some, UseAlias.render, UseAlias.render, id, id,
      squeezed_append ⟨c, hc, hblank⟩ ha.before_isBlanks.2 ⟨'a', rfl, by decide⟩, hword,
      hn.path_isProper.squeezed_render]

/-! ## What is read off a path -/

/-- Before anything but a letter, the search for an alias passes over a text. -/
def LacksAlias (front : List Char) : Prop :=
  ∀ more : List Char, (∀ c ∈ more.head?, c ≠ 's') → Passes " as ".toList front more

theorem passes_pinch {gap : List Char} (h : ¬ "as ".toList <+: rest) : Passes " as ".toList (pinch gap) rest := by
  rcases pinch_eq_or gap with hgap | hgap
  · rw [hgap]
    exact passes_nil _ rest
  · rw [hgap]
    exact passes_singleton fun hprefix => h (List.cons_prefix_cons.mp hprefix).2

theorem IsUseWord.lacksAlias (h : IsUseWord word) (gap : List Char) : LacksAlias (pinch gap ++ word) :=
  fun more hmore => (passes_pinch (h.not_as_isPrefix hmore)).append
    (passes_of_not_mem rfl (h.not_mem (.inl (by decide))) more)

theorem head?_steps_append (steps : List UseStep) (hrest : ∀ c ∈ rest.head?, c ≠ 's') :
    ∀ c ∈ (steps.flatMap (UseStep.render pinch) ++ rest).head?, c ≠ 's' := by
  cases steps with
  | nil => exact hrest
  | cons s steps =>
    rw [List.flatMap_cons, UseStep.render]
    rcases pinch_eq_or s.before with hgap | hgap
    · rw [hgap]
      rintro c ⟨⟩
      decide
    · rw [hgap]
      rintro c ⟨⟩
      decide

theorem lacksAlias_steps {steps : List UseStep} (hsteps : ∀ s ∈ steps, s.IsProper) :
    LacksAlias (steps.flatMap (UseStep.render pinch)) := by
  intro more hmore
  induction steps with
  | nil => exact passes_nil _ more
  | cons s steps ih =>
    obtain ⟨hs, hsteps⟩ := List.forall_mem_cons.mp hsteps
    have hsegment := hs.segment_isWord.lacksAlias s.after _ (head?_steps_append steps hmore)
    have hcolons : Passes " as ".toList "::".toList
        ((pinch s.after ++ s.segment) ++ (steps.flatMap (UseStep.render pinch) ++ more)) :=
      passes_of_not_mem rfl (by decide) _
    have hbefore : Passes " as ".toList (pinch s.before)
        (("::".toList ++ (pinch s.after ++ s.segment)) ++ (steps.flatMap (UseStep.render pinch) ++ more)) :=
      passes_pinch fun hprefix => absurd (List.cons_prefix_cons.mp hprefix).1 (by decide)
    rw [List.flatMap_cons]
    exact (hbefore.append (hcolons.append hsegment)).append (ih hsteps)

theorem UsePath.IsProper.lacksAlias (hp : p.IsProper) : LacksAlias (p.render pinch) := by
  intro more hmore
  have hfirst := hp.first_isWord.lacksAlias [] _ (head?_steps_append p.steps hmore)
  exact hfirst.append (lacksAlias_steps hp.steps_areProper more hmore)

theorem aliasOf_append (hfront : LacksAlias front) (hn : n.IsProper) :
    aliasOf (front ++ (n.alias?.map (UseAlias.render pinch)).getD []) = (n.alias?.map UseAlias.name).getD front := by
  cases halias : n.alias? with
  | none =>
    have hnone : cutFirst " as ".toList (front ++ []) = none := hfront [] (by rintro _ ⟨⟩)
    rw [List.append_nil] at hnone
    rw [Option.map_none, Option.map_none, Option.getD_none, Option.getD_none, List.append_nil, aliasOf,
      show [' ', 'a', 's', ' '] = " as ".toList from rfl, getLast?_pieces_of_none hnone, Option.getD_some]
  | some a =>
    have ha := hn.alias_isProper a halias
    have hrender : UseAlias.render pinch a = " as ".toList ++ a.name := by
      rw [UseAlias.render, pinch_of_ne_nil ha.before_isBlanks.1, pinch_of_ne_nil ha.after_isBlanks.1]
      rfl
    have hcut : cutFirst " as ".toList (front ++ (" as ".toList ++ a.name)) = some (front, a.name) := by
      rw [hfront (" as ".toList ++ a.name) (by rintro c ⟨⟩; decide), cutFirst_needle_append (by decide), Option.map_some,
        List.append_nil]
    have hname : cutFirst " as ".toList a.name = none :=
      cutFirst_eq_none (c := ' ') (by decide) (ha.name_isWord.not_mem (.inl (by decide)))
    rw [Option.map_some, Option.map_some, Option.getD_some, Option.getD_some, hrender, aliasOf,
      show [' ', 'a', 's', ' '] = " as ".toList from rfl, getLast?_pieces_of_some (by decide) hcut hname, Option.getD_some]

/-- What is read off a path as one of several: its alias, and without one the whole path. -/
def UseName.read (n : UseName) : List Char := (n.alias?.map UseAlias.name).getD (n.path.render pinch)

theorem UseName.IsProper.aliasOf_render (hn : n.IsProper) : aliasOf (n.render pinch) = n.read :=
  aliasOf_append hn.path_isProper.lacksAlias hn

theorem UseName.read_of_isShort (h : n.IsShort) : n.read = n.bound := by
  rw [read, bound]
  cases halias : n.alias? with
  | some a => rfl
  | none =>
    have hsteps : n.path.steps = [] := h.resolve_right (by rw [halias]; decide)
    rw [Option.map_none, Option.getD_none, Option.getD_none, UsePath.render, UsePath.last, hsteps]
    exact List.append_nil _

theorem UseName.colons_isInfix_read (h : ¬ n.IsShort) : "::".toList <:+: n.read := by
  obtain ⟨hsteps, halias⟩ := not_or.mp h
  have hnone : n.alias? = none := Option.not_isSome_iff_eq_none.mp halias
  obtain ⟨s, steps, hsteps⟩ := List.exists_cons_of_ne_nil hsteps
  rw [read, hnone, Option.map_none, Option.getD_none, UsePath.render, hsteps, List.flatMap_cons, UseStep.render]
  exact ⟨n.path.first ++ pinch s.before, (pinch s.after ++ s.segment) ++ steps.flatMap (UseStep.render pinch), by simp⟩

theorem UseName.IsProper.bound_isWord (hn : n.IsProper) : IsUseWord n.bound := by
  rw [UseName.bound]
  cases halias : n.alias? with
  | some a => exact (hn.alias_isProper a halias).name_isWord
  | none =>
    rw [Option.map_none, Option.getD_none, UsePath.last]
    cases hlast : n.path.steps.getLast? with
    | none => exact hn.path_isProper.first_isWord
    | some s => exact (hn.path_isProper.steps_areProper s (List.mem_of_getLast? hlast)).segment_isWord

theorem UseName.IsProper.getLast? (hn : n.IsProper) (space : List Char → List Char) :
    ∃ c ∈ (n.render space).getLast?, isBlank c = false ∧ c ∉ [',', ':', '\x7b', '\x7d', ';'] := by
  rw [UseName.render]
  cases halias : n.alias? with
  | none =>
    rw [Option.map_none, Option.getD_none, List.append_nil]
    exact hn.path_isProper.getLast? space
  | some a =>
    rw [Option.map_some, Option.getD_some, UseAlias.render, ← List.append_assoc, ← List.append_assoc, ← List.append_assoc]
    exact exists_getLast?_append (hn.alias_isProper a halias).name_isWord.getLast? _

theorem UseName.IsProper.colon_not_mem_alias (hn : n.IsProper) :
    ':' ∉ (n.alias?.map (UseAlias.render pinch)).getD [] := by
  cases halias : n.alias? with
  | none => exact List.not_mem_nil
  | some a =>
    have hpinch (gap : List Char) : ':' ∉ pinch gap := fun hmem => absurd (isBlanks_pinch gap _ hmem) (by decide)
    have hname := (hn.alias_isProper a halias).name_isWord.not_mem (c := ':') (.inr (by decide))
    rw [Option.map_some, Option.getD_some, UseAlias.render]
    exact List.not_mem_append (hpinch _) (List.not_mem_append (by decide) (List.not_mem_append (hpinch _) hname))

theorem IsUseWord.trim_eq (h : IsUseWord word) (gap : List Char) : trim (pinch gap ++ word) = word := by
  rw [trim_append_of_head? (isBlanks_pinch gap), trimEndBy_eq_self fun c hc => (h.isSolid c hc).1]
  intro c hc
  exact (h.isSolid c (List.mem_of_mem_head? hc)).1

/-- What is behind the last colons of a path. -/
theorem trim_aliasOf_end (hn : n.IsProper) (hword : IsUseWord word) (gap : List Char) :
    trim (aliasOf ((pinch gap ++ word) ++ (n.alias?.map (UseAlias.render pinch)).getD [])) =
      (n.alias?.map UseAlias.name).getD word := by
  rw [aliasOf_append (hword.lacksAlias gap) hn]
  cases halias : n.alias? with
  | none => exact hword.trim_eq gap
  | some a => exact (hn.alias_isProper a halias).name_isWord.trim_eq []

theorem usePath_of_cutLast {path source item : List Char}
    (hnone : path.getLast? = some '\x7d' → cutFirst "::\x7b".toList path = none)
    (hcut : (cutLast "::".toList path).getD ([], path) = (source, item)) :
    (usePath path).2 = [String.ofList (trim (aliasOf item))] := by
  have hcut : (cutLast [':', ':'] path).getD ([], path) = (source, item) := hcut
  have hgroup : (if path.getLast? == some '\x7d' then cutFirst [':', ':', '\x7b'] path else none) = none := by
    split
    · rename_i hlast
      exact hnone (beq_iff_eq.mp hlast)
    · rfl
  rw [usePath, hgroup]
  dsimp only
  rw [hcut]

/-- A path alone is read as the name that it binds. -/
theorem UseName.IsProper.usePath_render (hn : n.IsProper) : (usePath (n.render pinch)).2 = [String.ofList n.bound] := by
  obtain ⟨c, hc, -, hmark⟩ := hn.getLast? pinch
  have hlast : (n.render pinch).getLast? ≠ some '\x7d' := by
    rw [hc]
    rintro ⟨⟩
    exact hmark (by decide)
  rcases List.eq_nil_or_concat' n.path.steps with hnil | ⟨steps, s, hsteps⟩
  · have hrender : n.render pinch = n.path.first ++ (n.alias?.map (UseAlias.render pinch)).getD [] := by
      rw [UseName.render, UsePath.render, hnil, List.flatMap_nil, List.append_nil]
    have hbound : n.bound = (n.alias?.map UseAlias.name).getD n.path.first := by
      rw [UseName.bound, UsePath.last, hnil]
      rfl
    have hfirst := hn.path_isProper.first_isWord
    have hcut : cutLast "::".toList (n.render pinch) = none := by
      refine cutLast_eq_none (c := ':') (by decide) ?_
      rw [hrender]
      exact List.not_mem_append (hfirst.not_mem (.inr (by decide))) hn.colon_not_mem_alias
    rw [usePath_of_cutLast (absurd · hlast) (by rw [hcut, Option.getD_none]), hbound, hrender]
    exact congrArg (fun name => [String.ofList name]) (trim_aliasOf_end hn hfirst [])
  · have hs := (hn.path_isProper.steps_areProper s (by rw [hsteps]; simp)).segment_isWord
    have hrender : n.render pinch = (n.path.first ++ (steps.flatMap (UseStep.render pinch) ++ pinch s.before)) ++
        ("::".toList ++ ((pinch s.after ++ s.segment) ++ (n.alias?.map (UseAlias.render pinch)).getD [])) := by
      rw [UseName.render, UsePath.render, hsteps, List.flatMap_append, List.flatMap_singleton, UseStep.render]
      simp only [List.append_assoc]
    have hbound : n.bound = (n.alias?.map UseAlias.name).getD s.segment := by
      rw [UseName.bound, UsePath.last, hsteps, List.getLast?_concat]
      rfl
    have hback : ':' ∉ (pinch s.after ++ s.segment) ++ (n.alias?.map (UseAlias.render pinch)).getD [] := by
      refine List.not_mem_append (List.not_mem_append ?_ (hs.not_mem (.inr (by decide)))) hn.colon_not_mem_alias
      exact fun hmem => absurd (isBlanks_pinch s.after _ hmem) (by decide)
    have hends : "::".toList.getLast? = some ':' := by decide
    have hcut := cutLast_append hends hback
      (n.path.first ++ (steps.flatMap (UseStep.render pinch) ++ pinch s.before))
    rw [hrender] at hlast ⊢
    rw [usePath_of_cutLast (absurd · hlast) (by rw [hcut, Option.getD_some]), hbound, trim_aliasOf_end hn hs s.after]

end CodeCensus
