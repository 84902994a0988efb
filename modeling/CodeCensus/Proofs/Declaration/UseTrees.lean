import CodeCensus.Proofs.Declaration.UsePaths
import CodeCensus.Proofs.Text.Cutting

/-! Trees of paths. A tree with its gaps pinched is cut open at the first pair of colons right before a brace, and its
items are told apart at commas. So the names of a group come out if its brace stands right behind its colons and none of
its items is a group or a longer path without an alias. In all other groups a closing brace, or a pair of colons, is
left in a name. -/

namespace CodeCensus

open Text Imports

/-! ## Trees as written -/

/-- The path in front of a group, with the colons between them and the blanks around these. -/
structure UseLead where
  path : UsePath
  before : List Char
  after : List Char

mutual

inductive UseTree where
  | name (n : UseName)
  | group (lead? : Option UseLead) (items : UseItems)

/-- What stands between two braces: trees with blanks around them, a comma behind each but the last, and a comma or none
behind the last. -/
inductive UseItems where
  | none (gap : List Char)
  | last (before : List Char) (tree : UseTree) (after : List Char)
  | more (before : List Char) (tree : UseTree) (after : List Char) (rest : UseItems)

end

def UseLead.render (space : List Char → List Char) (l : UseLead) : List Char :=
  l.path.render space ++ (space l.before ++ ("::".toList ++ space l.after))

mutual

/-- A tree with each gap in a certain form. -/
def UseTree.render (space : List Char → List Char) : UseTree → List Char
  | .name n => n.render space
  | .group lead? items => (lead?.map (UseLead.render space)).getD [] ++ '{' :: (items.render space ++ ['}'])

def UseItems.render (space : List Char → List Char) : UseItems → List Char
  | .none gap => space gap
  | .last before tree after => space before ++ (tree.render space ++ space after)
  | .more before tree after rest =>
    space before ++ (tree.render space ++ (space after ++ ',' :: rest.render space))

end

def UseTree.text (t : UseTree) : List Char := t.render id

mutual

/-- The names that a tree binds, in the order in which they stand. -/
def UseTree.names : UseTree → List String
  | .name n => [String.ofList n.bound]
  | .group _ items => items.names

def UseItems.names : UseItems → List String
  | .none _ => []
  | .last _ tree _ => tree.names
  | .more _ tree _ rest => tree.names ++ rest.names

end

structure UseLead.IsProper (l : UseLead) : Prop where
  path_isProper : l.path.IsProper
  before_isBlanks : IsBlanks l.before
  after_isBlanks : IsBlanks l.after

mutual

def UseTree.IsProper : UseTree → Prop
  | .name n => n.IsProper
  | .group lead? items => (∀ l ∈ lead?, l.IsProper) ∧ items.IsProper

def UseItems.IsProper : UseItems → Prop
  | .none gap => IsBlanks gap
  | .last before tree after => IsBlanks before ∧ tree.IsProper ∧ IsBlanks after
  | .more before tree after rest => IsBlanks before ∧ tree.IsProper ∧ IsBlanks after ∧ rest.IsProper

end

def UseTree.IsShort : UseTree → Prop
  | .name n => n.IsShort
  | .group _ _ => False

def UseItems.AreShort : UseItems → Prop
  | .none _ => True
  | .last _ tree _ => tree.IsShort
  | .more _ tree _ rest => tree.IsShort ∧ rest.AreShort

/-- A path, or a group of short ones whose brace stands right behind the colons of its path. -/
def UseTree.IsOpen : UseTree → Prop
  | .name _ => True
  | .group none _ => False
  | .group (some lead) items => lead.after = [] ∧ items.AreShort

/-- The names that are read off a tree. -/
def UseTree.reported (t : UseTree) : List String := (usePath (squeezed t.text)).2

/-- A name without braces, commas and separators of paths. -/
def IsPlainName (name : String) : Prop :=
  '{' ∉ name.toList ∧ '}' ∉ name.toList ∧ ',' ∉ name.toList ∧ ¬ "::".toList <:+: name.toList

/-! ## Characters of a tree -/

/-- What a gap becomes is blank. -/
def KeepsBlanks (space : List Char → List Char) : Prop := ∀ gap, IsBlanks gap → IsBlanks (space gap)

theorem keepsBlanks_id : KeepsBlanks id := fun _ h => h

theorem keepsBlanks_pinch : KeepsBlanks pinch := fun gap _ => isBlanks_pinch gap

variable {space : List Char → List Char} {c : Char}

theorem KeepsBlanks.not_mem (h : KeepsBlanks space) (hc : c ∈ [',', '{', '}', ';']) {gap : List Char}
    (hgap : IsBlanks gap) : c ∉ space gap := by
  intro hmem
  have hblank := h gap hgap c hmem
  simp only [List.mem_cons, List.not_mem_nil, or_false] at hc
  rcases hc with rfl | rfl | rfl | rfl <;> exact absurd hblank (by decide)

theorem not_mem_colons (hc : c ∈ [',', '{', '}', ';']) : c ∉ "::".toList := by
  simp only [List.mem_cons, List.not_mem_nil, or_false] at hc
  rcases hc with rfl | rfl | rfl | rfl <;> decide

theorem not_mem_as (hc : c ∈ [',', '{', '}', ';']) : c ∉ "as".toList := by
  simp only [List.mem_cons, List.not_mem_nil, or_false] at hc
  rcases hc with rfl | rfl | rfl | rfl <;> decide

theorem IsUseWord.mark_not_mem {word : List Char} (h : IsUseWord word) (hc : c ∈ [',', '{', '}', ';']) : c ∉ word := by
  refine h.not_mem (.inr ?_)
  simp only [List.mem_cons, List.not_mem_nil, or_false] at hc ⊢
  tauto

theorem UsePath.IsProper.not_mem_render {p : UsePath} (hp : p.IsProper) (h : KeepsBlanks space)
    (hc : c ∈ [',', '{', '}', ';']) : c ∉ p.render space := by
  refine List.not_mem_append (hp.first_isWord.mark_not_mem hc) fun hmem => ?_
  obtain ⟨s, hs, hmem⟩ := List.mem_flatMap.mp hmem
  have hproper := hp.steps_areProper s hs
  refine List.not_mem_append (h.not_mem hc hproper.before_isBlanks) (List.not_mem_append (not_mem_colons hc) ?_) hmem
  exact List.not_mem_append (h.not_mem hc hproper.after_isBlanks) (hproper.segment_isWord.mark_not_mem hc)

theorem UseName.IsProper.not_mem_render {n : UseName} (hn : n.IsProper) (h : KeepsBlanks space)
    (hc : c ∈ [',', '{', '}', ';']) : c ∉ n.render space := by
  refine List.not_mem_append (hn.path_isProper.not_mem_render h hc) ?_
  cases halias : n.alias? with
  | none => exact List.not_mem_nil
  | some a =>
    have ha := hn.alias_isProper a halias
    refine List.not_mem_append (h.not_mem hc ha.before_isBlanks.2) (List.not_mem_append (not_mem_as hc) ?_)
    exact List.not_mem_append (h.not_mem hc ha.after_isBlanks.2) (ha.name_isWord.mark_not_mem hc)

theorem UseLead.IsProper.not_mem_render {l : UseLead} (hl : l.IsProper) (h : KeepsBlanks space)
    (hc : c ∈ [',', '{', '}', ';']) : c ∉ l.render space := by
  refine List.not_mem_append (hl.path_isProper.not_mem_render h hc) ?_
  refine List.not_mem_append (h.not_mem hc hl.before_isBlanks) (List.not_mem_append (not_mem_colons hc) ?_)
  exact h.not_mem hc hl.after_isBlanks

theorem not_mem_leadText {lead? : Option UseLead} (hlead : ∀ l ∈ lead?, l.IsProper) (h : KeepsBlanks space)
    (hc : c ∈ [',', '{', '}', ';']) : c ∉ (lead?.map (UseLead.render space)).getD [] := by
  cases lead? with
  | none => exact List.not_mem_nil
  | some l => exact (hlead l rfl).not_mem_render h hc

mutual

theorem UseTree.IsProper.semicolon_not_mem : ∀ {t : UseTree}, t.IsProper → ';' ∉ t.text
  | .name _, hn => UseName.IsProper.not_mem_render hn keepsBlanks_id (by decide)
  | .group _ _, ⟨hlead, hitems⟩ => by
    refine List.not_mem_append (not_mem_leadText hlead keepsBlanks_id (by decide)) ?_
    refine List.not_mem_cons_of_ne_of_not_mem (by decide) ?_
    exact List.not_mem_append (UseItems.IsProper.semicolon_not_mem hitems) (by decide)

theorem UseItems.IsProper.semicolon_not_mem : ∀ {items : UseItems}, items.IsProper → ';' ∉ items.render id
  | .none _, hgap => keepsBlanks_id.not_mem (by decide) hgap
  | .last _ _ _, ⟨hbefore, htree, hafter⟩ =>
    List.not_mem_append (keepsBlanks_id.not_mem (by decide) hbefore)
      (List.not_mem_append (UseTree.IsProper.semicolon_not_mem htree) (keepsBlanks_id.not_mem (by decide) hafter))
  | .more _ _ _ _, ⟨hbefore, htree, hafter, hrest⟩ => by
    refine List.not_mem_append (keepsBlanks_id.not_mem (by decide) hbefore) ?_
    refine List.not_mem_append (UseTree.IsProper.semicolon_not_mem htree) ?_
    refine List.not_mem_append (keepsBlanks_id.not_mem (by decide) hafter) ?_
    exact List.not_mem_cons_of_ne_of_not_mem (by decide) (UseItems.IsProper.semicolon_not_mem hrest)

end

/-! ## Ends of a tree -/

theorem UsePath.IsProper.head? {p : UsePath} (hp : p.IsProper) (space : List Char → List Char) (rest : List Char) :
    ∃ c ∈ (p.render space ++ rest).head?, isBlank c = false := by
  rw [UsePath.render, List.append_assoc]
  exact hp.first_isWord.head? _

theorem UseName.IsProper.head? {n : UseName} (hn : n.IsProper) (space : List Char → List Char) (rest : List Char) :
    ∃ c ∈ (n.render space ++ rest).head?, isBlank c = false := by
  rw [UseName.render, List.append_assoc]
  exact hn.path_isProper.head? space _

theorem UseTree.IsProper.head? {t : UseTree} (ht : t.IsProper) (space : List Char → List Char) (rest : List Char) :
    ∃ c ∈ (t.render space ++ rest).head?, isBlank c = false := by
  cases t with
  | name n => exact UseName.IsProper.head? ht space rest
  | group lead? items =>
    cases lead? with
    | none => exact ⟨'{', rfl, by decide⟩
    | some l =>
      rw [UseTree.render, Option.map_some, Option.getD_some, UseLead.render, List.append_assoc, List.append_assoc]
      exact (ht.1 l rfl).path_isProper.head? space _

theorem UseTree.IsProper.getLast? {t : UseTree} (ht : t.IsProper) (space : List Char → List Char) :
    ∃ c ∈ (t.render space).getLast?, isBlank c = false := by
  cases t with
  | name n =>
    obtain ⟨c, hc, hblank, -⟩ := UseName.IsProper.getLast? ht space
    exact ⟨c, hc, hblank⟩
  | group lead? items =>
    rw [UseTree.render, ← List.cons_append, ← List.append_assoc]
    exact ⟨'}', List.getLast?_concat, by decide⟩

/-! ## Trees with single spaces -/

theorem squeezed_singleton (hc : isBlank c = false) : squeezed [c] = [c] :=
  squeezed_of_forall (List.cons_ne_nil c []) (List.forall_mem_singleton.mpr hc)

theorem UseLead.IsProper.squeezed_append {l : UseLead} (hl : l.IsProper) {rest : List Char}
    (hrest : ∃ c ∈ rest.head?, isBlank c = false) :
    squeezed (l.render id ++ rest) = l.render pinch ++ squeezed rest := by
  obtain ⟨c, hc, hblank, -⟩ := hl.path_isProper.getLast? id
  have hcolons : squeezed ("::".toList ++ (l.after ++ rest)) = "::".toList ++ (pinch l.after ++ squeezed rest) := by
    rw [Text.squeezed_append ⟨':', rfl, by decide⟩ hl.after_isBlanks hrest]
    rfl
  rw [UseLead.render, UseLead.render, id, id, List.append_assoc, List.append_assoc, List.append_assoc,
    Text.squeezed_append ⟨c, hc, hblank⟩ hl.before_isBlanks ⟨':', rfl, by decide⟩, hcolons,
    hl.path_isProper.squeezed_render, List.append_assoc, List.append_assoc, List.append_assoc]

mutual

theorem UseTree.IsProper.squeezed_render : ∀ {t : UseTree}, t.IsProper → squeezed (t.render id) = t.render pinch
  | .name _, hn => UseName.IsProper.squeezed_render hn
  | .group lead? _, ⟨hlead, hitems⟩ => by
    have hbraces := UseItems.IsProper.squeezed_render hitems (c := '{') (by decide)
    rw [UseTree.render, UseTree.render]
    cases lead? with
    | none => exact hbraces
    | some l => exact ((hlead l rfl).squeezed_append ⟨'{', rfl, by decide⟩).trans (congrArg _ hbraces)

theorem UseItems.IsProper.squeezed_render : ∀ {items : UseItems}, items.IsProper → ∀ {c : Char}, isBlank c = false →
    squeezed (c :: (items.render id ++ ['}'])) = c :: (items.render pinch ++ ['}'])
  | .none gap, hgap, c, hc => by
    have hends : squeezed ([c] ++ (gap ++ ['}'])) = squeezed [c] ++ (pinch gap ++ squeezed ['}']) :=
      squeezed_append ⟨c, rfl, hc⟩ hgap ⟨'}', rfl, by decide⟩
    rwa [squeezed_singleton hc, squeezed_singleton (by decide)] at hends
  | .last before tree after, ⟨hbefore, htree, hafter⟩, c, hc => by
    have hends : squeezed ([c] ++ (before ++ (tree.render id ++ (after ++ ['}'])))) =
        [c] ++ (pinch before ++ (tree.render pinch ++ (pinch after ++ ['}']))) := by
      rw [squeezed_append ⟨c, rfl, hc⟩ hbefore (htree.head? id _), squeezed_singleton hc,
        squeezed_append (htree.getLast? id) hafter ⟨'}', rfl, by decide⟩, UseTree.IsProper.squeezed_render htree,
        squeezed_singleton (by decide)]
    rw [UseItems.render, UseItems.render, List.append_assoc, List.append_assoc, List.append_assoc, List.append_assoc]
    exact hends
  | .more before tree after rest, ⟨hbefore, htree, hafter, hrest⟩, c, hc => by
    have hcomma := UseItems.IsProper.squeezed_render hrest (c := ',') (by decide)
    have hends : squeezed ([c] ++ (before ++ (tree.render id ++ (after ++ (',' :: (rest.render id ++ ['}'])))))) =
        [c] ++ (pinch before ++ (tree.render pinch ++ (pinch after ++ (',' :: (rest.render pinch ++ ['}']))))) := by
      rw [squeezed_append ⟨c, rfl, hc⟩ hbefore (htree.head? id _), squeezed_singleton hc,
        squeezed_append (htree.getLast? id) hafter ⟨',', rfl, by decide⟩, UseTree.IsProper.squeezed_render htree, hcomma]
    rw [UseItems.render, UseItems.render, List.append_assoc, List.append_assoc, List.append_assoc, List.append_assoc,
      List.append_assoc, List.append_assoc]
    exact hends

end

/-! ## Braces of a tree -/

variable {front back text gap : List Char}

/-- No end of a text opens more braces than it closes. -/
def ClosesBraces (text : List Char) : Prop := ∀ tail, tail <:+ text → tail.count '{' ≤ tail.count '}'

/-- Behind a closing brace comes, blanks aside, a comma, another one, or nothing. -/
def SettlesBraces (text : List Char) : Prop :=
  ∀ front back, text = front ++ '}' :: back →
    ∃ gap rest, back = gap ++ rest ∧ IsBlanks gap ∧ ∀ c ∈ rest.head?, c = ',' ∨ c = '}'

theorem ClosesBraces.append (h : ClosesBraces front) (h' : ClosesBraces back) : ClosesBraces (front ++ back) := by
  intro tail htail
  rcases suffix_append_iff.mp htail with htail | ⟨more, hmore, rfl⟩
  · exact h' tail htail
  · rw [List.count_append, List.count_append]
    exact Nat.add_le_add (h more hmore) (h' back (List.suffix_refl back))

theorem closesBraces_of_not_mem (h : '{' ∉ text) : ClosesBraces text := by
  intro tail htail
  rw [List.count_eq_zero_of_not_mem fun hmem => h (htail.mem hmem)]
  exact Nat.zero_le _

theorem ClosesBraces.braced (h : ClosesBraces text) : ClosesBraces ('{' :: (text ++ ['}'])) := by
  have hclosed : ClosesBraces (text ++ ['}']) := h.append (closesBraces_of_not_mem (by decide))
  intro tail htail
  rcases List.suffix_cons_iff.mp htail with rfl | htail
  · have hle := h text (List.suffix_refl text)
    rw [List.count_cons_self, List.count_cons_of_ne (by decide), List.count_append, List.count_append]
    exact Nat.add_le_add hle (Nat.le_refl 1)
  · exact hclosed tail htail

theorem settlesBraces_of_not_mem (h : '}' ∉ text) : SettlesBraces text := by
  rintro front back rfl
  exact absurd (List.mem_append_right front List.mem_cons_self) h

theorem SettlesBraces.append_of_not_mem (hfront : '}' ∉ front) (h : SettlesBraces back) : SettlesBraces (front ++ back) := by
  intro front' back' heq
  rcases List.append_eq_append_iff.mp heq with ⟨more, rfl, hback⟩ | ⟨more, hmore, hback⟩
  · exact h more back' hback
  · cases more with
    | nil => exact h [] back' hback.symm
    | cons c more =>
      obtain rfl : '}' = c := (List.cons.inj hback).1
      exact absurd (by rw [hmore]; simp) hfront

/-- Where a comma, a closing brace or nothing follows a text, its last brace is settled too. -/
theorem SettlesBraces.append (h : SettlesBraces front) (hgap : IsBlanks gap) (h' : SettlesBraces back)
    (hback : ∀ c ∈ back.head?, c = ',' ∨ c = '}') : SettlesBraces (front ++ (gap ++ back)) := by
  intro front' back' heq
  rcases List.append_eq_append_iff.mp heq with ⟨more, -, hmore⟩ | ⟨more, hmore, hrest⟩
  · have hmore' := SettlesBraces.append_of_not_mem (fun hmem => absurd (hgap _ hmem) (by decide)) h'
    exact hmore' more back' hmore
  · cases more with
    | nil =>
      have hmore' := SettlesBraces.append_of_not_mem (fun hmem => absurd (hgap _ hmem) (by decide)) h'
      exact hmore' [] back' hrest.symm
    | cons c more =>
      obtain ⟨rfl, rfl⟩ := List.cons.inj hrest
      obtain ⟨inner, rest, rfl, hinner, hhead⟩ := h front' more hmore
      cases rest with
      | nil =>
        refine ⟨inner ++ gap, back, by simp, List.forall_mem_append.mpr ⟨hinner, hgap⟩, hback⟩
      | cons d rest => exact ⟨inner, d :: rest ++ (gap ++ back), by simp, hinner, hhead⟩

mutual

theorem UseTree.IsProper.closesBraces : ∀ {t : UseTree}, t.IsProper → ClosesBraces (t.render pinch)
  | .name _, hn => closesBraces_of_not_mem (UseName.IsProper.not_mem_render hn keepsBlanks_pinch (by decide))
  | .group _ _, ⟨hlead, hitems⟩ =>
    (closesBraces_of_not_mem (not_mem_leadText hlead keepsBlanks_pinch (by decide))).append
      (UseItems.IsProper.closesBraces hitems).braced

theorem UseItems.IsProper.closesBraces : ∀ {items : UseItems}, items.IsProper → ClosesBraces (items.render pinch)
  | .none _, hgap => closesBraces_of_not_mem (keepsBlanks_pinch.not_mem (by decide) hgap)
  | .last _ _ _, ⟨hbefore, htree, hafter⟩ =>
    (closesBraces_of_not_mem (keepsBlanks_pinch.not_mem (by decide) hbefore)).append
      ((UseTree.IsProper.closesBraces htree).append
        (closesBraces_of_not_mem (keepsBlanks_pinch.not_mem (by decide) hafter)))
  | .more _ _ _ rest, ⟨hbefore, htree, hafter, hrest⟩ =>
    have hcomma : ClosesBraces ([','] ++ rest.render pinch) :=
      ClosesBraces.append (closesBraces_of_not_mem (by decide)) (UseItems.IsProper.closesBraces hrest)
    (closesBraces_of_not_mem (keepsBlanks_pinch.not_mem (by decide) hbefore)).append
      ((UseTree.IsProper.closesBraces htree).append
        ((closesBraces_of_not_mem (keepsBlanks_pinch.not_mem (by decide) hafter)).append hcomma))

end

mutual

theorem UseTree.IsProper.settlesBraces : ∀ {t : UseTree}, t.IsProper → SettlesBraces (t.render pinch)
  | .name _, hn => settlesBraces_of_not_mem (UseName.IsProper.not_mem_render hn keepsBlanks_pinch (by decide))
  | .group _ items, ⟨hlead, hitems⟩ => by
    have hbrace : SettlesBraces ['}'] := by
      rintro front back hback
      cases front with
      | nil =>
        obtain rfl : [] = back := (List.cons.inj hback).2
        exact ⟨[], [], rfl, List.forall_mem_nil _, by rintro _ ⟨⟩⟩
      | cons c front => simp at hback
    have hinner : SettlesBraces (items.render pinch ++ ([] ++ ['}'])) :=
      (UseItems.IsProper.settlesBraces hitems).append (List.forall_mem_nil _) hbrace (by rintro c ⟨⟩; exact .inr rfl)
    have hopen : SettlesBraces (['{'] ++ (items.render pinch ++ ['}'])) :=
      SettlesBraces.append_of_not_mem (by decide) hinner
    exact SettlesBraces.append_of_not_mem (not_mem_leadText hlead keepsBlanks_pinch (by decide)) hopen

theorem UseItems.IsProper.settlesBraces : ∀ {items : UseItems}, items.IsProper → SettlesBraces (items.render pinch)
  | .none _, hgap => settlesBraces_of_not_mem (keepsBlanks_pinch.not_mem (by decide) hgap)
  | .last _ _ after, ⟨hbefore, htree, hafter⟩ => by
    have hnone : SettlesBraces [] := settlesBraces_of_not_mem List.not_mem_nil
    have hend := (UseTree.IsProper.settlesBraces htree).append (isBlanks_pinch after) hnone (by rintro _ ⟨⟩)
    rw [List.append_nil] at hend
    exact SettlesBraces.append_of_not_mem (keepsBlanks_pinch.not_mem (by decide) hbefore) hend
  | .more _ _ after rest, ⟨hbefore, htree, hafter, hrest⟩ => by
    have hcomma : SettlesBraces ([','] ++ rest.render pinch) :=
      SettlesBraces.append_of_not_mem (by decide) (UseItems.IsProper.settlesBraces hrest)
    have hend := (UseTree.IsProper.settlesBraces htree).append (isBlanks_pinch after) hcomma
      (by rintro c ⟨⟩; exact .inl rfl)
    exact SettlesBraces.append_of_not_mem (keepsBlanks_pinch.not_mem (by decide) hbefore) hend

end

end CodeCensus
