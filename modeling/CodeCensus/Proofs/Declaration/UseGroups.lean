import CodeCensus.Proofs.Declaration.UseTrees

/-! The names that are read off a group. Each text between two commas gives one name. A group whose brace does not stand
right behind its colons is not cut open there, and a group among the items of another is cut at its own commas. Either
way the last brace that closes a group stays in a name. -/

namespace CodeCensus

open Text Imports

/-! ## Items between commas -/

variable {front gap rest text word : List Char}

def useName? (item : List Char) : Option String :=
  match aliasOf (trim item) with
  | [] => none
  | name => some (String.ofList name)

def useNames (list : List Char) : List String := (fields ',' list).filterMap useName?

theorem useName?_of_ne_nil (h : aliasOf (trim text) ≠ []) : useName? text = some (String.ofList (aliasOf (trim text))) := by
  obtain ⟨c, more, heq⟩ := List.exists_cons_of_ne_nil h
  rw [useName?, heq]

theorem useNames_append_comma (front rest : List Char) : useNames (front ++ ',' :: rest) = useNames front ++ useNames rest := by
  rw [useNames, fields_append_cons, List.filterMap_append]
  rfl

theorem useNames_of_isBlanks (h : IsBlanks gap) : useNames gap = [] := by
  have hcomma : ',' ∉ gap := fun hmem => absurd (h _ hmem) (by decide)
  have htrim : trim gap = [] := by
    rw [← List.append_nil gap, trim_blanks_append h]
    rfl
  have hname : useName? gap = none := by
    rw [useName?, htrim]
    rfl
  rw [useNames, fields_of_not_mem hcomma, List.filterMap_cons_none hname, List.filterMap_nil]

theorem UseName.read_ne_nil {n : UseName} (hn : n.IsProper) : n.read ≠ [] := by
  rw [UseName.read]
  cases halias : n.alias? with
  | some a => exact (hn.alias_isProper a halias).name_isWord.ne_nil
  | none => exact List.append_ne_nil_of_left_ne_nil hn.path_isProper.first_isWord.ne_nil _

theorem UseName.IsProper.useNames_render {n : UseName} (hn : n.IsProper) (before after : List Char) :
    useNames (pinch before ++ (n.render pinch ++ pinch after)) = [String.ofList n.read] := by
  have hcomma : ',' ∉ pinch before ++ (n.render pinch ++ pinch after) := by
    have hgap (gap : List Char) : ',' ∉ pinch gap := fun hmem => absurd (isBlanks_pinch gap _ hmem) (by decide)
    exact List.not_mem_append (hgap _) (List.not_mem_append (hn.not_mem_render keepsBlanks_pinch (by decide)) (hgap _))
  have htrim : trim (pinch before ++ (n.render pinch ++ pinch after)) = n.render pinch := by
    obtain ⟨c, hc, hhead⟩ := hn.head? pinch []
    obtain ⟨d, hd, hlast, -⟩ := hn.getLast? pinch
    rw [List.append_nil] at hc
    rw [trim, trimBy_append_of_pos (isBlanks_pinch before) (isBlanks_pinch after)]
    exact trim_eq_self (fun c' hc' => Option.some.inj (hc.symm.trans hc') ▸ hhead)
      fun d' hd' => Option.some.inj (hd.symm.trans hd') ▸ hlast
  have hne : aliasOf (trim (pinch before ++ (n.render pinch ++ pinch after))) ≠ [] := by
    rw [htrim, hn.aliasOf_render]
    exact UseName.read_ne_nil hn
  rw [useNames, fields_of_not_mem hcomma, List.filterMap_cons_some (useName?_of_ne_nil hne), List.filterMap_nil, htrim,
    hn.aliasOf_render]

/-! ## Names that keep a brace -/

theorem getLast?_trim {c : Char} (hc : isBlank c = false) (h : text.getLast? = some c) : (trim text).getLast? = some c := by
  obtain ⟨before, after, heq, hbefore, hafter, -, -⟩ := exists_trim_eq text
  rw [heq] at h
  rcases eq_or_ne after [] with rfl | hne
  · rw [List.append_nil] at h
    rcases eq_or_ne (trim text) [] with hnil | hne
    · rw [hnil, List.append_nil] at h
      rw [hbefore c (List.mem_of_getLast? h)] at hc
      cases hc
    · rwa [List.getLast?_append_of_ne_nil _ hne] at h
  · rw [List.getLast?_append_of_ne_nil _ hne] at h
    rw [hafter c (List.mem_of_getLast? h)] at hc
    cases hc

theorem getLast?_aliasOf {c : Char} (hc : c ≠ ' ') (h : text.getLast? = some c) : (aliasOf text).getLast? = some c := by
  have hneedle : " as ".toList.getLast? ≠ some c := fun heq => hc (Option.some.inj heq).symm
  obtain ⟨last, hlast, hc⟩ := getLast?_getLast?_pieces hneedle (by decide) h
  have hpieces : (pieces [' ', 'a', 's', ' '] text).getLast? = some last := hlast
  rwa [aliasOf, hpieces, Option.getD_some]

/-- The last field of a text is extended by what follows it and holds no separator. -/
theorem exists_mem_fields_append {sep : Char} (hrest : sep ∉ rest) (front : List Char) :
    ∃ before, before ++ rest ∈ fields sep (front ++ rest) := by
  induction front with
  | nil => exact ⟨[], by rw [List.nil_append, fields_of_not_mem hrest]; exact List.mem_singleton_self rest⟩
  | cons c front ih =>
    obtain ⟨before, hmem⟩ := ih
    by_cases hc : c = sep
    · rw [hc, List.cons_append, fields_cons_sep]
      exact ⟨before, List.mem_cons_of_mem _ hmem⟩
    · obtain ⟨first, others, heq⟩ := List.exists_cons_of_ne_nil (fields_ne_nil sep (front ++ rest))
      rw [List.cons_append, fields_cons_of_ne hc heq]
      rw [heq] at hmem
      rcases List.mem_cons.mp hmem with hfirst | hothers
      · exact ⟨c :: before, by rw [List.cons_append, hfirst]; exact List.mem_cons_self⟩
      · exact ⟨before, List.mem_cons_of_mem _ hothers⟩

/-- A closing brace at the end of an item stays in a name. -/
theorem exists_braced_useNames (hgap : IsBlanks gap) (front : List Char) :
    ∃ name ∈ useNames (front ++ '}' :: gap), '}' ∈ name.toList := by
  have hcomma : ',' ∉ '}' :: gap :=
    List.not_mem_cons_of_ne_of_not_mem (by decide) fun hmem => absurd (hgap _ hmem) (by decide)
  obtain ⟨before, hmem⟩ := exists_mem_fields_append hcomma front
  have htrim : (trim (before ++ '}' :: gap)).getLast? = some '}' := by
    have hcut : trim (before ++ '}' :: gap) = trim (before ++ ['}']) := by
      have hblanks := trimBy_append_of_pos (List.forall_mem_nil _) hgap (before ++ ['}'])
      rwa [List.nil_append, List.append_assoc, List.singleton_append] at hblanks
    rw [hcut]
    exact getLast?_trim (by decide) List.getLast?_concat
  have hlast := getLast?_aliasOf (by decide) htrim
  have hne : aliasOf (trim (before ++ '}' :: gap)) ≠ [] := fun hnil => by simp [hnil] at hlast
  refine ⟨_, List.mem_filterMap.mpr ⟨_, hmem, useName?_of_ne_nil hne⟩, ?_⟩
  rw [String.toList_ofList]
  exact List.mem_of_getLast? hlast

/-! ## Items of a group -/

theorem not_isPlainName_of_brace {name : String} (h : '}' ∈ name.toList) : ¬ IsPlainName name := fun hplain => hplain.2.1 h

theorem UseTree.IsProper.useNames_of_isShort {t : UseTree} (ht : t.IsProper) (h : t.IsShort) (before after : List Char) :
    useNames (pinch before ++ (t.render pinch ++ pinch after)) = t.names := by
  cases t with
  | name n =>
    have hread : n.read = n.bound := UseName.read_of_isShort h
    exact (UseName.IsProper.useNames_render ht before after).trans (congrArg (fun name => [String.ofList name]) hread)
  | group lead? items => exact absurd h not_false

theorem UseTree.IsProper.exists_useNames_of_not_isShort {t : UseTree} (ht : t.IsProper) (h : ¬ t.IsShort)
    (before after : List Char) :
    ∃ name ∈ useNames (pinch before ++ (t.render pinch ++ pinch after)), ¬ IsPlainName name := by
  cases t with
  | name n =>
    have hcolons : "::".toList <:+: (String.ofList n.read).toList := by
      rw [String.toList_ofList (l := n.read)]
      exact UseName.colons_isInfix_read h
    refine ⟨String.ofList n.read, ?_, fun hplain => hplain.2.2.2 hcolons⟩
    exact (UseName.IsProper.useNames_render ht before after) ▸ List.mem_singleton_self _
  | group lead? items =>
    have hrender : pinch before ++ ((UseTree.group lead? items).render pinch ++ pinch after) =
        (pinch before ++ ((lead?.map (UseLead.render pinch)).getD [] ++ '{' :: items.render pinch)) ++ '}' :: pinch after := by
      rw [UseTree.render]
      simp
    obtain ⟨name, hname, hbrace⟩ := exists_braced_useNames (isBlanks_pinch after)
      (pinch before ++ ((lead?.map (UseLead.render pinch)).getD [] ++ '{' :: items.render pinch))
    exact ⟨name, hrender ▸ hname, not_isPlainName_of_brace hbrace⟩

theorem UseItems.useNames_more (before after : List Char) (tree : UseTree) (rest : UseItems) :
    useNames ((UseItems.more before tree after rest).render pinch) =
      useNames (pinch before ++ (tree.render pinch ++ pinch after)) ++ useNames (rest.render pinch) := by
  rw [← useNames_append_comma, UseItems.render]
  simp only [List.append_assoc]

theorem UseItems.IsProper.useNames_of_areShort : ∀ {items : UseItems}, items.IsProper → items.AreShort →
    useNames (items.render pinch) = items.names
  | .none gap, _, _ => useNames_of_isBlanks (isBlanks_pinch gap)
  | .last before _ after, ⟨_, htree, _⟩, hshort => htree.useNames_of_isShort hshort before after
  | .more before _ after _, ⟨_, htree, _, hrest⟩, ⟨hshort, hmore⟩ => by
    rw [UseItems.useNames_more, htree.useNames_of_isShort hshort before after,
      UseItems.IsProper.useNames_of_areShort hrest hmore]
    rfl

theorem UseItems.IsProper.exists_useNames_of_not_areShort : ∀ {items : UseItems}, items.IsProper → ¬ items.AreShort →
    ∃ name ∈ useNames (items.render pinch), ¬ IsPlainName name
  | .none _, _, hshort => absurd trivial hshort
  | .last before _ after, ⟨_, htree, _⟩, hshort => htree.exists_useNames_of_not_isShort hshort before after
  | .more before tree after rest, ⟨_, htree, _, hrest⟩, hshort => by
    rw [UseItems.useNames_more]
    by_cases hfirst : tree.IsShort
    · obtain ⟨name, hname, hplain⟩ :=
        UseItems.IsProper.exists_useNames_of_not_areShort hrest fun hmore => hshort ⟨hfirst, hmore⟩
      exact ⟨name, List.mem_append_right _ hname, hplain⟩
    · obtain ⟨name, hname, hplain⟩ := htree.exists_useNames_of_not_isShort hfirst before after
      exact ⟨name, List.mem_append_left _ hname, hplain⟩

/-! ## Groups -/

/-- In front of a brace without colons right before it, no group begins. -/
theorem passes_braced (hfront : '{' ∉ front) (rest : List Char) : Passes "::\x7b".toList front ("::\x7b".toList ++ rest) := by
  induction front with
  | nil => exact passes_nil _ _
  | cons c front ih =>
    obtain ⟨-, hmore⟩ := not_or.mp fun h => hfront (List.mem_cons.mpr h)
    refine (passes_singleton fun hprefix => ?_).append (ih hmore)
    have hletters : [':', ':', '{'] <+: c :: (front ++ (':' :: ':' :: '{' :: rest)) := hprefix
    obtain ⟨-, hletters⟩ := List.cons_prefix_cons.mp hletters
    cases front with
    | nil => exact absurd (List.cons_prefix_cons.mp (List.cons_prefix_cons.mp hletters).2).1 (by decide)
    | cons d front =>
      obtain ⟨-, hletters⟩ := List.cons_prefix_cons.mp hletters
      cases front with
      | nil => exact absurd (List.cons_prefix_cons.mp hletters).1 (by decide)
      | cons e front =>
        obtain rfl : '{' = e := (List.cons_prefix_cons.mp hletters).1
        exact hmore (by simp)

theorem getLast?_group (lead? : Option UseLead) (items : UseItems) :
    ((UseTree.group lead? items).render pinch).getLast? = some '}' := by
  rw [UseTree.render, ← List.cons_append, ← List.append_assoc]
  exact List.getLast?_concat

theorem usePath_of_cutFirst {path source items : List Char} (hlast : path.getLast? = some '}')
    (hcut : cutFirst "::\x7b".toList path = some (source, items)) : (usePath path).2 = useNames items.dropLast := by
  have hcut : cutFirst [':', ':', '{'] path = some (source, items) := hcut
  rw [usePath, if_pos (by simpa using hlast), hcut]
  rfl

/-- A group whose brace stands right behind its colons is cut open at that brace. -/
theorem UseLead.IsProper.usePath_group {l : UseLead} (hl : l.IsProper) (hafter : l.after = []) (items : UseItems) :
    (usePath ((UseTree.group (some l) items).render pinch)).2 = useNames (items.render pinch) := by
  have hrender : (UseTree.group (some l) items).render pinch =
      (l.path.render pinch ++ pinch l.before) ++ ("::\x7b".toList ++ (items.render pinch ++ ['}'])) := by
    rw [UseTree.render, Option.map_some, Option.getD_some, UseLead.render, hafter]
    simp [pinch]
  have hfront : '{' ∉ l.path.render pinch ++ pinch l.before :=
    List.not_mem_append (hl.path_isProper.not_mem_render keepsBlanks_pinch (by decide))
      (keepsBlanks_pinch.not_mem (by decide) hl.before_isBlanks)
  have hcut : cutFirst "::\x7b".toList ((UseTree.group (some l) items).render pinch) =
      some (l.path.render pinch ++ pinch l.before, items.render pinch ++ ['}']) := by
    rw [hrender, passes_braced hfront, cutFirst_needle_append (by decide), Option.map_some, List.append_nil]
  rw [usePath_of_cutFirst (getLast?_group (some l) items) hcut, List.dropLast_concat]

theorem exists_last_of_mem {c : Char} (h : c ∈ text) : ∃ front back, text = front ++ c :: back ∧ c ∉ back := by
  obtain ⟨back, front, heq, hback⟩ := List.eq_append_cons_of_mem (List.mem_reverse.mpr h)
  refine ⟨front.reverse, back.reverse, ?_, by rwa [List.mem_reverse]⟩
  rw [← List.reverse_reverse text, heq]
  simp

/-- Where another group of the items is cut open, the last brace before the end of the whole stays in a name. -/
theorem UseItems.IsProper.exists_useNames_of_open {items : UseItems} (hitems : items.IsProper) {before list : List Char}
    (h : items.render pinch = before ++ '{' :: list) : ∃ name ∈ useNames list, '}' ∈ name.toList := by
  have hcloses := hitems.closesBraces ('{' :: list) (h ▸ List.suffix_append _ _)
  have hmem : '}' ∈ list := by
    rw [List.count_cons_self, List.count_cons_of_ne (by decide)] at hcloses
    exact List.count_pos_iff.mp (by omega)
  obtain ⟨front, back, rfl, hback⟩ := exists_last_of_mem hmem
  obtain ⟨gap, rest, rfl, hgap, hrest⟩ := hitems.settlesBraces (before ++ '{' :: front) back (by rw [h]; simp)
  have hbraced := exists_braced_useNames hgap front
  cases rest with
  | nil => rwa [List.append_nil]
  | cons c rest =>
    obtain rfl : c = ',' := (hrest c rfl).resolve_right fun heq => hback (heq ▸ by simp)
    obtain ⟨name, hname, hbrace⟩ := hbraced
    refine ⟨name, ?_, hbrace⟩
    rw [← List.cons_append, ← List.append_assoc, useNames_append_comma]
    exact List.mem_append_left _ hname

theorem getLast?_behind_colons {path source item : List Char} (hlast : path.getLast? = some '}')
    (hcut : (cutLast "::".toList path).getD ([], path) = (source, item)) : item.getLast? = some '}' := by
  cases hcolons : cutLast "::".toList path with
  | none =>
    rw [hcolons, Option.getD_none] at hcut
    obtain ⟨-, rfl⟩ := Prod.mk.inj hcut
    exact hlast
  | some cut =>
    rw [hcolons, Option.getD_some] at hcut
    rw [hcut] at hcolons
    rw [cutLast_eq_some hcolons, ← List.append_assoc] at hlast
    rcases eq_or_ne item [] with rfl | hne
    · rw [List.append_nil, List.getLast?_append_of_ne_nil _ (by decide)] at hlast
      exact absurd hlast (by decide)
    · rwa [List.getLast?_append_of_ne_nil _ hne] at hlast

/-- A group that is not cut open at its own brace keeps a closing brace in a name. -/
theorem exists_usePath_of_apart {lead items : List Char} (hlead : '{' ∉ lead) (hcolons : ¬ "::".toList <:+ lead)
    (hopen : ∀ before list, items = before ++ '{' :: list → ∃ name ∈ useNames list, '}' ∈ name.toList) :
    ∃ name ∈ (usePath (lead ++ '{' :: (items ++ ['}']))).2, '}' ∈ name.toList := by
  have hlast : (lead ++ '{' :: (items ++ ['}'])).getLast? = some '}' := by
    rw [← List.cons_append, ← List.append_assoc]
    exact List.getLast?_concat
  cases hcut : cutFirst "::\x7b".toList (lead ++ '{' :: (items ++ ['}'])) with
  | none =>
    obtain ⟨source, item, hitem⟩ : ∃ source item,
        (cutLast "::".toList (lead ++ '{' :: (items ++ ['}']))).getD ([], lead ++ '{' :: (items ++ ['}'])) =
          (source, item) := ⟨_, _, rfl⟩
    have hend : (trim (aliasOf item)).getLast? = some '}' :=
      getLast?_trim (by decide) (getLast?_aliasOf (by decide) (getLast?_behind_colons hlast hitem))
    rw [usePath_of_cutLast (fun _ => hcut) hitem]
    refine ⟨_, List.mem_singleton_self _, ?_⟩
    rw [String.toList_ofList]
    exact List.mem_of_getLast? hend
  | some cut =>
    obtain ⟨source, inner⟩ := cut
    have heq : lead ++ '{' :: (items ++ ['}']) = (source ++ "::".toList) ++ '{' :: inner := by
      rw [cutFirst_eq_some hcut]
      simp
    have hinner : ∃ before, items ++ ['}'] = before ++ '{' :: inner := by
      rcases List.append_eq_append_iff.mp heq with ⟨more, hmore, hrest⟩ | ⟨more, hmore, hrest⟩
      · cases more with
        | nil => exact absurd ⟨source, by rw [hmore, List.append_nil]⟩ hcolons
        | cons c more => exact ⟨more, (List.cons.inj hrest).2⟩
      · cases more with
        | nil => exact absurd ⟨source, by rw [hmore, List.append_nil]⟩ hcolons
        | cons c more =>
          obtain rfl : '{' = c := (List.cons.inj hrest).1
          exact absurd (by rw [hmore]; simp) hlead
    obtain ⟨before, hbefore⟩ := hinner
    rw [usePath_of_cutFirst hlast hcut]
    rcases List.eq_nil_or_concat' inner with rfl | ⟨list, d, rfl⟩
    · exact absurd (List.append_inj' hbefore rfl).2 (by decide)
    · rw [List.dropLast_concat]
      refine hopen before list ?_
      rw [← List.cons_append, ← List.append_assoc] at hbefore
      exact (List.append_inj' hbefore rfl).1

/-! ## Trees -/

mutual

theorem UseTree.IsProper.names_arePlain : ∀ {t : UseTree}, t.IsProper → ∀ name ∈ t.names, IsPlainName name
  | .name n, hn => by
    have hbound := UseName.IsProper.bound_isWord hn
    have hcolon : ':' ∉ n.bound := hbound.not_mem (.inr (by decide))
    refine List.forall_mem_singleton.mpr ?_
    rw [IsPlainName, String.toList_ofList (l := n.bound)]
    exact ⟨hbound.mark_not_mem (by decide), hbound.mark_not_mem (by decide), hbound.mark_not_mem (by decide),
      fun hwithin => hcolon (hwithin.mem (by decide))⟩
  | .group _ _, ⟨_, hitems⟩ => UseItems.IsProper.names_arePlain hitems

theorem UseItems.IsProper.names_arePlain : ∀ {items : UseItems}, items.IsProper → ∀ name ∈ items.names, IsPlainName name
  | .none _, _ => List.forall_mem_nil _
  | .last _ _ _, ⟨_, htree, _⟩ => UseTree.IsProper.names_arePlain htree
  | .more _ _ _ _, ⟨_, htree, _, hrest⟩ =>
    List.forall_mem_append.mpr ⟨UseTree.IsProper.names_arePlain htree, UseItems.IsProper.names_arePlain hrest⟩

end

theorem UseTree.IsProper.reported_eq {t : UseTree} (ht : t.IsProper) : t.reported = (usePath (t.render pinch)).2 := by
  rw [UseTree.reported, UseTree.text, ht.squeezed_render]

theorem UseTree.IsProper.reported_of_isOpen {t : UseTree} (ht : t.IsProper) (h : t.IsOpen) : t.reported = t.names := by
  rw [ht.reported_eq]
  cases t with
  | name n => exact UseName.IsProper.usePath_render ht
  | group lead? items =>
    obtain ⟨hlead, hitems⟩ := ht
    cases lead? with
    | none => exact absurd h not_false
    | some l =>
      obtain ⟨hafter, hshort⟩ := h
      exact ((hlead l rfl).usePath_group hafter items).trans (hitems.useNames_of_areShort hshort)

theorem UseLead.IsProper.not_colons_isSuffix {l : UseLead} (hafter : l.after ≠ []) : ¬ "::".toList <:+ l.render pinch := by
  intro hsuffix
  have hlast : (l.render pinch).getLast? = some ' ' := by
    rw [UseLead.render, pinch_of_ne_nil hafter, ← List.append_assoc, ← List.append_assoc]
    exact List.getLast?_concat
  obtain ⟨front, hfront⟩ := hsuffix
  rw [← hfront, List.getLast?_append_of_ne_nil _ (by decide)] at hlast
  exact absurd hlast (by decide)

theorem UseTree.IsProper.exists_reported_of_not_isOpen {t : UseTree} (ht : t.IsProper) (h : ¬ t.IsOpen) :
    ∃ name ∈ t.reported, ¬ IsPlainName name := by
  rw [ht.reported_eq]
  cases t with
  | name n => exact absurd trivial h
  | group lead? items =>
    obtain ⟨hlead, hitems⟩ := ht
    have hapart {lead : List Char} (hmarks : '{' ∉ lead) (hcolons : ¬ "::".toList <:+ lead) :
        ∃ name ∈ (usePath (lead ++ '{' :: (items.render pinch ++ ['}']))).2, ¬ IsPlainName name := by
      obtain ⟨name, hname, hbrace⟩ := exists_usePath_of_apart hmarks hcolons fun before list => hitems.exists_useNames_of_open
      exact ⟨name, hname, not_isPlainName_of_brace hbrace⟩
    cases lead? with
    | none => exact hapart List.not_mem_nil (by decide)
    | some l =>
      by_cases hafter : l.after = []
      · rw [(hlead l rfl).usePath_group hafter]
        exact hitems.exists_useNames_of_not_areShort fun hshort => h ⟨hafter, hshort⟩
      · exact hapart ((hlead l rfl).not_mem_render keepsBlanks_pinch (by decide)) (UseLead.IsProper.not_colons_isSuffix hafter)

/-- The names read off a tree are the names that it binds exactly if it is a path or an open group, and exactly if no
brace, comma or separator is left in one of them. -/
theorem UseTree.IsProper.reported_eq_names_iff {t : UseTree} (ht : t.IsProper) :
    (t.reported = t.names ↔ t.IsOpen) ∧ (t.reported = t.names ↔ ∀ name ∈ t.reported, IsPlainName name) := by
  have hplain : (∀ name ∈ t.reported, IsPlainName name) → t.IsOpen := by
    intro hall
    by_contra hopen
    obtain ⟨name, hname, hmark⟩ := ht.exists_reported_of_not_isOpen hopen
    exact hmark (hall name hname)
  have hnames : t.reported = t.names → ∀ name ∈ t.reported, IsPlainName name := fun heq => heq ▸ ht.names_arePlain
  exact ⟨⟨fun heq => hplain (hnames heq), ht.reported_of_isOpen⟩, hnames, fun hall => ht.reported_of_isOpen (hplain hall)⟩

end CodeCensus
