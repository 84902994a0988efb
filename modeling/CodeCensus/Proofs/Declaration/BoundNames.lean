import CodeCensus.Proofs.Declaration.Names
import CodeCensus.Proofs.Pattern.Words
import CodeCensus.Proofs.Text.Lines

/-! Lists of names that a statement binds, each name with the one that it stands for, if that is another. The name inside
is what stands behind the mark between the two. -/

namespace CodeCensus

open Text Pattern Cursor

/-! ## Lists as written -/

/-- What stands between the name outside and the name inside. -/
inductive AliasMark where
  | word
  | colon

def AliasMark.text : AliasMark → List Char
  | .word => "as".toList
  | .colon => ":".toList

/-- A word is told from the names around it by blanks; a colon needs none. -/
def AliasMark.Admits : AliasMark → List Char → Prop
  | .word => IsBlanks1
  | .colon => IsBlanks

structure LocalAlias where
  before : List Char
  after : List Char
  name : List Char

structure BoundItem where
  before : List Char
  name : List Char
  alias? : Option LocalAlias
  after : List Char

/-- The items of a list, a comma behind each but the last, and a comma or none behind the last. -/
inductive BoundList where
  | none (gap : List Char)
  | last (item : BoundItem)
  | more (item : BoundItem) (rest : BoundList)

variable {mark : AliasMark}

def LocalAlias.text (mark : AliasMark) (a : LocalAlias) : List Char := a.before ++ (mark.text ++ (a.after ++ a.name))

def BoundItem.core (mark : AliasMark) (item : BoundItem) : List Char :=
  item.name ++ (item.alias?.map (LocalAlias.text mark)).getD []

def BoundItem.text (mark : AliasMark) (item : BoundItem) : List Char :=
  item.before ++ (item.core mark ++ item.after)

def BoundItem.bound (item : BoundItem) : List Char := (item.alias?.map LocalAlias.name).getD item.name

def BoundList.text (mark : AliasMark) : BoundList → List Char
  | .none gap => gap
  | .last item => item.text mark
  | .more item rest => item.text mark ++ ',' :: rest.text mark

def BoundList.names : BoundList → List String
  | .none _ => []
  | .last item => [String.ofList item.bound]
  | .more item rest => String.ofList item.bound :: rest.names

/-- A name of a script, of any letters, digits, underscores and dollar signs. -/
structure IsIdentifier (name : List Char) : Prop where
  ne_nil : name ≠ []
  wordOrDollar : ∀ c ∈ name, wordOrDollar c = true

structure LocalAlias.IsProper (mark : AliasMark) (a : LocalAlias) : Prop where
  before_admitted : mark.Admits a.before
  after_admitted : mark.Admits a.after
  name_isIdentifier : IsIdentifier a.name

structure BoundItem.IsProper (mark : AliasMark) (item : BoundItem) : Prop where
  before_isBlanks : IsBlanks item.before
  name_isIdentifier : IsIdentifier item.name
  alias_isProper : ∀ a ∈ item.alias?, a.IsProper mark
  after_isBlanks : IsBlanks item.after

def BoundList.IsProper (mark : AliasMark) : BoundList → Prop
  | .none gap => IsBlanks gap
  | .last item => item.IsProper mark
  | .more item rest => item.IsProper mark ∧ rest.IsProper mark

/-! ## Characters of a list -/

variable {name gap rest text : List Char} {item : BoundItem} {a : LocalAlias}

namespace IsIdentifier

theorem isBlank (h : IsIdentifier name) {c : Char} (hc : c ∈ name) : Text.isBlank c = false :=
  not_isBlank_of_wordOrDollar (h.wordOrDollar c hc)

theorem not_mem (h : IsIdentifier name) {c : Char} (hc : Pattern.wordOrDollar c = false) : c ∉ name :=
  fun hmem => by simp [h.wordOrDollar c hmem] at hc

theorem head?_append (h : IsIdentifier name) (rest : List Char) :
    ∀ c ∈ (name ++ rest).head?, Pattern.wordOrDollar c = true := by
  obtain ⟨first, more, rfl⟩ := List.exists_cons_of_ne_nil h.ne_nil
  intro c hc
  obtain rfl : first = c := Option.some.inj hc
  exact h.wordOrDollar first List.mem_cons_self

theorem trim_eq (h : IsIdentifier name) : trim name = name :=
  trim_eq_self (fun _ hc => h.isBlank (List.mem_of_mem_head? hc)) fun _ hc => h.isBlank (List.mem_of_mem_getLast? hc)

end IsIdentifier

theorem AliasMark.Admits.isBlanks (h : mark.Admits gap) : IsBlanks gap := by
  cases mark with
  | word => exact h.2
  | colon => exact h

/-- The characters of an item: those of names, of the mark, and blanks. -/
def AliasMark.itemChar (mark : AliasMark) (c : Char) : Bool := wordOrDollar c || isBlank c || mark.text.contains c

theorem LocalAlias.IsProper.itemChar (ha : a.IsProper mark) {c : Char} (hc : c ∈ a.text mark) : mark.itemChar c = true := by
  rw [AliasMark.itemChar, Bool.or_eq_true, Bool.or_eq_true, List.contains_iff_mem]
  rw [LocalAlias.text, List.mem_append, List.mem_append, List.mem_append] at hc
  rcases hc with hc | hc | hc | hc
  · exact .inl (.inr (ha.before_admitted.isBlanks c hc))
  · exact .inr hc
  · exact .inl (.inr (ha.after_admitted.isBlanks c hc))
  · exact .inl (.inl (ha.name_isIdentifier.wordOrDollar c hc))

theorem BoundItem.IsProper.itemChar (hitem : item.IsProper mark) {c : Char} (hc : c ∈ item.text mark) :
    mark.itemChar c = true := by
  have hword (h : wordOrDollar c = true) : mark.itemChar c = true := by rw [AliasMark.itemChar, h]; rfl
  have hblank (h : isBlank c = true) : mark.itemChar c = true := by
    rw [AliasMark.itemChar, h, Bool.or_true]
    rfl
  rw [BoundItem.text, BoundItem.core, List.mem_append, List.mem_append, List.mem_append] at hc
  rcases hc with hc | (hc | hc) | hc
  · exact hblank (hitem.before_isBlanks c hc)
  · exact hword (hitem.name_isIdentifier.wordOrDollar c hc)
  · cases halias : item.alias? with
    | none => simp [halias] at hc
    | some a => exact (hitem.alias_isProper a halias).itemChar (by simpa [halias] using hc)
  · exact hblank (hitem.after_isBlanks c hc)

theorem BoundList.IsProper.listChar : ∀ {list : BoundList}, list.IsProper mark → ∀ c ∈ list.text mark,
    mark.itemChar c = true ∨ c = ','
  | .none _, hgap, c, hc => by
    rw [AliasMark.itemChar, hgap c hc, Bool.or_true]
    exact .inl rfl
  | .last _, hitem, c, hc => .inl (BoundItem.IsProper.itemChar hitem hc)
  | .more _ _, ⟨hitem, hrest⟩, c, hc => by
    rw [BoundList.text, List.mem_append, List.mem_cons] at hc
    rcases hc with hc | hc | hc
    · exact .inl (hitem.itemChar hc)
    · exact .inr hc
    · exact BoundList.IsProper.listChar hrest c hc

/-! ## The name inside -/

theorem localName_opening {c : Char} (h : localName.opening.chars c = true) : isBlank c = true ∨ c = ':' := by
  have hopens : (isBlank c || (isBlank c || c == ':')) = true := h
  simp only [Bool.or_eq_true, beq_iff_eq] at hopens
  tauto

/-- No mark stands from any place in a name on. -/
theorem not_spans_localName (hname : IsIdentifier name) {i k : Nat} (h : text.drop i = name ++ rest) (hik : i ≤ k)
    (hk : k < i + name.length) (e : Nat) : ¬ localName.Spans text k e := by
  intro hspans
  rcases hspans.begins with ⟨-, hempty⟩ | ⟨-, c, hc, hopens⟩
  · exact absurd hempty (by decide)
  · obtain ⟨l, rfl⟩ := Nat.exists_eq_add_of_le hik
    rw [getElem?_of_drop h (by omega)] at hc
    have hword := hname.wordOrDollar c (List.mem_of_getElem? hc)
    rcases localName_opening hopens with hblank | rfl
    · rw [not_wordOrDollar_of_isBlank hblank] at hword
      cases hword
    · exact absurd hword (by decide)

theorem takes_localName (ha : a.IsProper mark) {i : Nat} (h : text.drop i = a.text mark ++ rest) :
    Takes text localName i (i + a.before.length + mark.text.length + a.after.length) [] := by
  have hbefore : text.drop i = a.before ++ (mark.text ++ (a.after ++ (a.name ++ rest))) := by
    rw [h, LocalAlias.text]
    simp only [List.append_assoc]
  have hmark := drop_add_length hbefore
  have hafter := drop_add_length hmark
  have hname : ∀ c ∈ (a.name ++ rest).head?, isBlank c = false := fun c hc =>
    not_isBlank_of_wordOrDollar (ha.name_isIdentifier.head?_append rest c hc)
  have hfront := ha.before_admitted
  have hback := ha.after_admitted
  cases mark with
  | word =>
    have hblanks := takes_blanks1 hbefore hfront (forall_mem_head? (by decide))
    exact (((takes_blanks1 hafter hback hname).after (takes_text hmark)).after hblanks).left
  | colon =>
    have hblanks := takes_blanks hbefore hfront (forall_mem_head? (by decide))
    refine (((takes_blanks hafter hback hname).after (takes_text hmark)).after hblanks).right fun e hspans => ?_
    -- the blanks end at the colon, where the word does not stand
    obtain ⟨j, hgap, m, hword, -⟩ := hspans
    obtain ⟨hij, hrun⟩ := spans_some1.mp hgap
    have hletter : HoldsAt text (· == 'a') j :=
      ⟨'a', by rw [← List.head?_drop, drop_of_spans_text hword]; rfl, rfl⟩
    have hstop := eq_add_of_stop (fun c hc => beq_eq_false_iff_ne.mpr (ne_of_isBlank (hfront c hc) (by decide)))
      (by decide) hbefore (Nat.le_of_lt hij) hrun hletter
    obtain ⟨c, hc, hletter⟩ := hletter
    rw [← List.head?_drop, hstop, hmark] at hc
    obtain rfl : ':' = c := Option.some.inj hc
    cases hletter

/-- The last piece between marks is the name inside. -/
theorem getLast?_split_core (hitem : item.IsProper mark) :
    (localName.split (item.core mark)).getLast? = some item.bound := by
  have hname := hitem.name_isIdentifier
  unfold BoundItem.core BoundItem.bound
  cases halias : item.alias? with
  | none =>
    rw [Option.map_none, Option.getD_none, List.append_nil]
    refine getLast?_split_of_none (by decide) fun k e hspans => ?_
    have hdrop : item.name.drop 0 = item.name ++ [] := (List.append_nil _).symm
    have hlength := hspans.lt_length (by decide)
    exact not_spans_localName hname hdrop (Nat.zero_le k) (by omega) e hspans
  | some a =>
    have ha := hitem.alias_isProper a halias
    rw [Option.map_some, Option.getD_some, Option.map_some, Option.getD_some]
    generalize htext : item.name ++ a.text mark = text
    have hfront : text.drop 0 = item.name ++ a.text mark := htext.symm
    have hdrop : text.drop item.name.length = a.text mark ++ [] := by rw [← htext, List.drop_left, List.append_nil]
    have hinside : text.drop (item.name.length + a.before.length + mark.text.length + a.after.length) = a.name := by
      have hparts : text.drop item.name.length = (a.before ++ (mark.text ++ a.after)) ++ a.name := by
        rw [hdrop, LocalAlias.text]
        simp only [List.append_assoc, List.append_nil]
      rw [← drop_add_length hparts]
      simp only [List.length_append, Nat.add_assoc]
    have hname' : text.drop (item.name.length + a.before.length + mark.text.length + a.after.length) = a.name ++ [] := by
      rw [hinside, List.append_nil]
    rw [getLast?_split_of_takes (by decide) (takes_localName ha hdrop)
      (fun k e hk => not_spans_localName hname hfront (Nat.zero_le k) (by omega) e) fun k e hk hspans => ?_, hinside]
    have hlength := hspans.lt_length (by decide)
    have htotal := congrArg List.length hinside
    rw [List.length_drop] at htotal
    exact not_spans_localName ha.name_isIdentifier hname' hk (by omega) e hspans

theorem getLast?_core (hitem : item.IsProper mark) : ∃ c ∈ (item.core mark).getLast?, isBlank c = false := by
  have hlast (front : List Char) {word : List Char} (h : IsIdentifier word) :
      ∃ c ∈ (front ++ word).getLast?, isBlank c = false :=
    ⟨word.getLast h.ne_nil, by rw [List.getLast?_append_of_ne_nil _ h.ne_nil, List.getLast?_eq_some_getLast h.ne_nil]; rfl,
      h.isBlank (List.getLast_mem h.ne_nil)⟩
  unfold BoundItem.core
  cases halias : item.alias? with
  | none =>
    rw [Option.map_none, Option.getD_none, List.append_nil]
    exact hlast [] hitem.name_isIdentifier
  | some a =>
    rw [Option.map_some, Option.getD_some, LocalAlias.text, ← List.append_assoc, ← List.append_assoc, ← List.append_assoc]
    exact hlast _ (hitem.alias_isProper a halias).name_isIdentifier

theorem trim_text (hitem : item.IsProper mark) : trim (item.text mark) = item.core mark := by
  rw [BoundItem.text, trim, trimBy_append_of_pos hitem.before_isBlanks hitem.after_isBlanks]
  refine trim_eq_self (fun c hc => ?_) fun c hc => ?_
  · exact not_isBlank_of_wordOrDollar (hitem.name_isIdentifier.head?_append _ c hc)
  · obtain ⟨d, hd, hblank⟩ := getLast?_core hitem
    exact Option.some.inj (hd.symm.trans hc) ▸ hblank

theorem BoundItem.bound_isIdentifier (hitem : item.IsProper mark) : IsIdentifier item.bound := by
  unfold BoundItem.bound
  cases halias : item.alias? with
  | none => exact hitem.name_isIdentifier
  | some a => exact (hitem.alias_isProper a halias).name_isIdentifier

theorem boundName?_text (hitem : item.IsProper mark) : boundName? (item.text mark) = some item.bound := by
  have hbound := BoundItem.bound_isIdentifier hitem
  obtain ⟨c, more, hcore⟩ := List.exists_cons_of_ne_nil (l := item.core mark)
    (List.append_ne_nil_of_left_ne_nil hitem.name_isIdentifier.ne_nil _)
  obtain ⟨d, others, hcons⟩ := List.exists_cons_of_ne_nil hbound.ne_nil
  have hlast := getLast?_split_core hitem
  rw [boundName?, trim_text hitem, hcore]
  rw [hcore] at hlast
  dsimp only
  rw [hlast, Option.getD_some, nonBlank?, hbound.trim_eq, hcons]

/-! ## The names of a list -/

theorem boundNames_append_comma (front rest : List Char) :
    boundNames (front ++ ',' :: rest) = boundNames front ++ boundNames rest := by
  rw [boundNames, fields_append_cons, List.filterMap_append, List.map_append]
  rfl

theorem boundNames_of_isBlanks (h : IsBlanks gap) : boundNames gap = [] := by
  have hcomma : ',' ∉ gap := fun hmem => absurd (h _ hmem) (by decide)
  have htrim : trim gap = [] := by
    rw [← List.append_nil gap, trim_blanks_append h]
    rfl
  have hname : boundName? gap = none := by rw [boundName?, htrim]
  rw [boundNames, fields_of_not_mem hcomma, List.filterMap_cons_none hname, List.filterMap_nil, List.map_nil]

theorem boundNames_item (hitem : item.IsProper mark) : boundNames (item.text mark) = [String.ofList item.bound] := by
  have hcomma : ',' ∉ item.text mark := fun hmem => by
    have hchar := hitem.itemChar hmem
    cases mark <;> exact absurd hchar (by decide)
  rw [boundNames, fields_of_not_mem hcomma, List.filterMap_cons_some (boundName?_text hitem), List.filterMap_nil]
  rfl

theorem BoundList.IsProper.boundNames_text : ∀ {list : BoundList}, list.IsProper mark →
    boundNames (list.text mark) = list.names
  | .none _, hgap => boundNames_of_isBlanks hgap
  | .last _, hitem => boundNames_item hitem
  | .more _ _, ⟨hitem, hrest⟩ => by
    rw [BoundList.text, boundNames_append_comma, boundNames_item hitem, BoundList.IsProper.boundNames_text hrest]
    rfl

end CodeCensus
