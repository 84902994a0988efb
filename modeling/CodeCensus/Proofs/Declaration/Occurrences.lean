import CodeCensus.Declaration.Functions
import CodeCensus.Proofs.Declaration.Names

/-! Declarations of a script, told by where their names stand. Three patterns look for them, and a declaration may be
found by two; of those with one name on one line only the first is reported. So every declaration is reported once
if no two of one name share a line and no name is put on two lines, and of these two conditions each is needed
where the other holds. -/

namespace CodeCensus

open Text Pattern Cursor

variable {text : List Char}

/-! ## The three patterns -/

namespace Functions

def afterFunctionName : List Pattern :=
  [blanks, typeParameters, blanks, parameterList 2,
    optional [blanks, ":", blanks, keep 3 [some1 (beyond ['{', ';', '\n'])]]]

def afterArrowName : List Pattern :=
  [blanks, optional [":", some1 (beyond ['=', '\n'])], "=", blanks, optional ["async", blanks1],
    .alt (parameterList 2) (keep 3 [dollarName]), blanks, optional [":", blanks, keep 4 [lazy1 (beyond ['=', '\n'])]],
    blanks, "=>"]

def afterMethodName : List Pattern :=
  [blanks, parameterList 2, blanks,
    optional [":", blanks, keep 3 [lazy1 (beyond ['{', ';', '\n', '(', ')'])]], blanks, "\x7b"]

theorem scriptFunction_eq : scriptFunction =
    inOrder ([wordEdge, "function", blanks, opt "*", blanks] ++ keep 1 [dollarName] :: afterFunctionName) := rfl

theorem scriptArrow_eq : scriptArrow =
    inOrder ([wordEdge, oneWord ["const", "let", "var"], blanks1] ++ keep 1 [dollarName] :: afterArrowName) := rfl

theorem scriptMethod_eq : scriptMethod =
    inOrder ([optional ["async", blanks1]] ++ keep 1 [dollarName] :: afterMethodName) := rfl

theorem endsNames_afterFunctionName : EndsNames afterFunctionName where
  not_mem := by decide
  not_empty := by decide
  chars c hc := by
    have hc : (isBlank c || (c == '<' || false || (isBlank c || c == '('))) = true := hc
    simp only [Bool.or_eq_true, Bool.or_false, beq_iff_eq] at hc
    rcases hc with hc | rfl | hc | rfl
    · exact not_wordOrDollar_of_isBlank hc
    · decide
    · exact not_wordOrDollar_of_isBlank hc
    · decide

theorem endsNames_afterArrowName : EndsNames afterArrowName where
  not_mem := by decide
  not_empty := by decide
  chars c hc := by
    have hc : (isBlank c || (c == ':' || false || c == '=')) = true := hc
    simp only [Bool.or_eq_true, Bool.or_false, beq_iff_eq] at hc
    rcases hc with hc | rfl | rfl
    · exact not_wordOrDollar_of_isBlank hc
    · decide
    · decide

theorem endsNames_afterMethodName : EndsNames afterMethodName where
  not_mem := by decide
  not_empty := by decide
  chars c hc := by
    have hc : (isBlank c || c == '(') = true := hc
    simp only [Bool.or_eq_true, beq_iff_eq] at hc
    rcases hc with hc | rfl
    · exact not_wordOrDollar_of_isBlank hc
    · decide

end Functions

/-! ## Sightings -/

/-- A function that a match tells, and the place of the name that the match captures. -/
structure Sighting where
  place : Nat
  function : Function
  deriving DecidableEq

namespace Sighting

def ofMatch (tell : Match → Function) (m : Match) : Sighting where
  place := ((m.group? 1).map fun s => s.start.pos).getD m.start.pos
  function := tell m

def IsFree (s : Sighting) : Bool := !reservedNames.contains s.function.name

def SameKey (s t : Sighting) : Prop := s.function.name = t.function.name ∧ s.function.line = t.function.line

/-- No declaration is put on two lines. -/
def OneLineEach (found : List Sighting) : Prop :=
  ∀ s ∈ found, ∀ t ∈ found, s.place = t.place → s.function.line = t.function.line

/-- No two declarations of one name are put on one line. -/
def ToldApart (found : List Sighting) : Prop := ∀ s ∈ found, ∀ t ∈ found, s.SameKey t → s.place = t.place

/-- The records are those of some of the sightings, one for each declaration that is seen. -/
def ReportedOnce (found : List Sighting) (records : List Function) : Prop :=
  ∃ kept : List Sighting, kept.Sublist found ∧ kept.map function = records ∧
    ∀ s ∈ found, kept.countP (fun k => k.place == s.place) = 1

theorem SameKey.symm {s t : Sighting} (h : s.SameKey t) : t.SameKey s := ⟨h.1.symm, h.2.symm⟩

theorem SameKey.trans {s t u : Sighting} (h : s.SameKey t) (h' : t.SameKey u) : s.SameKey u :=
  ⟨h.1.trans h'.1, h.2.trans h'.2⟩

end Sighting

namespace Functions

open Sighting

variable {score : Scorer} {records : List Function} {f : Function}

def sightings (score : Scorer) (text : List Char) : List Sighting :=
  (scriptFunction.all text).map (ofMatch (ofScriptFunction score)) ++
    (scriptArrow.all text).map (ofMatch (ofScriptArrow score)) ++
    (scriptMethod.all text).map (ofMatch (ofScriptMethod score))

/-- The sightings whose name is not reserved. -/
def freeSightings (score : Scorer) (text : List Char) : List Sighting := (sightings score text).filter IsFree

theorem script_eq_foldl (score : Scorer) (text : List Char) :
    script score text = (((sightings score text).map function).foldl addNew []).reverse := by
  rw [script, sightings, List.map_append, List.map_append, List.map_map, List.map_map, List.map_map]
  rfl

/-! ## What is kept of the sightings -/

theorem addNew_of_reserved (h : reservedNames.contains f.name = true) : addNew records f = records := by
  rw [addNew, h, Bool.true_or, if_pos rfl]

theorem addNew_of_any (h : ∃ g ∈ records, g.name = f.name ∧ g.line = f.line) : addNew records f = records := by
  obtain ⟨g, hg, hname, hline⟩ := h
  have hany : (records.any fun g => g.name == f.name && g.line == f.line) = true :=
    List.any_eq_true.mpr ⟨g, hg, by simp [hname, hline]⟩
  rw [addNew, hany, Bool.or_true, if_pos rfl]

theorem addNew_of_not (hfree : reservedNames.contains f.name = false)
    (h : ¬ ∃ g ∈ records, g.name = f.name ∧ g.line = f.line) : addNew records f = f :: records := by
  have hany : (records.any fun g => g.name == f.name && g.line == f.line) = false := by
    rw [Bool.eq_false_iff]
    intro hany
    obtain ⟨g, hg, hsame⟩ := List.any_eq_true.mp hany
    exact h ⟨g, hg, by simpa using hsame⟩
  rw [addNew, hfree, hany, Bool.or_false, if_neg Bool.false_ne_true]

/-- What is kept under one name does not depend on the others. -/
theorem filter_foldl_addNew (name : String) (fs found : List Function) :
    (fs.foldl addNew found).filter (fun f => f.name == name) =
      (fs.filter fun f => f.name == name).foldl addNew (found.filter fun f => f.name == name) := by
  induction fs generalizing found with
  | nil => rfl
  | cons f fs ih =>
    have hstep : (addNew found f).filter (fun g => g.name == name) =
        if f.name == name then addNew (found.filter fun g => g.name == name) f
        else found.filter fun g => g.name == name := by
      by_cases hreserved : reservedNames.contains f.name = true
      · rw [addNew_of_reserved hreserved, addNew_of_reserved hreserved, ite_self]
      · have hfree := Bool.eq_false_iff.mpr hreserved
        by_cases hsame : ∃ g ∈ found, g.name = f.name ∧ g.line = f.line
        · rw [addNew_of_any hsame]
          split
          · rename_i hname
            obtain ⟨g, hg, hgname, hgline⟩ := hsame
            rw [addNew_of_any ⟨g, List.mem_filter.mpr ⟨hg, by rwa [hgname]⟩, hgname, hgline⟩]
          · rfl
        · rw [addNew_of_not hfree hsame, List.filter_cons]
          split
          · refine (addNew_of_not hfree ?_).symm
            rintro ⟨g, hg, hgf⟩
            exact hsame ⟨g, (List.mem_filter.mp hg).1, hgf⟩
          · rfl
    rw [List.foldl_cons, ih, hstep, List.filter_cons]
    split <;> rfl

/-- Of functions with one name and line the first is kept. -/
theorem foldl_addNew_of_sameKey {fs : List Function} (hfree : reservedNames.contains f.name = false)
    (h : ∀ g ∈ fs, g.name = f.name ∧ g.line = f.line) : (f :: fs).foldl addNew [] = [f] := by
  have hfirst : addNew [] f = [f] := addNew_of_not hfree fun ⟨g, hg, _⟩ => absurd hg List.not_mem_nil
  rw [List.foldl_cons, hfirst]
  clear hfirst
  induction fs with
  | nil => rfl
  | cons g fs ih =>
    obtain ⟨⟨hname, hline⟩, hrest⟩ := List.forall_mem_cons.mp h
    rw [List.foldl_cons, addNew_of_any ⟨f, List.mem_singleton_self f, hname.symm, hline.symm⟩]
    exact ih hrest

/-- Of the sightings with one name and line that is free, one is kept. -/
theorem exists_kept (found : List Sighting) :
    ∃ kept : List Sighting, kept.Sublist (found.filter IsFree) ∧
      (found.map function).foldl addNew [] = (kept.map function).reverse ∧
      kept.Pairwise (fun s t => ¬ s.SameKey t) ∧ ∀ s ∈ found.filter IsFree, ∃ k ∈ kept, k.SameKey s := by
  induction found using List.reverseRecOn with
  | nil => exact ⟨[], .slnil, rfl, .nil, fun s hs => absurd hs List.not_mem_nil⟩
  | append_singleton found s ih =>
    obtain ⟨kept, hsublist, hfold, hpairwise, hkeys⟩ := ih
    have hnext : ((found ++ [s]).map function).foldl addNew [] = addNew (kept.map function).reverse s.function := by
      rw [List.map_append, List.foldl_append, hfold]
      rfl
    cases hfree : s.IsFree with
    | false =>
      have hreserved : reservedNames.contains s.function.name = true := by simpa [IsFree] using hfree
      have hfilter : (found ++ [s]).filter IsFree = found.filter IsFree := by simp [hfree]
      rw [hfilter, hnext, addNew_of_reserved hreserved]
      exact ⟨kept, hsublist, rfl, hpairwise, hkeys⟩
    | true =>
      have hname : reservedNames.contains s.function.name = false := by simpa [IsFree] using hfree
      have hfilter : (found ++ [s]).filter IsFree = found.filter IsFree ++ [s] := by simp [hfree]
      rw [hfilter, hnext]
      by_cases hsame : ∃ k ∈ kept, k.SameKey s
      · obtain ⟨k, hk, hks⟩ := hsame
        have hany : ∃ g ∈ (kept.map function).reverse, g.name = s.function.name ∧ g.line = s.function.line :=
          ⟨k.function, List.mem_reverse.mpr (List.mem_map_of_mem hk), hks⟩
        refine ⟨kept, hsublist.trans (List.sublist_append_left _ _), addNew_of_any hany, hpairwise, fun t ht => ?_⟩
        rcases List.mem_append.mp ht with ht | ht
        · exact hkeys t ht
        · obtain rfl := List.mem_singleton.mp ht
          exact ⟨k, hk, hks⟩
      · have hnone : ¬ ∃ g ∈ (kept.map function).reverse, g.name = s.function.name ∧ g.line = s.function.line := by
          rintro ⟨g, hg, hgs⟩
          obtain ⟨k, hk, rfl⟩ := List.mem_map.mp (List.mem_reverse.mp hg)
          exact hsame ⟨k, hk, hgs⟩
        refine ⟨kept ++ [s], hsublist.append (List.Sublist.refl _), ?_, ?_, fun t ht => ?_⟩
        · rw [addNew_of_not hname hnone, List.map_append, List.reverse_append]
          rfl
        · refine List.pairwise_append.mpr ⟨hpairwise, List.pairwise_singleton _ _, fun k hk t ht hkt => ?_⟩
          obtain rfl := List.mem_singleton.mp ht
          exact hsame ⟨k, hk, hkt⟩
        · rcases List.mem_append.mp ht with ht | ht
          · obtain ⟨k, hk, hkt⟩ := hkeys t ht
            exact ⟨k, List.mem_append_left _ hk, hkt⟩
          · obtain rfl := List.mem_singleton.mp ht
            exact ⟨t, by simp, rfl, rfl⟩

/-! ## Declarations and records -/

theorem exists_nameAt_of_mem_all {p : Pattern} {before after : List Pattern} {tell : Match → Function}
    (hp : p = inOrder (before ++ keep 1 [dollarName] :: after)) (hafter : EndsNames after)
    (htell : ∀ m, (tell m).name = String.ofList (m.groupText 1)) {s : Sighting}
    (h : s ∈ (p.all text).map (ofMatch tell)) :
    ∃ b, NameAt text s.place b ∧
      s.function.name = String.ofList (Stretch.text ⟨on text s.place, on text b⟩) := by
  obtain ⟨m, hm, rfl⟩ := List.mem_map.mp h
  obtain ⟨i, j, hfinds⟩ := (p.all_scan text).finds m hm
  rw [hp] at hfinds
  obtain ⟨a, b, -, hname, -, hgroup⟩ := hafter.exists_nameAt hfinds
  have hplace : (ofMatch tell m).place = a := by
    rw [ofMatch, hgroup]
    rfl
  refine ⟨b, by rwa [hplace], ?_⟩
  rw [hplace, ofMatch, htell, Match.groupText, Match.text?, hgroup]
  rfl

/-- What is seen at one place has one name. -/
theorem name_eq_of_place_eq {s t : Sighting} (hs : s ∈ sightings score text) (ht : t ∈ sightings score text)
    (h : s.place = t.place) : s.function.name = t.function.name := by
  have hnameAt {s : Sighting} (hs : s ∈ sightings score text) : ∃ b, NameAt text s.place b ∧
      s.function.name = String.ofList (Stretch.text ⟨on text s.place, on text b⟩) := by
    rcases List.mem_append.mp hs with hs | hs
    · rcases List.mem_append.mp hs with hs | hs
      · exact exists_nameAt_of_mem_all scriptFunction_eq endsNames_afterFunctionName (fun _ => rfl) hs
      · exact exists_nameAt_of_mem_all scriptArrow_eq endsNames_afterArrowName (fun _ => rfl) hs
    · exact exists_nameAt_of_mem_all scriptMethod_eq endsNames_afterMethodName (fun _ => rfl) hs
  obtain ⟨b, hb, hsname⟩ := hnameAt hs
  obtain ⟨b', hb', htname⟩ := hnameAt ht
  rw [← h] at hb' htname
  rw [hsname, htname, hb.end_unique hb']

theorem countP_le_one {α : Type} {p : α → Bool} {l : List α} (h : l.Pairwise fun a b => ¬ (p a = true ∧ p b = true)) :
    l.countP p ≤ 1 := by
  have hnone : (l.filter p).Pairwise fun _ _ => False :=
    (h.sublist List.filter_sublist).imp_of_mem fun ha hb hab =>
      hab ⟨(List.mem_filter.mp ha).2, (List.mem_filter.mp hb).2⟩
  rw [List.countP_eq_length_filter]
  cases hfilter : l.filter p with
  | nil => exact Nat.zero_le 1
  | cons a rest =>
    cases rest with
    | nil => exact Nat.le_refl 1
    | cons b rest =>
      rw [hfilter] at hnone
      exact absurd ((List.pairwise_cons.mp hnone).1 b List.mem_cons_self) not_false

theorem eq_of_countP_eq_one {α : Type} {p : α → Bool} {l : List α} (h : l.countP p = 1) {a b : α} (ha : a ∈ l)
    (hpa : p a = true) (hb : b ∈ l) (hpb : p b = true) : a = b := by
  rw [List.countP_eq_length_filter] at h
  obtain ⟨c, hc⟩ := List.length_eq_one_iff.mp h
  have hmem {x : α} (hx : x ∈ l) (hpx : p x = true) : x = c :=
    List.mem_singleton.mp (hc ▸ List.mem_filter.mpr ⟨hx, hpx⟩)
  rw [hmem ha hpa, hmem hb hpb]

section Reports

variable {found : List Sighting} {records : List Function}

theorem reportedOnce_of (hplace : ∀ s ∈ found, ∀ t ∈ found, s.place = t.place → s.function.name = t.function.name)
    (hline : OneLineEach found) (happart : ToldApart found) {kept : List Sighting} (hsublist : kept.Sublist found)
    (hpairwise : kept.Pairwise fun s t => ¬ s.SameKey t) (hkeys : ∀ s ∈ found, ∃ k ∈ kept, k.SameKey s) :
    ReportedOnce found (kept.map function) := by
  refine ⟨kept, hsublist, rfl, fun s hs => Nat.le_antisymm (countP_le_one ?_) ?_⟩
  · refine hpairwise.imp_of_mem fun ha hb hne hsame => hne ?_
    have heq := (beq_iff_eq.mp hsame.1).trans (beq_iff_eq.mp hsame.2).symm
    exact ⟨hplace _ (hsublist.subset ha) _ (hsublist.subset hb) heq,
      hline _ (hsublist.subset ha) _ (hsublist.subset hb) heq⟩
  · obtain ⟨k, hk, hks⟩ := hkeys s hs
    exact List.countP_pos_iff.mpr ⟨k, hk, beq_iff_eq.mpr (happart k (hsublist.subset hk) s hs hks)⟩

theorem exists_of_reportedOnce {kept : List Sighting} {s : Sighting}
    (h : kept.countP (fun k => k.place == s.place) = 1) : ∃ k ∈ kept, k.place = s.place := by
  obtain ⟨k, hk, hks⟩ := List.countP_pos_iff.mp (Nat.lt_of_lt_of_eq Nat.one_pos h.symm)
  exact ⟨k, hk, beq_iff_eq.mp hks⟩

/-- Two declarations of one name on one line would need two records, and only one is there. -/
theorem toldApart_of_reportedOnce
    (hplace : ∀ s ∈ found, ∀ t ∈ found, s.place = t.place → s.function.name = t.function.name)
    (hdistinct : records.Pairwise fun f g => ¬ (f.name = g.name ∧ f.line = g.line)) (hline : OneLineEach found)
    (h : ReportedOnce found records) : ToldApart found := by
  obtain ⟨kept, hsublist, rfl, honce⟩ := h
  intro s hs t ht hst
  have hkept {s : Sighting} (hs : s ∈ found) : ∃ k ∈ kept, k.place = s.place ∧ k.SameKey s := by
    obtain ⟨k, hk, hks⟩ := exists_of_reportedOnce (honce s hs)
    exact ⟨k, hk, hks, hplace k (hsublist.subset hk) s hs hks, hline k (hsublist.subset hk) s hs hks⟩
  obtain ⟨k, hk, hks, hksame⟩ := hkept hs
  obtain ⟨l, hl, hlt, hlsame⟩ := hkept ht
  have hpairwise : kept.Pairwise fun s t => ¬ s.SameKey t := List.pairwise_map.mp hdistinct
  have hsymm : Std.Symm fun s t : Sighting => ¬ s.SameKey t := ⟨fun _ _ hst hts => hst hts.symm⟩
  have hkl : k = l := by
    by_contra hne
    exact hpairwise.forall hk hl hne ((hksame.trans hst).trans hlsame.symm)
  rw [← hks, ← hlt, hkl]

/-- A declaration on two lines has two records. -/
theorem oneLineEach_of_reportedOnce
    (hkeys : ∀ s ∈ found, ∃ f ∈ records, f.name = s.function.name ∧ f.line = s.function.line)
    (happart : ToldApart found) (h : ReportedOnce found records) : OneLineEach found := by
  obtain ⟨kept, hsublist, rfl, honce⟩ := h
  intro s hs t ht hst
  have hkept {s : Sighting} (hs : s ∈ found) :
      ∃ k ∈ kept, k.place = s.place ∧ k.function.line = s.function.line := by
    obtain ⟨f, hf, hname, hline⟩ := hkeys s hs
    obtain ⟨k, hk, rfl⟩ := List.mem_map.mp hf
    exact ⟨k, hk, happart k (hsublist.subset hk) s hs ⟨hname, hline⟩, hline⟩
  obtain ⟨k, hk, hks, hkline⟩ := hkept hs
  obtain ⟨l, hl, hlt, hlline⟩ := hkept ht
  have hkl : k = l :=
    eq_of_countP_eq_one (honce s hs) hk (beq_iff_eq.mpr hks) hl (beq_iff_eq.mpr (hlt.trans hst.symm))
  rw [← hkline, ← hlline, hkl]

end Reports

/-- Each free name on a line is reported, and once. So every declaration is reported once if and only if no two of one
name are on one line, where each is put on one line only; and if and only if each is put on one line only, where no
two of one name are on one line. -/
theorem script_reportedOnce (score : Scorer) (text : List Char) :
    (∃ kept : List Sighting, kept.Sublist (freeSightings score text) ∧ kept.map function = script score text ∧
      kept.Pairwise (fun s t => ¬ s.SameKey t) ∧ ∀ s ∈ freeSightings score text, ∃ k ∈ kept, k.SameKey s) ∧
    (OneLineEach (freeSightings score text) →
      (ReportedOnce (freeSightings score text) (script score text) ↔ ToldApart (freeSightings score text))) ∧
    (ToldApart (freeSightings score text) →
      (ReportedOnce (freeSightings score text) (script score text) ↔ OneLineEach (freeSightings score text))) := by
  obtain ⟨kept, hsublist, hfold, hpairwise, hkeys⟩ := exists_kept (sightings score text)
  have hscript : script score text = kept.map function := by rw [script_eq_foldl, hfold, List.reverse_reverse]
  have hplace : ∀ s ∈ freeSightings score text, ∀ t ∈ freeSightings score text, s.place = t.place →
      s.function.name = t.function.name := fun s hs t ht =>
    name_eq_of_place_eq (List.mem_of_mem_filter hs) (List.mem_of_mem_filter ht)
  have hdistinct : (kept.map function).Pairwise fun f g => ¬ (f.name = g.name ∧ f.line = g.line) :=
    List.pairwise_map.mpr hpairwise
  have hrecords : ∀ s ∈ freeSightings score text,
      ∃ f ∈ kept.map function, f.name = s.function.name ∧ f.line = s.function.line := fun s hs => by
    obtain ⟨k, hk, hks⟩ := hkeys s hs
    exact ⟨k.function, List.mem_map_of_mem hk, hks⟩
  rw [hscript]
  refine ⟨⟨kept, hsublist, rfl, hpairwise, hkeys⟩, fun hline => ⟨fun h => ?_, fun happart => ?_⟩,
    fun happart => ⟨fun h => ?_, fun hline => ?_⟩⟩
  · exact toldApart_of_reportedOnce hplace hdistinct hline h
  · exact reportedOnce_of hplace hline happart hsublist hpairwise hkeys
  · exact oneLineEach_of_reportedOnce hrecords happart h
  · exact reportedOnce_of hplace hline happart hsublist hpairwise hkeys

/-- A declaration whose name is below its keyword is reported twice, and of two on one line only one is reported. -/
theorem not_reportedOnce_function :
    ¬ ReportedOnce (freeSightings List.length "function\nf() {}".toList)
        (script List.length "function\nf() {}".toList) ∧
      ¬ ReportedOnce (freeSightings List.length "function f() {} function f() {}".toList)
        (script List.length "function f() {} function f() {}".toList) := by
  constructor
  · have hfound : freeSightings List.length "function\nf() {}".toList =
        [⟨9, "f", 1, 2, [], none⟩, ⟨9, "f", 2, 2, [], none⟩] := by decide +kernel
    have hscript : script List.length "function\nf() {}".toList =
        [⟨"f", 1, 2, [], none⟩, ⟨"f", 2, 2, [], none⟩] := by decide +kernel
    rw [hfound, hscript]
    rintro ⟨kept, hsublist, hmap, honce⟩
    have hlength : kept.length = 2 := by rw [← List.length_map, hmap]; rfl
    have hall := hsublist.eq_of_length hlength
    have hcount := honce _ List.mem_cons_self
    rw [hall] at hcount
    cases hcount
  · have hfound : freeSightings List.length "function f() {} function f() {}".toList =
        [⟨9, "f", 1, 2, [], none⟩, ⟨25, "f", 1, 2, [], none⟩, ⟨9, "f", 1, 2, [], none⟩,
          ⟨25, "f", 1, 2, [], none⟩] := by decide +kernel
    have hscript : script List.length "function f() {} function f() {}".toList = [⟨"f", 1, 2, [], none⟩] := by
      decide +kernel
    rw [hfound, hscript]
    rintro ⟨kept, -, hmap, honce⟩
    obtain ⟨k, rfl⟩ := List.length_eq_one_iff.mp (show kept.length = 1 by rw [← List.length_map, hmap]; rfl)
    obtain ⟨l, hl, hfirst⟩ := exists_of_reportedOnce (honce _ List.mem_cons_self)
    obtain ⟨l', hl', hsecond⟩ := exists_of_reportedOnce (honce _ (List.mem_cons_of_mem _ List.mem_cons_self))
    rw [List.mem_singleton.mp hl] at hfirst
    rw [List.mem_singleton.mp hl', hfirst] at hsecond
    cases hsecond

end Functions

end CodeCensus
