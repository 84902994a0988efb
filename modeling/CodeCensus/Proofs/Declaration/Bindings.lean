import CodeCensus.Proofs.Declaration.Blocks
import CodeCensus.Proofs.Declaration.Lines
import CodeCensus.Proofs.Declaration.Occurrences
import CodeCensus.Proofs.Pattern.Search
import CodeCensus.Proofs.Text.Separators

/-! A name that is bound to an arrow function with a block. The body is looked for after the first arrow of the
declaration, and an arrow may stand before that one, within the parameters. So the name is scored by its block if
none does, and else only if that block is what follows there, or if the parameters are read as a function of the
same name. -/

namespace CodeCensus

open Text Pattern Cursor

/-- A constant that is bound to an arrow function, with the text between its parentheses and that of its block. -/
structure Binding where
  name : List Char
  list : List Char
  body : List Char

namespace Binding

def block (b : Binding) : List Char := '{' :: (b.body ++ ['}'])

def text (b : Binding) : List Char :=
  "const ".toList ++ (b.name ++ (" = (".toList ++ (b.list ++ (") => ".toList ++ b.block))))

structure IsProper (b : Binding) : Prop where
  name_isScriptName : IsScriptName b.name
  name_isFree : reservedNames.contains (String.ofList b.name) = false
  paren_not_mem : ')' ∉ b.list
  newline_not_mem : '\n' ∉ b.list
  body_isBalanced : Body.IsBalanced b.body
  name_not_infix : ¬ b.name <:+: b.body

/-- Where the list of parameters begins, and where it ends. -/
def listStart (b : Binding) : Nat := 10 + b.name.length

def listEnd (b : Binding) : Nat := b.listStart + b.list.length

end Binding

theorem holdsAt_among {text marks : List Char} {k : Nat} {x : Char} (h : HoldsAt text (· == x) k)
    (hx : marks.contains x = true) : HoldsAt text (among marks) k :=
  h.imp fun y hy => by rwa [beq_iff_eq.mp hy]

namespace Binding

variable {b : Binding} {a c d e i j k n : Nat} {x : Char}

/-! ## The characters of a binding -/

theorem drop_nameStart (b : Binding) :
    b.text.drop 6 = b.name ++ (" = (".toList ++ (b.list ++ (") => ".toList ++ b.block))) := rfl

theorem drop_nameEnd (b : Binding) :
    b.text.drop (6 + b.name.length) = " = (".toList ++ (b.list ++ (") => ".toList ++ b.block)) :=
  drop_add_length b.drop_nameStart

theorem drop_listStart (b : Binding) : b.text.drop b.listStart = b.list ++ (") => ".toList ++ b.block) := by
  have hdrop := drop_add_length b.drop_nameEnd
  rwa [show 6 + b.name.length + " = (".toList.length = b.listStart by rw [listStart, Nat.add_right_comm]; rfl] at hdrop

theorem drop_listEnd (b : Binding) : b.text.drop b.listEnd = ") => ".toList ++ b.block :=
  drop_add_length b.drop_listStart

theorem drop_bodyStart (b : Binding) : b.text.drop (b.listEnd + 6) = b.body ++ ['}'] := by
  rw [← List.drop_drop, b.drop_listEnd]
  rfl

theorem getElem?_nameEnd (b : Binding) (hk : k < 4) (hx : " = (".toList[k]? = some x) :
    b.text[6 + b.name.length + k]? = some x := by
  rw [getElem?_of_drop b.drop_nameEnd hk, hx]

theorem getElem?_listEnd (b : Binding) (hk : k < 6) (hx : ") => \x7b".toList[k]? = some x) :
    b.text[b.listEnd + k]? = some x := by
  have hdrop : b.text.drop b.listEnd = ") => \x7b".toList ++ (b.body ++ ['}']) := b.drop_listEnd
  rw [getElem?_of_drop hdrop hk, hx]

theorem getElem?_list (hle : b.listStart ≤ k) (hlt : k < b.listEnd) (hk : b.text[k]? = some x) : x ∈ b.list := by
  rw [listEnd] at hlt
  obtain ⟨l, rfl⟩ := Nat.exists_eq_add_of_le hle
  rw [getElem?_of_drop b.drop_listStart (by omega)] at hk
  exact List.mem_of_getElem? hk

theorem take_listEnd (b : Binding) :
    b.text.take b.listEnd = "const ".toList ++ (b.name ++ (" = (".toList ++ b.list)) := by
  have htext : b.text = "const ".toList ++ (b.name ++ (" = (".toList ++ b.list)) ++ (") => ".toList ++ b.block) := by
    rw [List.append_assoc, List.append_assoc, List.append_assoc]
    rfl
  have hlength : b.listEnd = ("const ".toList ++ (b.name ++ (" = (".toList ++ b.list))).length := by
    rw [List.length_append, List.length_append, List.length_append, listEnd, listStart]
    change 10 + b.name.length + b.list.length = 6 + (b.name.length + (4 + b.list.length))
    omega
  rw [hlength, htext, List.take_left]

theorem line_on_eq_one (hb : b.IsProper) (hi : i ≤ b.listEnd) : (on b.text i).line = 1 := by
  have hnone : '\n' ∉ b.text.take b.listEnd := by
    rw [b.take_listEnd]
    intro hmem
    rcases List.mem_append.mp hmem with hmem | hmem
    · exact absurd hmem (by decide)
    · rcases List.mem_append.mp hmem with hmem | hmem
      · exact absurd (hb.name_isScriptName.wordOrDollar hmem) (by decide)
      · exact (List.mem_append.mp hmem).elim (fun hmem => absurd hmem (by decide)) hb.newline_not_mem
  have hsubset : b.text.take i ⊆ b.text.take b.listEnd := (List.take_prefix_take_left hi).subset
  rw [line_on, List.count_eq_zero.mpr fun hmem => hnone (hsubset hmem)]

/-! ## Where the name can stand -/

theorem exists_first (hb : b.IsProper) : ∃ first, b.text[6]? = some first ∧ wordOrDollar first = true := by
  obtain ⟨first, rest, hname, -⟩ := hb.name_isScriptName
  refine ⟨first, ?_, hb.name_isScriptName.wordOrDollar (by rw [hname]; exact List.mem_cons_self)⟩
  rw [← List.head?_drop, b.drop_nameStart, hname]
  rfl

theorem end_eq_of_nameAt_word (h : NameAt b.text a e) (hle : a ≤ 5) : e = 5 := by
  have hword (k : Nat) (hk : k < 5) : HoldsAt b.text wordOrDollar k := by
    have hlt : k < "const".toList.length := hk
    have hdrop : b.text.drop 0 = "const".toList ++ (' ' :: b.text.drop 6) := rfl
    have hget := getElem?_of_drop hdrop hlt
    rw [Nat.zero_add, List.getElem?_eq_getElem hlt] at hget
    refine ⟨_, hget, ?_⟩
    clear hget
    revert k
    decide
  have hend : e ≤ 5 := h.throughout.le_of_getElem? (x := ' ') hle rfl (by decide)
  exact Nat.le_antisymm hend (Nat.le_of_not_lt fun hlt => h.ends (hword e hlt))

/-- A name goes over none of the characters between the binding's name and its parameters. -/
theorem le_nameEnd_of_nameAt (h : NameAt b.text a e) (hk : k < 4) (hle : a ≤ 6 + b.name.length + k) :
    e ≤ 6 + b.name.length + k := by
  have hlt : k < " = (".toList.length := hk
  refine h.throughout.le_of_getElem? hle (b.getElem?_nameEnd hk (List.getElem?_eq_getElem hlt)) ?_
  clear hle
  revert k
  decide

/-- A name goes over none of the characters between the parameters and the text of the block. -/
theorem le_listEnd_of_nameAt (h : NameAt b.text a e) (hk : k < 6) (hle : a ≤ b.listEnd + k) : e ≤ b.listEnd + k := by
  have hlt : k < ") => \x7b".toList.length := hk
  refine h.throughout.le_of_getElem? hle (b.getElem?_listEnd hk (List.getElem?_eq_getElem hlt)) ?_
  clear hle
  revert k
  decide

theorem not_nameAt_body (hb : b.IsProper) (h : NameAt b.text a e)
    (hname : Stretch.text ⟨on b.text a, on b.text e⟩ = b.name) : ¬ b.listEnd + 6 ≤ a := by
  intro hle
  obtain ⟨t, rfl⟩ := Nat.exists_eq_add_of_le hle
  have hclose : b.text[b.listEnd + 6 + b.body.length]? = some '}' := by
    rw [← List.getElem?_drop, b.drop_bodyStart, List.getElem?_concat_length]
  have hlength : b.text.length = b.listEnd + 6 + b.body.length + 1 := by
    have hdrop := congrArg List.length b.drop_bodyStart
    rw [List.length_drop, List.length_append, List.length_singleton] at hdrop
    omega
  have hlt := h.lt
  have hend : e ≤ b.text.length := h.throughout.le_length.resolve_left (by omega)
  have hinside := h.throughout.le_of_getElem? (by omega) hclose (by decide)
  have hstretch : (b.text.drop (b.listEnd + 6 + t)).take (e - (b.listEnd + 6 + t)) = b.name := hname
  rw [← List.drop_drop, b.drop_bodyStart, List.drop_append_of_le_length (by omega),
    List.take_append_of_le_length (by rw [List.length_drop]; omega)] at hstretch
  refine hb.name_not_infix ?_
  rw [← hstretch]
  exact (List.take_prefix _ _).isInfix.trans (List.drop_suffix _ _).isInfix

/-- The name that a match captures is that of the binding itself, or stands at the end of the first word or within the
parameters. -/
theorem nameAt_cases (hb : b.IsProper) (h : NameAt b.text a e)
    (hname : Stretch.text ⟨on b.text a, on b.text e⟩ = b.name) :
    e = 5 ∨ e = 6 + b.name.length ∨ b.listStart ≤ a ∧ e ≤ b.listEnd := by
  rcases Nat.lt_or_ge 5 a with hlate | hearly
  · have hlt := h.lt
    have hlength : b.name.length = e - a := h.length_text ▸ (congrArg List.length hname).symm
    have hbody := not_nameAt_body hb h hname
    have hafterName (k : Nat) (hk : k < 4) := le_nameEnd_of_nameAt h hk
    have hafterList (k : Nat) (hk : k < 6) := le_listEnd_of_nameAt h hk
    have h0 := hafterName 0 (by decide)
    have h1 := hafterName 1 (by decide)
    have h2 := hafterName 2 (by decide)
    have h3 := hafterName 3 (by decide)
    have h0' := hafterList 0 (by decide)
    have h1' := hafterList 1 (by decide)
    have h2' := hafterList 2 (by decide)
    have h3' := hafterList 3 (by decide)
    have h4' := hafterList 4 (by decide)
    have h5' := hafterList 5 (by decide)
    rw [listStart]
    omega
  · exact .inl (end_eq_of_nameAt_word h hearly)

/-- Neither the first word nor the name itself is followed by a parenthesis or an angle bracket. -/
theorem not_holds_after_name (hb : b.IsProper) (he : e = 5 ∨ e = 6 + b.name.length) (hle : e ≤ c)
    (hblank : Throughout b.text isBlank e c) : ¬ HoldsAt b.text (among ['(', '<']) c := by
  intro hc
  rcases he with rfl | rfl
  · obtain ⟨first, hfirst, hword⟩ := exists_first hb
    have hc6 := hblank.le_of_getElem? (by omega) hfirst (not_isBlank_of_wordOrDollar hword)
    rcases (show c = 5 ∨ c = 6 by omega) with rfl | rfl
    · exact absurd (hc.eq_true (x := ' ') rfl) (by decide)
    · have hmark := hc.eq_true hfirst
      rcases List.mem_cons.mp (List.contains_iff_mem.mp hmark) with rfl | hmark
      · exact absurd hword (by decide)
      · rw [List.mem_singleton.mp hmark] at hword
        exact absurd hword (by decide)
  · have hequals := b.getElem?_nameEnd (k := 1) (x := '=') (by decide) rfl
    have hc7 := hblank.le_of_getElem? (by omega) hequals (by decide)
    rcases (show c = 6 + b.name.length + 0 ∨ c = 6 + b.name.length + 1 by omega) with rfl | rfl
    · exact absurd (hc.eq_true (b.getElem?_nameEnd (x := ' ') (by decide) rfl)) (by decide)
    · exact absurd (hc.eq_true hequals) (by decide)

/-- A list of parameters that begins before the end of the binding's own ends there, too. -/
theorem parameterList_end (hb : b.IsProper) (hstart : b.listStart ≤ c) (hend : c ≤ b.listEnd)
    (h : (Functions.parameterList n).Spans b.text c j) : j = b.listEnd + 1 := by
  obtain ⟨r, hopen, hle, hrun, hclose, rfl⟩ := spans_parameterList h
  have hparen := b.getElem?_listEnd (k := 0) (x := ')') (by decide) rfl
  have hne : c ≠ b.listEnd := by
    rintro rfl
    exact absurd (hopen.eq_true hparen) (by decide)
  have hr := hrun.le_of_getElem? (by omega) hparen (by decide)
  have hinside : ¬ r < b.listEnd := fun hlt => by
    obtain ⟨x, hx, hxparen⟩ := hclose
    obtain rfl : x = ')' := by simpa using hxparen
    exact hb.paren_not_mem (getElem?_list (by omega) hlt hx)
  omega

/-- What follows the parameters is neither a mark of a result nor a brace. -/
theorem not_holds_after_list (hle : b.listEnd + 1 ≤ c) (hblank : Throughout b.text isBlank (b.listEnd + 1) c) :
    ¬ HoldsAt b.text (among [':', '\x7b']) c := by
  intro hc
  have hequals := b.getElem?_listEnd (k := 2) (x := '=') (by decide) rfl
  have hc2 := hblank.le_of_getElem? (by omega) hequals (by decide)
  rcases (show c = b.listEnd + 1 ∨ c = b.listEnd + 2 by omega) with rfl | rfl
  · exact absurd (hc.eq_true (b.getElem?_listEnd (x := ' ') (by decide) rfl)) (by decide)
  · exact absurd (hc.eq_true hequals) (by decide)

/-! ## What the patterns find -/

section Matches

open Functions

variable {m : Match}

theorem text_stretch_of_groupText (hgroup : m.group? 1 = some ⟨on b.text a, on b.text e⟩)
    (hname : m.groupText 1 = b.name) : Stretch.text ⟨on b.text a, on b.text e⟩ = b.name := by
  rw [Match.groupText, Match.text?, hgroup] at hname
  exact hname

/-- The blanks after a name within the parameters stop before the parameters do. -/
theorem le_listEnd_of_blanks (hle : c ≤ b.listEnd) (hblank : Throughout b.text isBlank c d) : d ≤ b.listEnd :=
  hblank.le_of_getElem? hle (b.getElem?_listEnd (k := 0) (x := ')') (by decide) rfl) (by decide)

theorem groupText_ne_of_method (hb : b.IsProper) (hm : m ∈ scriptMethod.all b.text) : m.groupText 1 ≠ b.name := by
  intro hname
  obtain ⟨i, j, hfinds⟩ := (scriptMethod.all_scan b.text).finds m hm
  rw [scriptMethod_eq] at hfinds
  obtain ⟨a, e, -, hat, hafter, hgroup⟩ := endsNames_afterMethodName.exists_nameAt hfinds
  obtain ⟨c, ⟨hec, hblank⟩, d, hlist, u, ⟨hdu, hblank'⟩, v, hresult, w, ⟨hvw, hblank''⟩, hbrace, -⟩ := hafter
  obtain ⟨r, hopen, -⟩ := spans_parameterList hlist
  have hnotAfterName (he : e = 5 ∨ e = 6 + b.name.length) : False :=
    not_holds_after_name hb he hec hblank (holdsAt_among hopen (by decide))
  have hae := hat.lt
  rcases nameAt_cases hb hat (text_stretch_of_groupText hgroup hname) with he | he | ⟨hstart, hend⟩
  · exact hnotAfterName (.inl he)
  · exact hnotAfterName (.inr he)
  · obtain rfl := parameterList_end hb (by omega) (le_listEnd_of_blanks hend hblank) hlist
    rcases hresult with ⟨_, ⟨hcolon, -⟩, -⟩ | hnone
    · exact not_holds_after_list hdu hblank' (holdsAt_among (x := ':') hcolon (by decide))
    · obtain rfl : v = u := hnone
      exact not_holds_after_list (hdu.trans hvw) (hblank'.trans hblank'')
        (holdsAt_among (x := '{') hbrace (by decide))

/-- Parameters in angle brackets that a list in parentheses follows end before the binding's own parameters do. -/
theorem typeParameters_end (hc : c ≤ b.listEnd) (h : typeParameters.Spans b.text c d) (hde : d ≤ e)
    (hblank : Throughout b.text isBlank d e) (hopen : HoldsAt b.text (· == '(') e) : d ≤ b.listEnd := by
  have hparen := b.getElem?_listEnd (k := 0) (x := ')') (by decide) rfl
  have hspace := b.getElem?_listEnd (k := 1) (x := ' ') (by decide) rfl
  have hequals := b.getElem?_listEnd (k := 2) (x := '=') (by decide) rfl
  have hangle := b.getElem?_listEnd (k := 3) (x := '>') (by decide) rfl
  have hgap := b.getElem?_listEnd (k := 4) (x := ' ') (by decide) rfl
  have hbrace := b.getElem?_listEnd (k := 5) (x := '{') (by decide) rfl
  rcases h with ⟨_, ⟨hless, rfl⟩, g, ⟨hcg, hrun⟩, hmark, rfl⟩ | hnone
  · have hg : g ≤ b.listEnd + 3 := hrun.le_of_getElem? (by omega) hangle (by decide)
    have hmark : HoldsAt b.text (· == '>') g := hmark
    have hne {k : Nat} {x : Char} (hx : b.text[k]? = some x) (hmark' : (x == '>') = false) : g ≠ k := by
      rintro rfl
      rw [hmark.eq_true hx] at hmark'
      cases hmark'
    have h0 := hne hparen (by decide)
    have h1 := hne hspace (by decide)
    have h2 := hne hequals (by decide)
    -- after the arrow there is no parenthesis, only the block
    have h3 : g ≠ b.listEnd + 3 := by
      rintro rfl
      have he := hblank.le_of_getElem? (by omega) hbrace (by decide)
      rcases (show e = b.listEnd + 4 ∨ e = b.listEnd + 5 by omega) with rfl | rfl
      · exact absurd (hopen.eq_true hgap) (by decide)
      · exact absurd (hopen.eq_true hbrace) (by decide)
    omega
  · exact (show d = c from hnone) ▸ hc

/-- A function of the binding's name is read off its parameters, and ends with them. -/
theorem line_and_rest_of_function (hb : b.IsProper) (hm : m ∈ scriptFunction.all b.text)
    (hname : m.groupText 1 = b.name) : m.start.line = 1 ∧ m.stop.rest = " => ".toList ++ b.block := by
  obtain ⟨i, j, hfinds⟩ := (scriptFunction.all_scan b.text).finds m hm
  have hmatch := hfinds
  rw [scriptFunction_eq] at hmatch
  obtain ⟨a, e, hbefore, hat, hafter, hgroup⟩ := endsNames_afterFunctionName.exists_nameAt hmatch
  obtain ⟨c, ⟨hec, hblank⟩, d, htypes, e', ⟨hde, hblank'⟩, r, hlist, hresult⟩ := hafter
  obtain ⟨-, hopen, -⟩ := spans_parameterList hlist
  have hae := hat.lt
  have hia := hbefore.le
  have hcd := htypes.le
  have hnotAfterName (he : e = 5 ∨ e = 6 + b.name.length) : False := by
    rcases htypes with ⟨_, ⟨hless, -⟩, -⟩ | hnone
    · exact not_holds_after_name hb he hec hblank (holdsAt_among (x := '<') hless (by decide))
    · obtain rfl : d = c := hnone
      exact not_holds_after_name hb he (hec.trans hde) (hblank.trans hblank') (holdsAt_among hopen (by decide))
  rcases nameAt_cases hb hat (text_stretch_of_groupText hgroup hname) with he | he | ⟨hstart, hend⟩
  · exact absurd (.inl he) hnotAfterName
  · exact absurd (.inr he) hnotAfterName
  · have hd := typeParameters_end (le_listEnd_of_blanks hend hblank) htypes hde hblank' hopen
    obtain rfl := parameterList_end hb (by omega) (le_listEnd_of_blanks hd hblank') hlist
    have hj : j = b.listEnd + 1 := by
      rcases hresult with ⟨u, ⟨hu, hblank⟩, _, ⟨hcolon, -⟩, -⟩ | hnone
      · exact absurd (holdsAt_among (x := ':') hcolon (by decide)) (not_holds_after_list hu hblank)
      · exact hnone
    refine ⟨by rw [hfinds.2.1]; exact line_on_eq_one hb (by omega), ?_⟩
    rw [hfinds.2.2, hj, on_rest, ← List.drop_drop, b.drop_listEnd]
    rfl

/-- After the name, the pattern of a bound arrow function takes all up to the arrow of the binding. -/
theorem takes_afterArrowName (hb : b.IsProper) :
    Takes b.text (inOrder afterArrowName) (6 + b.name.length) (b.listEnd + 4)
      [(2, ⟨on b.text (6 + b.name.length + 3 + 1), on b.text b.listEnd⟩)] := by
  have hafter : b.text.drop (6 + b.name.length) =
      [' '] ++ ('=' :: ' ' :: '(' :: (b.list ++ (") => ".toList ++ b.block))) := b.drop_nameEnd
  generalize hk : 6 + b.name.length = k at hafter
  have hequals := drop_add_length hafter
  have hspace : b.text.drop (k + 2) = [' '] ++ ('(' :: (b.list ++ (") => ".toList ++ b.block))) :=
    drop_succ_of_drop hequals
  have hopen := drop_add_length hspace
  have hlistEnd : k + 3 + 1 + b.list.length = b.listEnd := by
    rw [listEnd, listStart]
    omega
  have hclose : b.text.drop (b.listEnd + 1) = [' '] ++ ('=' :: '>' :: ' ' :: b.block) :=
    drop_succ_of_drop b.drop_listEnd
  have harrow := drop_add_length hclose
  have hspaceTaken : Takes b.text blanks k (k + 1) [] :=
    takes_run hafter (List.forall_mem_singleton.mpr rfl) (forall_mem_head? (by decide))
  have hnoType : Takes b.text (optional [":", some1 (beyond ['=', '\n'])]) (k + 1) (k + 1) [] :=
    takes_opt_none (not_spans_of_drop (by decide) hequals (by decide))
  have hequalsTaken : Takes b.text "=" (k + 1) (k + 2) [] := takes_text hequals
  have hspaceTaken' : Takes b.text blanks (k + 2) (k + 3) [] :=
    takes_run hspace (List.forall_mem_singleton.mpr rfl) (forall_mem_head? (by decide))
  have hnoAsync : Takes b.text (optional ["async", blanks1]) (k + 3) (k + 3) [] :=
    takes_opt_none (not_spans_of_drop (by decide) hopen (by decide))
  have hlistTaken : Takes b.text (.alt (parameterList 2) (keep 3 [dollarName])) (k + 3) (b.listEnd + 1)
      [(2, ⟨on b.text (k + 3 + 1), on b.text b.listEnd⟩)] := by
    rw [← hlistEnd]
    exact (takes_parameterList hb.paren_not_mem hopen).left
  have hcloseTaken : Takes b.text blanks (b.listEnd + 1) (b.listEnd + 2) [] :=
    takes_run hclose (List.forall_mem_singleton.mpr rfl) (forall_mem_head? (by decide))
  have hnoResult : Takes b.text (optional [":", blanks, keep 4 [lazy1 (beyond ['=', '\n'])]]) (b.listEnd + 2)
      (b.listEnd + 2) [] := takes_opt_none (not_spans_of_drop (by decide) harrow (by decide))
  have hnoGap : Takes b.text blanks (b.listEnd + 2) (b.listEnd + 2) [] :=
    takes_run_nil harrow (forall_mem_head? (by decide))
  have harrowTaken : Takes b.text "=>" (b.listEnd + 2) (b.listEnd + 4) [] := takes_text harrow
  exact hspaceTaken.seq (hnoType.seq (hequalsTaken.seq (hspaceTaken'.seq (hnoAsync.seq (hlistTaken.seq
    (hcloseTaken.seq (hnoResult.seq (hnoGap.seq harrowTaken))))))))

/-- The binding itself is matched from its first character to its arrow. -/
theorem exists_finds_arrow (hb : b.IsProper) :
    ∃ m, scriptArrow.Finds b.text m 0 (b.listEnd + 4) ∧ m.text? 1 = some b.name := by
  have hstart : b.text.drop 0 = "const".toList ++ ([' '] ++ b.text.drop 6) := rfl
  have hgap : b.text.drop 5 = [' '] ++ b.text.drop 6 := rfl
  have hname := b.drop_nameStart
  have hfirst : ∀ z ∈ (b.text.drop 6).head?, isBlank z = false := fun z hz => by
    obtain ⟨first, hfirst, hword⟩ := exists_first hb
    rw [List.head?_drop, hfirst] at hz
    obtain rfl : first = z := Option.some.inj hz
    exact not_isBlank_of_wordOrDollar hword
  have hedgeTaken : Takes b.text wordEdge 0 0 [] := takes_edge rfl
  have hwordTaken : Takes b.text (oneWord ["const", "let", "var"]) 0 5 [] := by
    have hconst : Takes b.text "const" 0 5 [] := takes_text hstart
    exact hconst.left
  have hgapTaken : Takes b.text blanks1 5 6 [] := takes_some1 hgap (List.forall_mem_singleton.mpr rfl) hfirst
  have hnameTaken : Takes b.text (keep 1 [dollarName]) 6 (6 + b.name.length)
      [(1, ⟨on b.text 6, on b.text (6 + b.name.length)⟩)] :=
    (takes_spelled hb.name_isScriptName hname (forall_mem_head? (by decide))).group
  have hall := hedgeTaken.seq (hwordTaken.seq (hgapTaken.seq (hnameTaken.seq (takes_afterArrowName hb))))
  refine ⟨_, hall.finds, ?_⟩
  simp [Match.text?, Match.group?, List.lookup_cons, text_stretch hname]

theorem exists_all_arrow (hb : b.IsProper) :
    ∃ m later, scriptArrow.all b.text = m :: later ∧ m.start = on b.text 0 ∧ m.groupText 1 = b.name ∧
      ∀ m' ∈ later, m'.groupText 1 ≠ b.name := by
  obtain ⟨m, hfinds, hname⟩ := exists_finds_arrow hb
  obtain ⟨later, hall, hlater⟩ := (all_sweep (by decide) b.text).take hfinds
  refine ⟨m, later, hall, hfinds.2.1, by rw [Match.groupText, hname, Option.getD_some], fun m' hm' hname' => ?_⟩
  obtain ⟨i, j, hi, hfinds'⟩ := hlater.exists_finds hm'
  rw [scriptArrow_eq] at hfinds'
  obtain ⟨a, e, hbefore, hat, -, hgroup⟩ := endsNames_afterArrowName.exists_nameAt hfinds'
  have hia := hbefore.le
  have hae := hat.lt
  have hlistEnd : b.listEnd = 10 + b.name.length + b.list.length := rfl
  rcases nameAt_cases hb hat (text_stretch_of_groupText hgroup hname') with he | he | ⟨-, he⟩ <;> omega

end Matches

/-! ## The body after the first arrow -/

/-- What follows the first arrow of a text. -/
def afterArrow? (text : List Char) : Option (List Char) := (cutFirst ['=', '>'] text).map Prod.snd

theorem map_snd_cutFirstAfter (needle seen seen' text : List Char) :
    (cutFirstAfter needle seen text).map Prod.snd = (cutFirstAfter needle seen' text).map Prod.snd := by
  induction text generalizing seen seen' with
  | nil =>
    rw [cutFirstAfter, cutFirstAfter]
    split <;> rfl
  | cons c rest ih =>
    rw [cutFirstAfter, cutFirstAfter]
    split
    · rfl
    · exact ih (c :: seen) (c :: seen')

theorem afterArrow?_append {front after : List Char} (h : afterArrow? front = some after) (rest : List Char) :
    afterArrow? (front ++ rest) = some (after ++ rest) := by
  obtain ⟨⟨before, after'⟩, hcut, rfl⟩ := Option.map_eq_some_iff.mp h
  have hcut : cutFirst ['=', '>'] (front ++ rest) = some (before, after' ++ rest) :=
    cutFirstAfter_append (List.cons_ne_nil _ _) hcut rest
  rw [afterArrow?, hcut]
  rfl

/-- A text without an arrow is passed over, if its end makes none with what follows. -/
theorem afterArrow?_skip {front rest : List Char} (hnone : ¬ ['=', '>'] <:+: front)
    (hjoin : front.getLast? = some '=' → rest.head? ≠ some '>') : afterArrow? (front ++ rest) = afterArrow? rest := by
  induction front with
  | nil => rfl
  | cons c front ih =>
    have hnotHere : ['=', '>'].isPrefixOf (c :: (front ++ rest)) = false := by
      rw [Bool.eq_false_iff]
      intro hfront
      obtain ⟨hc, hnext⟩ := List.cons_prefix_cons.mp (List.isPrefixOf_iff_prefix.mp hfront)
      cases front with
      | nil =>
        obtain ⟨tail, htail⟩ := hnext
        rw [List.nil_append] at htail
        exact hjoin (by rw [← hc]; rfl) (by rw [← htail]; rfl)
      | cons d front =>
        obtain ⟨hd, -⟩ := List.cons_prefix_cons.mp hnext
        refine hnone (List.IsPrefix.isInfix ⟨front, ?_⟩)
        rw [← hc, ← hd]
        rfl
    have hrest : afterArrow? (front ++ rest) = afterArrow? rest := by
      refine ih (fun hinside => hnone (hinside.trans (List.infix_cons (List.infix_refl front)))) fun hlast => hjoin ?_
      rw [List.getLast?_cons, hlast]
      rfl
    rw [← hrest, afterArrow?, cutFirst, List.cons_append, cutFirstAfter, hnotHere, if_neg Bool.false_ne_true]
    exact map_snd_cutFirstAfter _ _ _ _

theorem afterArrow?_eq_none_iff {text : List Char} : afterArrow? text = none ↔ ¬ ['=', '>'] <:+: text := by
  rw [← cutFirstAfter_isSome, Bool.not_eq_true, Option.isSome_eq_false_iff, Option.isNone_iff_eq_none, afterArrow?,
    Option.map_eq_none_iff, cutFirst]

theorem afterArrow?_text (hb : b.IsProper) :
    afterArrow? b.text = afterArrow? (b.list ++ (") => ".toList ++ b.block)) := by
  have hname : '>' ∉ b.name := fun hmem => absurd (hb.name_isScriptName.wordOrDollar hmem) (by decide)
  have hnone : ¬ ['=', '>'] <:+: "const ".toList ++ (b.name ++ " = (".toList) := fun hinside => by
    have hmem : '>' ∈ "const ".toList ++ (b.name ++ " = (".toList) := hinside.subset (by decide)
    rcases List.mem_append.mp hmem with hmem | hmem
    · exact absurd hmem (by decide)
    · exact (List.mem_append.mp hmem).elim hname fun hmem => absurd hmem (by decide)
  have hlast : ("const ".toList ++ (b.name ++ " = (".toList)).getLast? = some '(' := by
    rw [List.getLast?_append_of_ne_nil _ (by simp), List.getLast?_append_of_ne_nil _ (by decide)]
    rfl
  have htext : b.text = "const ".toList ++ (b.name ++ " = (".toList) ++ (b.list ++ (") => ".toList ++ b.block)) := by
    rw [List.append_assoc, List.append_assoc]
    rfl
  rw [htext]
  exact afterArrow?_skip hnone fun heq => by rw [hlast] at heq; cases heq

theorem ofArrow_eq {text after : List Char} (h : afterArrow? text = some after) :
    Body.ofArrow text = if (after.dropWhile isBlank).head? == some '{' then Body.braced (after.dropWhile isBlank)
      else (after.dropWhile isBlank).takeWhile fun c => c != '\n' && c != ';' := by
  obtain ⟨⟨before, after'⟩, hcut, rfl⟩ := Option.map_eq_some_iff.mp h
  rw [Body.ofArrow, hcut]

theorem braced_block_append (hb : b.IsProper) (rest : List Char) : Body.braced (b.block ++ rest) = b.block := by
  have hfirst : Body.FirstBlock (b.block ++ rest) [] b.block rest :=
    hb.body_isBalanced.firstBlock List.not_mem_nil rest
  exact hfirst.braced_eq

theorem braced_block (hb : b.IsProper) : Body.braced b.block = b.block := by
  have hblock := braced_block_append hb []
  rwa [List.append_nil] at hblock

/-- Without an arrow in the parameters, the body is the block. -/
theorem ofArrow_eq_block (hb : b.IsProper) (hnone : afterArrow? b.list = none) : Body.ofArrow b.text = b.block := by
  have hlist : ¬ ['=', '>'] <:+: b.list := afterArrow?_eq_none_iff.mp hnone
  have harrow : afterArrow? b.text = some (' ' :: b.block) := by
    have hrest : afterArrow? (") => ".toList ++ b.block) = some (' ' :: b.block) := rfl
    have hhead : (") => ".toList ++ b.block).head? ≠ some '>' := fun heq =>
      absurd (show some ')' = some '>' from heq) (by decide)
    rw [afterArrow?_text hb, afterArrow?_skip hlist fun _ => hhead, hrest]
  have hdrop : (' ' :: b.block).dropWhile isBlank = b.block := rfl
  rw [ofArrow_eq harrow, hdrop, braced_block hb]
  rfl

/-- A block that begins in the parameters and goes on beyond them would open more braces than it closes. -/
theorem block_prefix_of_prefix_append (hb : b.IsProper) {front : List Char} (hne : front ≠ [])
    (h : b.block <+: front ++ (") => ".toList ++ b.block)) : b.block <+: front := by
  rcases List.prefix_or_prefix_of_prefix h (List.prefix_append front _) with hblock | hfront
  · exact hblock
  · obtain ⟨tail, htail⟩ := hfront
    have hsplit : front ++ tail <+: front ++ (") => ".toList ++ b.block) := by
      rw [htail]
      exact h
    have hrest : tail <+: ") => ".toList ++ b.block := (List.prefix_append_right_inj front).mp hsplit
    have htailCount : tail.count '}' ≤ tail.count '{' := by
      rcases List.prefix_or_prefix_of_prefix hrest (List.prefix_append _ _) with hshort | ⟨more, rfl⟩
      · have hnone : '}' ∉ tail := fun hmem => absurd (hshort.subset hmem) (by decide)
        rw [List.count_eq_zero.mpr hnone]
        exact Nat.zero_le _
      · have hmore : more <+: b.block := (List.prefix_append_right_inj _).mp hrest
        have hle := hb.body_isBalanced.block_count_le hmore
        have hopen : (") => ".toList).count '{' = 0 := by decide
        have hclose : (") => ".toList).count '}' = 0 := by decide
        rw [List.count_append, List.count_append, hopen, hclose, Nat.zero_add, Nat.zero_add]
        exact hle
    have hcount : (front ++ tail).count '{' = (front ++ tail).count '}' := by
      rw [htail]
      exact hb.body_isBalanced.block_count_eq
    rw [List.count_append, List.count_append] at hcount
    have hfront : front <+: b.block := htail ▸ List.prefix_append front tail
    by_cases hall : front = b.block
    · rw [hall]
    · have hlt := hb.body_isBalanced.block_stays_open hfront hne hall
      omega

/-- With an arrow in the parameters, the body is the block only if it is what follows that arrow. -/
theorem ofArrow_eq_block_iff (hb : b.IsProper) {after : List Char} (harrow : afterArrow? b.list = some after) :
    Body.ofArrow b.text = b.block ↔ b.block <+: after.dropWhile isBlank := by
  have htext : afterArrow? b.text = some (after ++ (") => ".toList ++ b.block)) := by
    rw [afterArrow?_text hb, afterArrow?_append harrow]
  rw [ofArrow_eq htext]
  cases hfront : after.dropWhile isBlank with
  | nil =>
    have hdrop : (after ++ (") => ".toList ++ b.block)).dropWhile isBlank = ") => ".toList ++ b.block := by
      rw [List.dropWhile_append_of_pos (List.dropWhile_eq_nil_iff.mp hfront)]
      rfl
    rw [hdrop]
    constructor
    · intro heq
      cases congrArg List.head? heq
    · intro hfront
      cases List.prefix_nil.mp hfront
  | cons c front =>
    have hdrop : (after ++ (") => ".toList ++ b.block)).dropWhile isBlank =
        c :: front ++ (") => ".toList ++ b.block) := by
      rw [List.dropWhile_append, hfront]
      rfl
    rw [hdrop]
    by_cases hc : c = '{'
    · rw [hc]
      have hhead : (('{' :: front ++ (") => ".toList ++ b.block)).head? == some '{') = true := rfl
      rw [if_pos hhead]
      constructor
      · intro hbraced
        have hfront : Body.braced ('{' :: front ++ (") => ".toList ++ b.block)) <+:
            '{' :: front ++ (") => ".toList ++ b.block) := Body.braced_prefix _
        rw [hbraced] at hfront
        exact block_prefix_of_prefix_append hb (List.cons_ne_nil _ _) hfront
      · rintro ⟨rest, hrest⟩
        rw [← hrest, List.append_assoc, braced_block_append hb]
    · have hhead : ((c :: front ++ (") => ".toList ++ b.block)).head? == some '{') = false :=
        beq_eq_false_iff_ne.mpr fun heq => hc (Option.some.inj heq)
      rw [hhead, if_neg Bool.false_ne_true]
      constructor
      · intro heq
        have hfront := heq ▸ List.takeWhile_prefix fun c => c != '\n' && c != ';'
        exact absurd (List.cons_prefix_cons.mp hfront).1.symm hc
      · intro hfront
        exact absurd (List.cons_prefix_cons.mp hfront).1.symm hc

/-! ## What is reported -/

open Functions

def IsNamed (name : List Char) (f : Function) : Bool := f.name == String.ofList name

def Reads (name : List Char) (m : Match) : Bool := m.groupText 1 == name

theorem filter_isNamed_map {tell : Match → Function} (htell : ∀ m, (tell m).name = String.ofList (m.groupText 1))
    (name : List Char) (ms : List Match) :
    (ms.map tell).filter (IsNamed name) = (ms.filter (Reads name)).map tell := by
  rw [List.filter_map]
  congr 1
  refine List.filter_congr fun m _ => ?_
  rw [Function.comp_apply, IsNamed, Reads, htell, Bool.eq_iff_iff, beq_iff_eq, beq_iff_eq, String.ofList_inj]

theorem filter_reads_eq_nil {name : List Char} {ms : List Match} (h : ∀ m ∈ ms, m.groupText 1 ≠ name) :
    ms.filter (Reads name) = [] :=
  List.filter_eq_nil_iff.mpr fun m hm => by simpa [Reads] using h m hm

theorem filter_isNamed_script (score : Scorer) (name text : List Char) :
    (script score text).filter (IsNamed name) =
      ((((scriptFunction.all text).filter (Reads name)).map (ofScriptFunction score) ++
        ((scriptArrow.all text).filter (Reads name)).map (ofScriptArrow score) ++
        ((scriptMethod.all text).filter (Reads name)).map (ofScriptMethod score)).foldl addNew []).reverse := by
  rw [← filter_isNamed_map (fun _ => rfl), ← filter_isNamed_map (fun _ => rfl), ← filter_isNamed_map (fun _ => rfl),
    ← List.filter_append, ← List.filter_append, script, List.filter_reverse]
  exact congrArg List.reverse (filter_foldl_addNew (String.ofList name) _ [])

/-- Under the name of a binding one function is reported: one that is read off the parameters, or else the binding. -/
theorem exists_filter_script (hb : b.IsProper) :
    ∃ m, m.start = on b.text 0 ∧ ∀ score, (script score b.text).filter (IsNamed b.name) =
      [((scriptFunction.all b.text).find? (Reads b.name)).elim (ofScriptArrow score m) (ofScriptFunction score)] := by
  obtain ⟨m, later, hall, hstart, hname, hlater⟩ := exists_all_arrow hb
  refine ⟨m, hstart, fun score => ?_⟩
  have hreads : Reads b.name m = true := beq_iff_eq.mpr hname
  have harrows : (scriptArrow.all b.text).filter (Reads b.name) = [m] := by
    rw [hall, List.filter_cons_of_pos hreads, filter_reads_eq_nil hlater]
  have hmethods : (scriptMethod.all b.text).filter (Reads b.name) = [] :=
    filter_reads_eq_nil fun _ hm => groupText_ne_of_method hb hm
  have harrowName : (ofScriptArrow score m).name = String.ofList b.name := congrArg String.ofList hname
  have harrowLine : (ofScriptArrow score m).line = 1 := by
    change m.start.line = 1
    rw [hstart]
    exact line_on_eq_one hb (Nat.zero_le _)
  have hfunctionKey : ∀ m' ∈ (scriptFunction.all b.text).filter (Reads b.name),
      (ofScriptFunction score m').name = String.ofList b.name ∧ (ofScriptFunction score m').line = 1 := by
    intro m' hm'
    obtain ⟨hm', hreads'⟩ := List.mem_filter.mp hm'
    have hname' : m'.groupText 1 = b.name := beq_iff_eq.mp hreads'
    exact ⟨congrArg String.ofList hname', (line_and_rest_of_function hb hm' hname').1⟩
  rw [filter_isNamed_script, harrows, hmethods, List.map_nil, List.append_nil, ← List.head?_filter]
  cases hfunctions : (scriptFunction.all b.text).filter (Reads b.name) with
  | nil =>
    have hfree : reservedNames.contains (ofScriptArrow score m).name = false := by rw [harrowName, hb.name_isFree]
    exact congrArg List.reverse (foldl_addNew_of_sameKey hfree (List.forall_mem_nil _))
  | cons first rest =>
    rw [hfunctions] at hfunctionKey
    obtain ⟨⟨hfirstName, hfirstLine⟩, hrest⟩ := List.forall_mem_cons.mp hfunctionKey
    have hfree : reservedNames.contains (ofScriptFunction score first).name = false := by
      rw [hfirstName, hb.name_isFree]
    refine congrArg List.reverse (foldl_addNew_of_sameKey hfree fun g hg => ?_)
    rcases List.mem_append.mp hg with hg | hg
    · obtain ⟨m', hm', rfl⟩ := List.mem_map.mp hg
      rw [hfirstName, hfirstLine]
      exact hrest m' hm'
    · obtain rfl := List.mem_singleton.mp hg
      rw [hfirstName, hfirstLine]
      exact ⟨harrowName, harrowLine⟩

/-- A binding is reported once, on its line, and scored by one text. That text is its block if and only if the
parameters are read as a function of its name, or the block is what follows the first arrow in them, if there is
one. -/
theorem script_binding (hb : b.IsProper) :
    ∃ body, (∀ score, ((script score b.text).filter (IsNamed b.name)).map (fun f => (f.line, f.complexity)) =
        [(1, score body)]) ∧
      (body = b.block ↔ (∃ m ∈ scriptFunction.all b.text, m.groupText 1 = b.name) ∨
        ∀ before after, cutFirst "=>".toList b.list = some (before, after) → b.block <+: after.dropWhile isBlank) := by
  obtain ⟨m, hstart, hfilter⟩ := exists_filter_script hb
  cases hfind : (scriptFunction.all b.text).find? (Reads b.name) with
  | some found =>
    rw [hfind] at hfilter
    have hmem := List.mem_of_find?_eq_some hfind
    have hreads : Reads b.name found = true := List.find?_some hfind
    have hname : found.groupText 1 = b.name := beq_iff_eq.mp hreads
    obtain ⟨hline, hrest⟩ := line_and_rest_of_function hb hmem hname
    have hfirst : Body.FirstBlock (" => ".toList ++ b.block ++ []) " => ".toList b.block [] :=
      hb.body_isBalanced.firstBlock (by decide) []
    have hbody : Body.braced found.stop.rest = b.block := by
      rw [hrest, ← List.append_nil (" => ".toList ++ b.block)]
      exact hfirst.braced_eq
    refine ⟨b.block, fun score => ?_, iff_of_true rfl (.inl ⟨found, hmem, hname⟩)⟩
    rw [hfilter]
    change [(found.start.line, score (Body.braced found.stop.rest))] = [(1, score b.block)]
    rw [hline, hbody]
  | none =>
    rw [hfind] at hfilter
    have hnone : ¬ ∃ m ∈ scriptFunction.all b.text, m.groupText 1 = b.name := by
      rintro ⟨found, hmem, hname⟩
      exact List.find?_eq_none.mp hfind found hmem (beq_iff_eq.mpr hname)
    refine ⟨Body.ofArrow b.text, fun score => ?_, ?_⟩
    · rw [hfilter]
      change [(m.start.line, score (Body.ofArrow m.start.rest))] = [(1, score (Body.ofArrow b.text))]
      rw [hstart, line_on_eq_one hb (Nat.zero_le _)]
      rfl
    · rw [or_iff_right hnone]
      cases hcut : cutFirst "=>".toList b.list with
      | none =>
        have harrow : afterArrow? b.list = none := Option.map_eq_none_iff.mpr hcut
        exact iff_of_true (ofArrow_eq_block hb harrow) fun before after h => by cases h
      | some parts =>
        have harrow : afterArrow? b.list = some parts.2 := Option.map_eq_some_iff.mpr ⟨parts, hcut, rfl⟩
        rw [ofArrow_eq_block_iff hb harrow]
        exact ⟨fun h before after heq => by cases heq; exact h, fun h => h parts.1 parts.2 rfl⟩

/-- A binding with an arrow function as the default of its parameter. -/
def defaulted : Binding where
  name := "run".toList
  list := "g = x => x".toList
  body := "\n  if (a) {}\n".toList

theorem defaulted_isProper : defaulted.IsProper where
  name_isScriptName := ⟨'r', "un".toList, rfl, by decide, List.all_eq_true.mp (by decide)⟩
  name_isFree := by decide
  paren_not_mem := by decide
  newline_not_mem := by decide
  body_isBalanced :=
    { count_eq := by decide
      count_le := fun front hfront => by
        have hall : ∀ front ∈ defaulted.body.inits, front.count '}' ≤ front.count '{' := by decide
        exact hall front ((List.mem_inits _ _).mpr hfront) }
  name_not_infix := by decide

theorem script_binding_defaulted : defaulted.IsProper ∧
    ∃ body, (∀ score, ((script score defaulted.text).filter (IsNamed defaulted.name)).map
        (fun f => (f.line, f.complexity)) = [(1, score body)]) ∧
      (body = defaulted.block ↔ (∃ m ∈ scriptFunction.all defaulted.text, m.groupText 1 = defaulted.name) ∨
        ∀ before after, cutFirst "=>".toList defaulted.list = some (before, after) →
          defaulted.block <+: after.dropWhile isBlank) :=
  ⟨defaulted_isProper, script_binding defaulted_isProper⟩

/-- The rest of the line after the default's arrow is scored, and the block is not. -/
theorem script_binding_ne_block : ¬ ∀ b : Binding, b.IsProper → ∀ score,
    ((script score b.text).filter (IsNamed b.name)).map (fun f => (f.line, f.complexity)) = [(1, score b.block)] := by
  intro h
  have hscored := h defaulted defaulted_isProper List.length
  have hactual : ((script List.length defaulted.text).filter (IsNamed defaulted.name)).map
      (fun f => (f.line, f.complexity)) = [(1, "x) => \x7b".toList.length)] := by decide +kernel
  rw [hactual] at hscored
  exact absurd hscored (by decide)

end Binding

end CodeCensus
