import CodeCensus.Declaration.Basic
import CodeCensus.Proofs.Text.Class
import CodeCensus.Proofs.Text.Lines
import CodeCensus.Proofs.Text.Trim
import Mathlib.Data.Bool.AllAny

/-! Lists of parameters. A parameter is a name, an annotation after a colon and a default after an equals sign, and
its name is read off what precedes its first comma. What follows a comma within an annotation or a default is read
as one more parameter, unless nothing but blanks precedes a colon or an equals sign in it. -/

namespace CodeCensus

open Text

/-! ## The name that a text is read as -/

/-- A name with blanks around it, followed by nothing or by what one of some marks begins. -/
def Names (marks : List Char) (name text : List Char) : Prop :=
  ∃ before after rest, text = before ++ name ++ after ++ rest ∧ (∀ c ∈ before, isBlank c = true) ∧
    (∀ c ∈ after, isBlank c = true) ∧ ∀ c ∈ rest.head?, c ∈ marks

namespace Names

variable {marks name text : List Char}

theorem upTo (h : Names marks name text) {sep : Char} (hname : sep ∉ name) (hsep : isBlank sep = false) :
    Names (marks.filter (· != sep)) name (Text.upTo sep text) := by
  obtain ⟨before, after, rest, rfl, hbefore, hafter, hrest⟩ := h
  have hfront : sep ∉ before ++ name ++ after := by
    simp only [List.mem_append, not_or]
    refine ⟨⟨fun hmem => ?_, hname⟩, fun hmem => ?_⟩
    · exact ne_of_isBlank (hbefore _ hmem) hsep rfl
    · exact ne_of_isBlank (hafter _ hmem) hsep rfl
  refine ⟨before, after, Text.upTo sep rest, upTo_append hfront rest, hbefore, hafter, fun c hc => ?_⟩
  rw [head?_upTo] at hc
  obtain ⟨hhead, hne⟩ := Option.filter_eq_some_iff.mp hc
  exact List.mem_filter.mpr ⟨hrest c hhead, hne⟩

theorem trim (h : Names marks name text) (hname : ∀ c ∈ name, isBlank c = false) (hne : name ≠ [])
    (hmarks : ∀ c ∈ marks, isBlank c = false) : Names marks name (Text.trim text) := by
  obtain ⟨before, after, rest, rfl, hbefore, hafter, hrest⟩ := h
  have htrim := trim_append_of_head? hbefore (head?_append_of_forall hne hname (after ++ rest))
  rw [List.append_assoc, List.append_assoc, htrim]
  cases rest with
  | nil =>
    rw [List.append_nil, trimEndBy_append_of_pos hafter]
    exact ⟨[], [], [], by simp [trimEndBy_eq_self hname], by simp, by simp, by simp⟩
  | cons mark rest =>
    have hmark : mark ∈ marks := hrest mark rfl
    obtain ⟨rest', hrest'⟩ := trimEndBy_append_cons (hmarks mark hmark) (name ++ after) rest
    rw [← List.append_assoc, hrest']
    refine ⟨[], after, mark :: rest', rfl, by simp, hafter, fun c hc => ?_⟩
    obtain rfl : mark = c := by simpa using hc
    exact hmark

theorem trim_eq (h : Names [] name text) (hname : ∀ c ∈ name, isBlank c = false) (hne : name ≠ []) :
    Text.trim text = name := by
  obtain ⟨before, after, rest, rfl, hbefore, hafter, hrest⟩ := h
  obtain rfl : rest = [] := by
    cases rest with
    | nil => rfl
    | cons c rest => exact absurd (hrest c rfl) List.not_mem_nil
  rw [List.append_nil, List.append_assoc,
    trim_append_of_head? hbefore (head?_append_of_forall hne hname after), trimEndBy_append_of_pos hafter,
    trimEndBy_eq_self hname]

end Names

/-- What precedes the marks of a parameter is its name. -/
theorem parameterName_of_names {name text : List Char} (h : Names [':', '='] name text) (hne : name ≠ [])
    (hname : ∀ c ∈ name, isBlank c = false ∧ c ≠ ':' ∧ c ≠ '=') : parameterName text = name := by
  have hblank : ∀ c ∈ name, isBlank c = false := fun c hc => (hname c hc).1
  have hcolon : ':' ∉ name := fun hmem => (hname _ hmem).2.1 rfl
  have hequals : '=' ∉ name := fun hmem => (hname _ hmem).2.2 rfl
  have hannotated : Names ['='] name (Text.upTo ':' (trim text)) :=
    (h.trim hblank hne (List.all_iff_forall_prop.mp (by decide))).upTo hcolon (by decide)
  have hplain : Names [] name (Text.upTo '=' (trim (Text.upTo ':' (trim text)))) :=
    (hannotated.trim hblank hne (List.all_iff_forall_prop.mp (by decide))).upTo hequals (by decide)
  exact hplain.trim_eq hblank hne

/-- A text is read as a name that begins with its first character that is no blank, and as none if that one is
a mark. -/
theorem head?_parameterName (text : List Char) :
    (parameterName text).head? =
      ((text.dropWhile isBlank).head?.filter (· != ':')).filter (· != '=') := by
  have hfirst : ∀ c ∈ (text.dropWhile isBlank).head?, isBlank c = false := fun c hc => by
    have := List.head?_dropWhile_not isBlank text
    rw [hc] at this
    simpa using this
  have hcolon : (Text.upTo ':' (trim text)).head? = (text.dropWhile isBlank).head?.filter (· != ':') := by
    rw [head?_upTo, head?_trim]
  have hsecond : ∀ c ∈ (Text.upTo ':' (trim text)).head?, isBlank c = false := fun c hc => by
    rw [hcolon] at hc
    exact hfirst c (Option.filter_eq_some_iff.mp hc).1
  have hequals : (Text.upTo '=' (trim (Text.upTo ':' (trim text)))).head? =
      ((text.dropWhile isBlank).head?.filter (· != ':')).filter (· != '=') := by
    rw [head?_upTo, head?_trim_of_head? hsecond, hcolon]
  have hthird : ∀ c ∈ (Text.upTo '=' (trim (Text.upTo ':' (trim text)))).head?, isBlank c = false :=
    fun c hc => by
      rw [hequals, ← hcolon] at hc
      exact hsecond c (Option.filter_eq_some_iff.mp hc).1
  rw [parameterName, head?_trim_of_head? hthird, hequals]

/-- A text that is read as no name: nothing but blanks precedes a mark in it, or there is nothing else. -/
def IsNameless (text : List Char) : Prop := ∀ c ∈ (text.dropWhile isBlank).head?, c = ':' ∨ c = '='

instance (text : List Char) : Decidable (IsNameless text) :=
  match h : (text.dropWhile isBlank).head? with
  | none => isTrue fun c hc => by rw [h] at hc; cases hc
  | some c => decidable_of_iff (c = ':' ∨ c = '=') ⟨fun hc d hd => by
      rw [h] at hd
      exact Option.some.inj hd ▸ hc, fun hall => hall c h⟩

theorem parameterName_eq_nil_iff {text : List Char} : parameterName text = [] ↔ IsNameless text := by
  rw [← List.head?_eq_none_iff, head?_parameterName, IsNameless]
  cases (text.dropWhile isBlank).head? with
  | none => simp
  | some c =>
    rw [Option.filter_some]
    by_cases hc : c = ':'
    · simp [hc]
    · simp [hc, Option.filter_some]

def nameIn? (text : List Char) : Option String :=
  if (parameterName text).isEmpty then none else some (String.ofList (parameterName text))

theorem nameIn?_eq_none_iff {text : List Char} : nameIn? text = none ↔ IsNameless text := by
  rw [← parameterName_eq_nil_iff, ← List.isEmpty_iff, nameIn?]
  split <;> simp_all

theorem parameterNames_eq (list : List Char) : parameterNames list = (fields ',' list).filterMap nameIn? := by
  rw [parameterNames, List.filterMap_map]
  rfl

/-! ## Parameters as written -/

/-- A parameter as it is written: its name with blanks around it, an annotation after a colon and a default after
an equals sign. -/
structure Parameter where
  before : List Char := []
  name : List Char
  after : List Char := []
  annotation : Option (List Char) := none
  value : Option (List Char) := none

namespace Parameter

def marked (mark : Char) : Option (List Char) → List Char
  | none => []
  | some part => mark :: part

def text (p : Parameter) : List Char :=
  p.before ++ p.name ++ p.after ++ (marked ':' p.annotation ++ marked '=' p.value)

/-- What follows the commas within a parameter, one by one. -/
def afterCommas (p : Parameter) : List (List Char) := (fields ',' p.text).tail

/-- The name is one, with no blank in it and nothing that separates or encloses. -/
structure IsProper (p : Parameter) : Prop where
  before_isBlank : ∀ c ∈ p.before, isBlank c = true
  name_ne_nil : p.name ≠ []
  name_isPlain : ∀ c ∈ p.name, isBlank c = false ∧
    c ∉ [',', ':', '=', '(', ')', '[', ']', '{', '}', '<', '>']
  after_isBlank : ∀ c ∈ p.after, isBlank c = true

def joined (ps : List Parameter) : List Char := List.intercalate [','] (ps.map text)

variable {p : Parameter}

theorem head?_marks {c : Char} (hc : c ∈ (marked ':' p.annotation ++ marked '=' p.value).head?) :
    c ∈ [':', '='] := by
  cases hnote : p.annotation with
  | some part =>
    obtain rfl : ':' = c := by simpa [hnote, marked] using hc
    decide
  | none =>
    cases hvalue : p.value with
    | some part =>
      obtain rfl : '=' = c := by simpa [hnote, hvalue, marked] using hc
      decide
    | none => simp [hnote, hvalue, marked] at hc

/-- The name is read off what precedes the first comma. -/
theorem IsProper.nameIn?_upTo_text (h : p.IsProper) : nameIn? (upTo ',' p.text) = some (String.ofList p.name) := by
  have hplain (c : Char) (hc : c ∈ p.name) : c ≠ ',' ∧ c ≠ ':' ∧ c ≠ '=' := by
    have := (h.name_isPlain c hc).2
    simp only [List.mem_cons, not_or] at this
    exact ⟨this.1, this.2.1, this.2.2.1⟩
  have hnames : Names [':', '='] p.name p.text :=
    ⟨p.before, p.after, _, rfl, h.before_isBlank, h.after_isBlank, fun c hc => head?_marks hc⟩
  have hfront : Names [':', '='] p.name (upTo ',' p.text) :=
    hnames.upTo (fun hmem => (hplain _ hmem).1 rfl) (by decide)
  have hname : parameterName (upTo ',' p.text) = p.name :=
    parameterName_of_names hfront h.name_ne_nil fun c hc => ⟨(h.name_isPlain c hc).1, (hplain c hc).2⟩
  rw [nameIn?, hname, if_neg (by simpa using h.name_ne_nil)]

theorem IsProper.filterMap_fields_text (h : p.IsProper) :
    (fields ',' p.text).filterMap nameIn? = String.ofList p.name :: p.afterCommas.filterMap nameIn? := by
  rw [fields_eq_upTo_cons, List.filterMap_cons_some h.nameIn?_upTo_text, afterCommas]

end Parameter

theorem length_le_length_flatMap_cons {α β : Type} (l : List α) (f : α → β) (more : α → List β) :
    l.length ≤ (l.flatMap fun a => f a :: more a).length := by
  induction l with
  | nil => exact Nat.zero_le _
  | cons a l ih =>
    rw [List.flatMap_cons, List.length_append, List.length_cons, List.length_cons]
    omega

theorem flatMap_cons_eq_map_iff {α β : Type} {l : List α} {f : α → β} {more : α → List β} :
    (l.flatMap fun a => f a :: more a) = l.map f ↔ ∀ a ∈ l, more a = [] := by
  induction l with
  | nil => simp
  | cons a l ih =>
    rw [List.flatMap_cons, List.map_cons, List.cons_append, List.cons_inj_right, List.forall_mem_cons, ← ih]
    refine ⟨fun heq => ?_, fun ⟨hnil, heq⟩ => by rw [hnil, heq, List.nil_append]⟩
    have hlength := congrArg List.length heq
    rw [List.length_append, List.length_map] at hlength
    have hrest := length_le_length_flatMap_cons l f more
    have hnil : more a = [] := List.eq_nil_of_length_eq_zero (by omega)
    exact ⟨hnil, by rwa [hnil, List.nil_append] at heq⟩

open Parameter in
/-- Each parameter gives its name and a name for each text after a comma within it that is read as one. So a list
gives its names and no others if and only if each of these texts is read as none, and always if there are none. -/
theorem parameterNames_joined {ps : List Parameter} (h : ∀ p ∈ ps, p.IsProper) :
    parameterNames (joined ps) = ps.flatMap (fun p =>
      String.ofList p.name :: p.afterCommas.filterMap nameIn?) ∧
    (parameterNames (joined ps) = ps.map (fun p => String.ofList p.name) ↔
      ∀ p ∈ ps, ∀ part ∈ p.afterCommas, IsNameless part) ∧
    ((∀ p ∈ ps, ',' ∉ p.text) → parameterNames (joined ps) = ps.map fun p => String.ofList p.name) := by
  have hnames : parameterNames (joined ps) = ps.flatMap fun p =>
      String.ofList p.name :: p.afterCommas.filterMap nameIn? := by
    rcases eq_or_ne ps [] with rfl | hne
    · rfl
    · rw [parameterNames_eq, joined, fields_intercalate_eq_flatMap (by simpa using hne), List.flatMap_map,
        List.filterMap_flatMap]
      exact List.flatMap_congr fun p hp => (h p hp).filterMap_fields_text
  have hiff : parameterNames (joined ps) = ps.map (fun p => String.ofList p.name) ↔
      ∀ p ∈ ps, ∀ part ∈ p.afterCommas, IsNameless part := by
    rw [hnames, flatMap_cons_eq_map_iff]
    refine forall₂_congr fun p _ => ?_
    rw [List.filterMap_eq_nil_iff]
    exact forall₂_congr fun part _ => nameIn?_eq_none_iff
  refine ⟨hnames, hiff, fun hcomma => hiff.mpr fun p hp part hpart => ?_⟩
  rw [afterCommas, fields_of_not_mem (hcomma p hp)] at hpart
  cases hpart

namespace Parameter

/-- The parameter `items: Dict[str, int]`. -/
def dictionary : Parameter := { name := "items".toList, annotation := some " Dict[str, int]".toList }

/-- The parameter ` row = grid[0, :]`. -/
def row : Parameter where
  before := [' ']
  name := "row".toList
  after := [' ']
  value := some " grid[0, :]".toList

theorem dictionary_isProper : dictionary.IsProper where
  before_isBlank := List.all_iff_forall_prop.mp (by decide)
  name_ne_nil := by decide
  name_isPlain := List.all_iff_forall_prop.mp (by decide)
  after_isBlank := List.all_iff_forall_prop.mp (by decide)

theorem row_isProper : row.IsProper where
  before_isBlank := List.all_iff_forall_prop.mp (by decide)
  name_ne_nil := by decide
  name_isPlain := List.all_iff_forall_prop.mp (by decide)
  after_isBlank := List.all_iff_forall_prop.mp (by decide)

end Parameter

theorem parameterNames_joined_insideBrackets :
    Parameter.dictionary.IsProper ∧ Parameter.row.IsProper ∧
      parameterNames (Parameter.joined [.dictionary, .row]) = ["items", "int]", "row"] := by
  have hproper : ∀ p ∈ [Parameter.dictionary, .row], p.IsProper := by
    simp [Parameter.dictionary_isProper, Parameter.row_isProper]
  refine ⟨Parameter.dictionary_isProper, Parameter.row_isProper, (parameterNames_joined hproper).1.trans ?_⟩
  decide

namespace Parameter

def closing? : Char → Option Char
  | '(' => some ')'
  | '[' => some ']'
  | '{' => some '}'
  | '<' => some '>'
  | _ => none

/-- Whether the brackets of a text are closed in turn, the last opened first, and no comma stands outside them.
`due` are those still to be closed. -/
def encloses (due : List Char) : List Char → Bool
  | [] => due.isEmpty
  | c :: rest =>
    match closing? c with
    | some d => encloses (d :: due) rest
    | none =>
      if [')', ']', '}', '>'].contains c then
        match due with
        | [] => false
        | d :: due => c == d && encloses due rest
      else (c != ',' || !due.isEmpty) && encloses due rest

/-- An annotation and a default that are there are not empty, and their commas stand inside brackets. -/
def IsEnclosed (p : Parameter) : Prop :=
  ∀ part ∈ p.annotation.toList ++ p.value.toList, part ≠ [] ∧ encloses [] part = true

end Parameter

/-- The comma in `items: Dict[str, int]` separates, too. -/
theorem parameterNames_ne_names_commaInBrackets :
    ¬ ∀ ps : List Parameter, (∀ p ∈ ps, p.IsProper ∧ p.IsEnclosed) →
      parameterNames (Parameter.joined ps) = ps.map fun p => String.ofList p.name := by
  intro h
  have henclosed : Parameter.dictionary.IsEnclosed := by
    unfold Parameter.IsEnclosed
    decide
  have hnames := h [.dictionary] (by simp [Parameter.dictionary_isProper, henclosed])
  exact absurd hnames (by decide)

end CodeCensus
