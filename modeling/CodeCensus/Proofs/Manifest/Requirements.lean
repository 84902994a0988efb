import CodeCensus.Manifest
import CodeCensus.Proofs.Text.Breaks
import CodeCensus.Proofs.Text.Class
import CodeCensus.Proofs.Text.Trim
import Mathlib.Data.Bool.AllAny

/-! Lists of requirements. A requirement begins with a name, and extras, versions or an address, a marker and a comment
may follow it. The name is read where a blank or one of the characters that end a name comes behind it. A parenthesis and
an at sign are none of these: right behind a name they are taken for a part of it. -/

namespace CodeCensus

open Text

/-! ## Requirements as they are written -/

/-- Blanks within a line. -/
abbrev Gap := { gap : List Char // ∀ c ∈ gap, isBlank c = true ∧ isLineBreak c = false }

/-- Any text within a line. -/
abbrev Remark := { text : List Char // IsOneLine text }

/-- Letters and digits of any alphabet. -/
def isAlphanumeric (c : Char) : Bool := isWord c && c != '_'

/-- The name of a package or of an extra. -/
structure Identifier where
  text : List Char
  chars : ∀ c ∈ text, isWord c = true ∨ c = '.' ∨ c = '-'
  first : ∃ c ∈ text.head?, isAlphanumeric c = true
  last : ∃ c ∈ text.getLast?, isAlphanumeric c = true

/-- Items between commas. -/
structure CommaList (α : Type) where
  first : α
  more : List (Gap × Gap × α)

def CommaList.text {α : Type} (write : α → List Char) (l : CommaList α) : List Char :=
  write l.first ++ l.more.flatMap fun (before, after, item) => before.1 ++ ',' :: (after.1 ++ write item)

structure Extras where
  before : Gap
  names : Option (CommaList Identifier)
  after : Gap

def Extras.text (e : Extras) : List Char :=
  '[' :: (e.before.1 ++ ((e.names.map (CommaList.text Identifier.text)).getD [] ++ (e.after.1 ++ [']'])))

def operators : List (List Char) := ["<=", "<", "!=", "==", ">=", ">", "~=", "==="].map String.toList

/-- A condition on the version. -/
structure VersionClause where
  operator : List Char
  operator_mem : operator ∈ operators
  gap : Gap
  version : List Char
  version_ne_nil : version ≠ []
  version_chars : ∀ c ∈ version, isAlphanumeric c = true ∨ c ∈ ['-', '_', '.', '*', '+', '!']

def VersionClause.text (v : VersionClause) : List Char := v.operator ++ (v.gap.1 ++ v.version)

/-- Conditions on the version, which another comma may follow. -/
structure VersionList where
  clauses : CommaList VersionClause
  comma : Option (Gap × Gap)

def VersionList.text (l : VersionList) : List Char :=
  l.clauses.text VersionClause.text ++ (l.comma.map fun (before, after) => before.1 ++ ',' :: after.1).getD []

/-- Which versions are wanted, or where the package is. -/
inductive Constraint
  | none
  | versions (list : VersionList)
  | bracketed (before : Gap) (list : VersionList) (after : Gap)
  | address (before : Gap) (url : List Char) (ne_nil : url ≠ []) (solid : ∀ c ∈ url, isBlank c = false)

def Constraint.text : Constraint → List Char
  | .none => []
  | .versions list => list.text
  | .bracketed before list after => '(' :: (before.1 ++ (list.text ++ (after.1 ++ [')'])))
  | .address before url _ _ => '@' :: (before.1 ++ url)

structure Requirement where
  before : Gap
  name : Identifier
  gap : Gap
  extras : Option (Extras × Gap)
  constraint : Constraint
  spacing : Gap
  /-- What stands behind a semicolon. -/
  marker : Option Remark
  after : Gap
  /-- What stands behind a number sign. -/
  comment : Option Remark
  comment_apart : comment.isSome → after.1 ≠ []

namespace Requirement

def extrasText (r : Requirement) : List Char := (r.extras.map fun (extras, gap) => extras.text ++ gap.1).getD []

def markerText (r : Requirement) : List Char := (r.marker.map fun marker => ';' :: marker.1).getD []

def commentText (r : Requirement) : List Char := (r.comment.map fun comment => '#' :: comment.1).getD []

/-- What stands behind the versions or the address. -/
def ending (r : Requirement) : List Char := r.spacing.1 ++ (r.markerText ++ (r.after.1 ++ r.commentText))

/-- What stands behind the name. -/
def behind (r : Requirement) : List Char := r.gap.1 ++ (r.extrasText ++ (r.constraint.text ++ r.ending))

def text (r : Requirement) : List Char := r.before.1 ++ (r.name.text ++ r.behind)

end Requirement

/-! ## Characters that end a name -/

namespace Manifest

variable {text rest : List Char} {c : Char}

def inName (c : Char) : Bool := !endsName c

/-- No part of a name is left at the front of a text. -/
def Stops (text : List Char) : Prop := ∀ c ∈ text.head?, endsName c = true

theorem endsName_of_isBlank (h : isBlank c = true) : endsName c = true := by
  rw [endsName, h, Bool.or_true]

theorem endsName_eq_false (hblank : isBlank c = false) (hmark : c ∉ ['=', '<', '>', '!', '~', '#', ';', '[']) :
    endsName c = false := by
  rw [endsName, hblank, Bool.or_false, ← Bool.not_eq_true, List.contains_iff_mem]
  exact hmark

theorem Stops.takeWhile_eq_nil (h : Stops text) : text.takeWhile inName = [] := by
  cases text with
  | nil => rfl
  | cons c rest => rw [List.takeWhile_cons_of_neg (by rw [inName, h c rfl]; exact Bool.false_ne_true)]

theorem stops_cons (h : endsName c = true) (rest : List Char) : Stops (c :: rest) := by
  rintro d ⟨⟩
  exact h

theorem Stops.gap_append (h : Stops rest) (gap : Gap) : Stops (gap.1 ++ rest) := by
  obtain ⟨gap, hgap⟩ := gap
  cases gap with
  | nil => exact h
  | cons c gap => exact stops_cons (endsName_of_isBlank (hgap c List.mem_cons_self).1) _

theorem takeWhile_inName_cons (h : endsName c = false) (rest : List Char) :
    (c :: rest).takeWhile inName = c :: rest.takeWhile inName :=
  List.takeWhile_cons_of_pos (by rw [inName, h]; rfl)

theorem Stops.takeWhile_append (h : Stops rest) (text : List Char) :
    (text ++ rest).takeWhile inName = text.takeWhile inName := by
  rw [List.takeWhile_append]
  split
  · rename_i hall
    rw [h.takeWhile_eq_nil, List.append_nil, (List.takeWhile_prefix inName).eq_of_length hall]
  · rfl

/-- Blanks at the end of a text do not count for what it begins with. -/
theorem takeWhile_inName_trimEndBy (text : List Char) :
    (trimEndBy isBlank text).takeWhile inName = text.takeWhile inName := by
  have hafter : Stops (text.rtakeWhile isBlank) := fun c hc =>
    endsName_of_isBlank (List.mem_rtakeWhile_imp (List.mem_of_mem_head? hc))
  have hsplit : trimEndBy isBlank text ++ text.rtakeWhile isBlank = text := List.rdropWhile_append_rtakeWhile
  rw [← hafter.takeWhile_append, hsplit]

theorem nonBlank?_of_solid (hne : text ≠ []) (h : ∀ c ∈ text, isBlank c = false) : nonBlank? text = some text := by
  have htrim : trim text = text :=
    trim_eq_self (fun c hc => h c (List.mem_of_mem_head? hc)) fun c hc => h c (List.mem_of_getLast? hc)
  obtain ⟨c, rest, rfl⟩ := List.exists_cons_of_ne_nil hne
  rw [nonBlank?, htrim]

theorem requirementName?_of_trim {line : List Char} (htrim : trim text = line) (hne : line ≠ [])
    (hmark : ∀ c ∈ line.head?, c ≠ '#' ∧ c ≠ '-') :
    requirementName? text = (nonBlank? (line.takeWhile inName)).map String.ofList := by
  obtain ⟨c, rest, rfl⟩ := List.exists_cons_of_ne_nil hne
  rw [requirementName?, htrim]
  exact if_neg (by simp [hmark c rfl])

/-- A name is read with what hangs on it, between blanks. -/
theorem requirementName?_append {before name : List Char} (hbefore : ∀ c ∈ before, isBlank c = true) (hne : name ≠ [])
    (hname : ∀ c ∈ name, endsName c = false) (hfirst : ∀ c ∈ name.head?, c ≠ '#' ∧ c ≠ '-') (behind : List Char) :
    requirementName? (before ++ (name ++ behind)) = some (String.ofList (name ++ behind.takeWhile inName)) := by
  have hblank : ∀ c ∈ name, isBlank c = false := fun c hc => (Bool.or_eq_false_iff.mp (hname c hc)).2
  have htrim : trim (before ++ (name ++ behind)) = name ++ trimEndBy isBlank behind := by
    rw [trim_append_of_head? hbefore (head?_append_of_forall hne hblank behind)]
    exact trimEndBy_append (fun c hc => hblank c (List.mem_of_getLast? hc)) behind
  have htaken : (name ++ trimEndBy isBlank behind).takeWhile inName = name ++ behind.takeWhile inName := by
    rw [List.takeWhile_append_of_pos fun c hc => by rw [inName, hname c hc]; rfl, takeWhile_inName_trimEndBy]
  have hsolid : ∀ c ∈ name ++ behind.takeWhile inName, isBlank c = false := by
    refine List.forall_mem_append.mpr ⟨hblank, fun c hc => ?_⟩
    have hin : endsName c = false := by simpa [inName] using List.mem_takeWhile_imp hc
    exact (Bool.or_eq_false_iff.mp hin).2
  have hhead : ∀ c ∈ (name ++ trimEndBy isBlank behind).head?, c ≠ '#' ∧ c ≠ '-' := by
    rwa [List.head?_append_of_ne_nil _ hne]
  rw [requirementName?_of_trim htrim (List.append_ne_nil_of_left_ne_nil hne _) hhead, htaken,
    nonBlank?_of_solid (List.append_ne_nil_of_left_ne_nil hne _) hsolid, Option.map_some]

theorem requirementName?_eq_none {before : List Char} (hbefore : ∀ c ∈ before, isBlank c = true) (hmark : c = '#' ∨ c = '-')
    (text : List Char) : requirementName? (before ++ c :: text) = none := by
  have hblank : isBlank c = false := by rcases hmark with rfl | rfl <;> rfl
  obtain ⟨rest, hrest⟩ := trimEndBy_append_cons hblank [] text
  rw [requirementName?, trim_append_of_head? hbefore (by rintro d ⟨⟩; exact hblank), ← List.nil_append (c :: text), hrest]
  rcases hmark with rfl | rfl <;> rfl

theorem requirementName?_of_blank (h : ∀ c ∈ text, isBlank c = true) : requirementName? text = none := by
  have htrim : trim (text ++ []) = trim [] := trim_blanks_append h []
  rw [List.append_nil] at htrim
  rw [requirementName?, htrim]
  rfl

end Manifest

/-! ## What is read off a requirement -/

open Manifest

theorem Identifier.not_isBlank (i : Identifier) : ∀ c ∈ i.text, isBlank c = false := by
  intro c hc
  rcases i.chars c hc with hword | rfl | rfl
  · exact not_isBlank_of_isWord hword
  · rfl
  · rfl

theorem Identifier.not_endsName (i : Identifier) : ∀ c ∈ i.text, endsName c = false := by
  intro c hc
  refine endsName_eq_false (i.not_isBlank c hc) fun hmark => ?_
  have hmarks : ∀ c ∈ ['=', '<', '>', '!', '~', '#', ';', '['], isWord c = false ∧ c ≠ '.' ∧ c ≠ '-' :=
    List.all_iff_forall_prop.mp (by decide +kernel)
  obtain ⟨hword, hdot, hdash⟩ := hmarks c hmark
  rcases i.chars c hc with h | h | h
  · rw [hword] at h
    cases h
  · exact hdot h
  · exact hdash h

theorem Identifier.first_ne (i : Identifier) : ∀ c ∈ i.text.head?, c ≠ '#' ∧ c ≠ '-' := by
  obtain ⟨d, hd, hletter⟩ := i.first
  intro c hc
  obtain rfl : d = c := Option.some.inj (hd.symm.trans hc)
  refine ⟨?_, ?_⟩
  · rintro rfl
    exact absurd hletter (by decide)
  · rintro rfl
    exact absurd hletter (by decide)

theorem Identifier.ne_nil (i : Identifier) : i.text ≠ [] := by
  intro hnil
  obtain ⟨c, hc, -⟩ := i.first
  rw [hnil] at hc
  cases hc

theorem VersionClause.stops (v : VersionClause) (rest : List Char) : Stops (v.text ++ rest) := by
  have hmarks : ∀ operator ∈ operators, operator ≠ [] ∧ operator.head?.all endsName = true := by decide
  obtain ⟨hne, hfirst⟩ := hmarks v.operator v.operator_mem
  rw [VersionClause.text, List.append_assoc, Stops, List.head?_append_of_ne_nil _ hne]
  exact (Option.all_eq_true ..).mp hfirst

theorem VersionList.stops (l : VersionList) (rest : List Char) : Stops (l.text ++ rest) := by
  rw [VersionList.text, CommaList.text, List.append_assoc, List.append_assoc]
  exact l.clauses.first.stops _

/-- What is taken for a part of the name right in front of it. -/
def Constraint.glue : Constraint → List Char
  | .none => []
  | .versions _ => []
  | .bracketed _ _ _ => ['(']
  | .address before url _ _ => '@' :: if before.1 = [] then url.takeWhile inName else []

theorem Constraint.takeWhile_append (k : Constraint) {rest : List Char} (h : Stops rest) :
    (k.text ++ rest).takeWhile inName = k.glue := by
  cases k with
  | none => exact h.takeWhile_eq_nil
  | versions list => exact (list.stops rest).takeWhile_eq_nil
  | bracketed before list after =>
    have hinside : Stops ((before.1 ++ (list.text ++ (after.1 ++ [')']))) ++ rest) := by
      rw [List.append_assoc, List.append_assoc]
      exact (list.stops _).gap_append before
    rw [text, List.cons_append, takeWhile_inName_cons rfl, hinside.takeWhile_eq_nil]
    rfl
  | address before url ne_nil solid =>
    rw [text, List.cons_append, takeWhile_inName_cons rfl, glue, List.append_assoc]
    refine congrArg ('@' :: ·) ?_
    split
    · rename_i hnil
      rw [hnil]
      exact h.takeWhile_append url
    · rename_i hne
      obtain ⟨c, gap, hgap⟩ := List.exists_cons_of_ne_nil hne
      have hblank : isBlank c = true := (before.2 c (hgap ▸ List.mem_cons_self)).1
      rw [hgap]
      exact (stops_cons (endsName_of_isBlank hblank) _).takeWhile_eq_nil

namespace Requirement

variable {r : Requirement}

theorem stops_ending (r : Requirement) : Stops r.ending := by
  have hcomment : Stops r.commentText := by
    rw [commentText]
    cases r.comment with
    | none => exact fun c hc => by cases hc
    | some comment => exact stops_cons rfl _
  refine Stops.gap_append ?_ r.spacing
  rw [markerText]
  cases r.marker with
  | none => exact hcomment.gap_append r.after
  | some marker => exact stops_cons rfl _

/-- What hangs on the name of a requirement: something only if its versions in parentheses or its address come right
behind it. -/
def glued (r : Requirement) : List Char := if r.gap.1 = [] ∧ r.extras.isNone then r.constraint.glue else []

theorem takeWhile_behind (r : Requirement) : r.behind.takeWhile inName = r.glued := by
  have hrest := r.constraint.takeWhile_append r.stops_ending
  rw [glued, behind]
  split
  · rename_i hbare
    rw [hbare.1, extrasText, Option.isNone_iff_eq_none.mp hbare.2]
    exact hrest
  · rename_i hapart
    by_cases hgap : r.gap.1 = []
    · obtain ⟨extras, hextras⟩ := Option.ne_none_iff_exists'.mp fun hnone => hapart ⟨hgap, Option.isNone_iff_eq_none.mpr hnone⟩
      rw [hgap, extrasText, hextras]
      exact (stops_cons rfl _).takeWhile_eq_nil
    · obtain ⟨c, gap, hcons⟩ := List.exists_cons_of_ne_nil hgap
      have hblank : isBlank c = true := (r.gap.2 c (hcons ▸ List.mem_cons_self)).1
      rw [hcons]
      exact (stops_cons (endsName_of_isBlank hblank) _).takeWhile_eq_nil

/-- An opening parenthesis or an at sign stands right behind the name. -/
def IsTouched (r : Requirement) : Prop := ∃ c ∈ r.behind.head?, c = '(' ∨ c = '@'

theorem glued_eq_nil_iff : r.glued = [] ↔ ¬ r.IsTouched := by
  constructor
  · rintro hnil ⟨c, hc, hmark⟩
    have hin : endsName c = false := by rcases hmark with rfl | rfl <;> rfl
    obtain ⟨rest, hbehind⟩ := List.head?_eq_some_iff.mp hc
    rw [← takeWhile_behind, hbehind, takeWhile_inName_cons hin] at hnil
    cases hnil
  · intro hfree
    rw [glued]
    refine ite_eq_right_iff.mpr fun ⟨hgap, hextras⟩ => ?_
    have hbehind : r.behind = r.constraint.text ++ r.ending := by
      rw [behind, hgap, extrasText, Option.isNone_iff_eq_none.mp hextras]
      rfl
    rw [IsTouched, hbehind] at hfree
    cases hconstraint : r.constraint with
    | none => rfl
    | versions list => rfl
    | bracketed before list after =>
      rw [hconstraint] at hfree
      exact absurd ⟨'(', rfl, .inl rfl⟩ hfree
    | address before url ne_nil solid =>
      rw [hconstraint] at hfree
      exact absurd ⟨'@', rfl, .inr rfl⟩ hfree

theorem requirementName?_text (r : Requirement) : requirementName? r.text = some (String.ofList (r.name.text ++ r.glued)) := by
  rw [text, requirementName?_append (fun c hc => (r.before.2 c hc).1) r.name.ne_nil r.name.not_endsName r.name.first_ne,
    takeWhile_behind]

end Requirement

/-! ## Requirements stay on their lines -/

theorem isOneLine_of_solid {text : List Char} (h : ∀ c ∈ text, isBlank c = false) : IsOneLine text := fun c hc =>
  Bool.eq_false_iff.mpr fun hbreak => Bool.eq_false_iff.mp (h c hc) (isBlank_of_isLineBreak hbreak)

theorem Gap.isOneLine (gap : Gap) : IsOneLine gap.1 := fun c hc => (gap.2 c hc).2

theorem isOneLine_cons {c : Char} {rest : List Char} (hc : isLineBreak c = false) (h : IsOneLine rest) : IsOneLine (c :: rest) :=
  List.forall_mem_cons.mpr ⟨hc, h⟩

theorem isOneLine_optional {α : Type} {write : α → List Char} (h : ∀ item, IsOneLine (write item)) (item : Option α) :
    IsOneLine ((item.map write).getD []) := by
  cases item with
  | none => exact List.forall_mem_nil _
  | some item => exact h item

theorem CommaList.isOneLine {α : Type} {write : α → List Char} (h : ∀ item, IsOneLine (write item)) (l : CommaList α) :
    IsOneLine (l.text write) := by
  refine (h l.first).append fun c hc => ?_
  obtain ⟨⟨before, after, item⟩, -, hc⟩ := List.mem_flatMap.mp hc
  exact (before.isOneLine.append (isOneLine_cons rfl (after.isOneLine.append (h item)))) c hc

theorem Identifier.isOneLine (i : Identifier) : IsOneLine i.text := isOneLine_of_solid i.not_isBlank

theorem Extras.isOneLine (e : Extras) : IsOneLine e.text := by
  have hnames := isOneLine_optional (CommaList.isOneLine Identifier.isOneLine) e.names
  have hclose : IsOneLine (e.after.1 ++ [']']) := e.after.isOneLine.append (isOneLine_cons rfl (List.forall_mem_nil _))
  exact isOneLine_cons rfl (e.before.isOneLine.append (hnames.append hclose))

theorem VersionClause.isOneLine (v : VersionClause) : IsOneLine v.text := by
  have hoperators : ∀ operator ∈ operators, (operator.all fun c => decide (isLineBreak c = false)) = true := by decide
  have hmarks : ∀ c ∈ ['-', '_', '.', '*', '+', '!'], isBlank c = false := List.all_iff_forall_prop.mp (by decide)
  have hversion : IsOneLine v.version := isOneLine_of_solid fun c hc => by
    rcases v.version_chars c hc with hletter | hmark
    · exact not_isBlank_of_isWord (Bool.and_eq_true_iff.mp hletter).1
    · exact hmarks c hmark
  have hoperator : IsOneLine v.operator := List.all_iff_forall_prop.mp (hoperators _ v.operator_mem)
  exact hoperator.append (v.gap.isOneLine.append hversion)

theorem VersionList.isOneLine (l : VersionList) : IsOneLine l.text := by
  refine (l.clauses.isOneLine VersionClause.isOneLine).append ?_
  exact isOneLine_optional (fun (before, after) => before.isOneLine.append (isOneLine_cons rfl after.isOneLine)) l.comma

theorem Constraint.isOneLine (k : Constraint) : IsOneLine k.text := by
  cases k with
  | none => exact List.forall_mem_nil _
  | versions list => exact list.isOneLine
  | bracketed before list after =>
    have hclose : IsOneLine (after.1 ++ [')']) := after.isOneLine.append (isOneLine_cons rfl (List.forall_mem_nil _))
    exact isOneLine_cons rfl (before.isOneLine.append (list.isOneLine.append hclose))
  | address before url ne_nil solid => exact isOneLine_cons rfl (before.isOneLine.append (isOneLine_of_solid solid))

theorem Requirement.isOneLine (r : Requirement) : IsOneLine r.text := by
  have hextras : IsOneLine r.extrasText :=
    isOneLine_optional (fun (extras, gap) => extras.isOneLine.append gap.isOneLine) r.extras
  have hmarker : IsOneLine r.markerText := isOneLine_optional (fun marker => isOneLine_cons rfl marker.2) r.marker
  have hcomment : IsOneLine r.commentText := isOneLine_optional (fun comment => isOneLine_cons rfl comment.2) r.comment
  have hending : IsOneLine r.ending := r.spacing.isOneLine.append (hmarker.append (r.after.isOneLine.append hcomment))
  have hbehind : IsOneLine r.behind := r.gap.isOneLine.append (hextras.append (r.constraint.isOneLine.append hending))
  exact r.before.isOneLine.append (r.name.isOneLine.append hbehind)

/-! ## Lists of requirements -/

/-- A line of a list of requirements. -/
inductive RequirementLine
  | blank (gap : Gap)
  | comment (before : Gap) (text : Remark)
  | option (before : Gap) (text : Remark)
  | requirement (r : Requirement)

namespace RequirementLine

def text : RequirementLine → List Char
  | blank gap => gap.1
  | comment before text => before.1 ++ '#' :: text.1
  | option before text => before.1 ++ '-' :: text.1
  | requirement r => r.text

def requirement? : RequirementLine → Option Requirement
  | requirement r => some r
  | _ => none

theorem isOneLine (l : RequirementLine) : IsOneLine l.text := by
  cases l with
  | blank gap => exact gap.isOneLine
  | comment before text => exact before.isOneLine.append (isOneLine_cons rfl text.2)
  | option before text => exact before.isOneLine.append (isOneLine_cons rfl text.2)
  | requirement r => exact r.isOneLine

theorem requirementName?_text (l : RequirementLine) :
    requirementName? l.text = l.requirement?.map fun r => String.ofList (r.name.text ++ r.glued) := by
  cases l with
  | blank gap => exact requirementName?_of_blank fun c hc => (gap.2 c hc).1
  | comment before text => exact requirementName?_eq_none (fun c hc => (before.2 c hc).1) (.inl rfl) text.1
  | option before text => exact requirementName?_eq_none (fun c hc => (before.2 c hc).1) (.inr rfl) text.1
  | requirement r => exact r.requirementName?_text

end RequirementLine

/-- A list of requirements: lines that line breaks end, and a last one that may be empty. -/
structure RequirementList where
  ended : List (RequirementLine × { mark : List Char // IsLineEnd mark })
  last : RequirementLine

namespace RequirementList

def text (l : RequirementList) : List Char :=
  (l.ended.flatMap fun (line, mark) => line.text ++ mark.1) ++ l.last.text

def requirements (l : RequirementList) : List Requirement :=
  (l.ended.map Prod.fst ++ [l.last]).filterMap RequirementLine.requirement?

theorem filterMap_breakLines_text (l : RequirementList) : (breakLines l.text).filterMap requirementName? =
    l.requirements.map fun r => String.ofList (r.name.text ++ r.glued) := by
  obtain ⟨ended, last⟩ := l
  have hnil : requirementName? [] = none := rfl
  induction ended with
  | nil =>
    have hlast := filterMap_breakLines_of_isOneLine hnil last.isOneLine
    rw [last.requirementName?_text] at hlast
    refine hlast.trans ?_
    rw [requirements]
    cases hrequirement : last.requirement? <;> simp [hrequirement]
  | cons row ended ih =>
    obtain ⟨line, mark⟩ := row
    have hfirst := filterMap_breakLines_append hnil line.isOneLine mark.2 (text ⟨ended, last⟩)
    rw [line.requirementName?_text, ih] at hfirst
    have htext : text ⟨(line, mark) :: ended, last⟩ = line.text ++ (mark.1 ++ text ⟨ended, last⟩) := by
      rw [text, text, List.flatMap_cons, List.append_assoc, List.append_assoc]
    rw [htext, hfirst, requirements, requirements]
    cases hrequirement : line.requirement? <;> simp [hrequirement]

/-- The names of all requirements are read, in order, and with each what hangs on it. So the names alone are read if
and only if no opening parenthesis and no at sign stands right behind a name. -/
theorem ofRequirements_text (l : RequirementList) :
    Manifest.ofRequirements l.text =
      ⟨"requirements", none, none, l.requirements.map fun r => String.ofList (r.name.text ++ r.glued), []⟩ ∧
    ((Manifest.ofRequirements l.text).dependencies = l.requirements.map (fun r => String.ofList r.name.text) ↔
      ∀ r ∈ l.requirements, ¬ r.IsTouched) := by
  have hread : Manifest.ofRequirements l.text =
      ⟨"requirements", none, none, l.requirements.map fun r => String.ofList (r.name.text ++ r.glued), []⟩ := by
    rw [Manifest.ofRequirements, l.filterMap_breakLines_text]
  refine ⟨hread, ?_⟩
  rw [hread, List.map_inj_left]
  refine forall₂_congr fun r _ => ?_
  rw [String.ofList_inj, List.append_right_eq_self, Requirement.glued_eq_nil_iff]

/-- Two requirements with nothing between their names and what belongs to them. -/
def touchedList : RequirementList :=
  let none : Gap := ⟨[], List.forall_mem_nil _⟩
  let clause : VersionClause :=
    ⟨">=".toList, by decide, none, "2.0".toList, by decide, List.all_iff_forall_prop.mp (by decide)⟩
  let requests : Requirement :=
    ⟨none, ⟨"requests".toList, List.all_iff_forall_prop.mp (by decide), ⟨'r', rfl, rfl⟩, ⟨'s', rfl, rfl⟩⟩, none, .none,
      .bracketed none ⟨⟨clause, []⟩, .none⟩ none, none, .none, none, .none, nofun⟩
  let pip : Requirement :=
    ⟨none, ⟨"pip".toList, List.all_iff_forall_prop.mp (by decide), ⟨'p', rfl, rfl⟩, ⟨'p', rfl, rfl⟩⟩, none, .none,
      .address none "https://example.org/pip.zip".toList (by decide) (List.all_iff_forall_prop.mp (by decide)), none,
      .none, none, .none, nofun⟩
  ⟨[(.requirement requests, ⟨['\n'], .inr ⟨'\n', rfl, rfl⟩⟩)], .requirement pip⟩

theorem ofRequirements_ne_names_touched :
    touchedList.text = "requests(>=2.0)\npip@https://example.org/pip.zip".toList ∧
    touchedList.requirements.map (fun r => String.ofList r.name.text) = ["requests", "pip"] ∧
    (Manifest.ofRequirements touchedList.text).dependencies = ["requests(", "pip@https://example.org/pip.zip"] := by
  decide +kernel

end RequirementList

end CodeCensus
