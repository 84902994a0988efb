import CodeCensus.Proofs.Declaration.Blocks
import CodeCensus.Proofs.Declaration.Lines
import CodeCensus.Proofs.Declaration.Names
import CodeCensus.Proofs.Pattern.Search
import CodeCensus.Proofs.Pattern.Words
import Mathlib.Data.List.Perm.Basic

/-! Declarations with a body between braces, one below the other. What is read off such a text is what is read off
each declaration at its line, if no match begins after its head. -/

namespace CodeCensus

open Text Pattern Cursor

/-! ## Items on lines of their own -/

section Series

variable {α β : Type} {write : β → List Char} {found : Nat → β → List α} {items : List β}

def below (write : β → List Char) (items : List β) : List Char := List.intercalate ['\n'] (items.map write)

/-- What is read off items that stand below one another, the first of them on a certain line. -/
def foundFrom (write : β → List Char) (found : Nat → β → List α) : Nat → List β → List α
  | _, [] => []
  | line, x :: more => found line x ++ foundFrom write found (line + (write x).count '\n' + 1) more

theorem length_foundFrom_le (hle : ∀ line x, (found line x).length ≤ 1) (line : Nat) :
    (foundFrom write found line items).length ≤ items.length := by
  induction items generalizing line with
  | nil => exact Nat.le_refl 0
  | cons x more ih =>
    rw [foundFrom, List.length_append, List.length_cons, Nat.add_comm more.length]
    exact Nat.add_le_add (hle line x) (ih _)

theorem length_foundFrom_singleton (expected : Nat → β → α) (line : Nat) :
    (foundFrom write (fun line x => [expected line x]) line items).length = items.length := by
  induction items generalizing line with
  | nil => rfl
  | cons x more ih => rw [foundFrom, List.singleton_append, List.length_cons, List.length_cons, ih]

/-- Where at most one thing is read off an item, all is read as expected exactly if each item is. -/
theorem foundFrom_eq_iff {expected : Nat → β → α} {keeps : β → Prop} (hle : ∀ line x, (found line x).length ≤ 1)
    (h : ∀ line x, found line x = [expected line x] ↔ keeps x) (line : Nat) :
    foundFrom write found line items = foundFrom write (fun line x => [expected line x]) line items ↔
      ∀ x ∈ items, keeps x := by
  induction items generalizing line with
  | nil => exact iff_of_true rfl (List.forall_mem_nil _)
  | cons x more ih =>
    rw [List.forall_mem_cons, ← h line x, ← ih (line + (write x).count '\n' + 1), foundFrom, foundFrom]
    have hone := hle line x
    match hfound : found line x with
    | [] =>
      -- one item less is read than there are, so something is missing
      refine iff_of_false (fun heq => ?_) fun hboth => by cases hboth.1
      have hlength := congrArg List.length heq
      have hmore : (foundFrom write found (line + (write x).count '\n' + 1) more).length ≤ more.length :=
        length_foundFrom_le hle _
      rw [List.nil_append, List.singleton_append, List.length_cons, length_foundFrom_singleton] at hlength
      omega
    | [y] =>
      rw [List.singleton_append, List.singleton_append, List.cons.injEq, List.cons.injEq, and_iff_left rfl]
    | y :: z :: rest =>
      rw [hfound] at hone
      exact absurd hone (by rw [List.length_cons, List.length_cons]; omega)

/-- Where at most one thing is read off an item, with the line where the item begins, no two things have the same line. -/
theorem pairwise_foundFrom {lineOf : α → Nat} (hle : ∀ line x, (found line x).length ≤ 1)
    (hline : ∀ line x, ∀ y ∈ found line x, lineOf y = line) (line : Nat) :
    (∀ y ∈ foundFrom write found line items, line ≤ lineOf y) ∧
      (foundFrom write found line items).Pairwise fun y y' => lineOf y < lineOf y' := by
  induction items generalizing line with
  | nil => exact ⟨List.forall_mem_nil _, .nil⟩
  | cons x more ih =>
    obtain ⟨hbelow, hpairwise⟩ := ih (line + (write x).count '\n' + 1)
    rw [foundFrom]
    refine ⟨List.forall_mem_append.mpr ⟨fun y hy => (hline line x y hy).ge, fun y hy => ?_⟩,
      List.pairwise_append.mpr ⟨?_, hpairwise, fun y hy y' hy' => ?_⟩⟩
    · have := hbelow y hy
      omega
    · have hone := hle line x
      generalize found line x = here at hone
      cases here with
      | nil => exact .nil
      | cons y rest =>
        obtain rfl : rest = [] := List.eq_nil_of_length_eq_zero (by rw [List.length_cons] at hone; omega)
        exact List.pairwise_singleton _ y
    · have := hbelow y' hy'
      rw [hline line x y hy]
      omega

/-- What has no two things on one line is given by its things and the order of its lines. -/
theorem eq_of_perm_of_lines {lineOf : α → Nat} {found' expected' : List α} (hperm : found'.Perm expected')
    (hsorted : found'.Pairwise fun y y' => lineOf y ≤ lineOf y')
    (hstrict : expected'.Pairwise fun y y' => lineOf y < lineOf y') : found' = expected' := by
  have hnodup : (expected'.map lineOf).Nodup := List.pairwise_map.mpr (hstrict.imp Nat.ne_of_lt)
  refine hperm.eq_of_pairwise (fun y y' hy hy' hle hge => ?_) hsorted (hstrict.imp Nat.le_of_lt)
  exact List.inj_on_of_nodup_map hnodup (hperm.subset hy) hy' (Nat.le_antisymm hle hge)

/-- What several readers read one after another is what they read together, in another order. -/
theorem flatMap_foundFrom_perm {κ : Type} (kinds : List κ) (foundBy : κ → Nat → β → List α) (line : Nat) :
    (kinds.flatMap fun kind => foundFrom write (foundBy kind) line items).Perm
      (foundFrom write (fun line x => kinds.flatMap fun kind => foundBy kind line x) line items) := by
  induction items generalizing line with
  | nil => exact .of_eq (List.flatMap_eq_nil_iff.mpr fun _ _ => rfl)
  | cons x more ih => exact (List.flatMap_append_perm kinds _ _).symm.trans ((ih _).append_left _)

/-- What comes before the beginning of a line. -/
def IsAbove (above : List Char) : Prop := ∀ c ∈ above.getLast?, c = '\n'

theorem isAbove_concat (above : List Char) : IsAbove (above ++ ['\n']) := by
  intro c hc
  rw [List.getLast?_concat] at hc
  exact (Option.some.inj hc).symm

theorem below_cons_cons (write : β → List Char) (x y : β) (more : List β) :
    below write (x :: y :: more) = write x ++ '\n' :: below write (y :: more) := by
  unfold below
  rw [List.map_cons, List.map_cons, List.intercalate_cons_cons, List.append_assoc, List.singleton_append]

/-- Wherever a text stands on lines of its own, certain items are read off it and the end of its last line. -/
def Pattern.ReadsOn (p : Pattern) (read : Match → Option α) (text : List Char) (found : Nat → List α) : Prop :=
  ∀ above rest, IsAbove above → (∀ c ∈ rest.head?, c = '\n') →
    p.Reads read (above ++ (text ++ rest)) above.length (above.length + text.length + 1) (found (above.count '\n' + 1))

variable {p : Pattern} {read : Match → Option α} {above : List Char}

theorem reads_below (hp : p.opening.mayBeEmpty = false)
    (h : ∀ x ∈ items, p.ReadsOn read (write x) fun line => found line x)
    (habove : IsAbove above) :
    p.Reads read (above ++ below write items) above.length (above.length + (below write items).length + 1)
      (foundFrom write found (above.count '\n' + 1) items) := by
  induction items generalizing above with
  | nil =>
    apply reads_nil (Nat.le_add_right _ _)
    intro k e hk _ hspans
    have hlength : k < (above ++ below write []).length := hspans.lt_length hp
    rw [show below write [] = [] from rfl, List.append_nil] at hlength
    exact Nat.not_lt.mpr hk hlength
  | cons x more ih =>
    cases more with
    | nil =>
      have hx := h x List.mem_cons_self above [] habove (by rintro _ ⟨⟩)
      have hfound : foundFrom write found (above.count '\n' + 1) [x] = found (above.count '\n' + 1) x :=
        List.append_nil _
      rw [List.append_nil] at hx
      rwa [hfound, show below write [x] = write x from List.intercalate_singleton ..]
    | cons y more =>
      have hx := h x List.mem_cons_self above ('\n' :: below write (y :: more)) habove (forall_mem_head? rfl)
      have hmore := ih (fun x' hx' => h x' (List.mem_cons_of_mem x hx')) (isAbove_concat (above ++ write x))
      have hcount : (above ++ write x ++ ['\n']).count '\n' = above.count '\n' + (write x).count '\n' + 1 := by
        rw [List.count_append, List.count_append, List.count_singleton_self]
      have hline : above.count '\n' + (write x).count '\n' + 1 + 1 =
          above.count '\n' + 1 + (write x).count '\n' + 1 := by omega
      have hstart : (above ++ write x ++ ['\n']).length = above.length + (write x).length + 1 := by
        rw [List.length_append, List.length_append, List.length_singleton]
      have hstop : above.length + (write x).length + 1 + (below write (y :: more)).length + 1 =
          above.length + (below write (x :: y :: more)).length + 1 := by
        rw [below_cons_cons, List.length_append, List.length_cons]
        omega
      rw [hcount, hline, hstart, hstop, List.append_assoc, List.append_assoc, List.singleton_append] at hmore
      rw [below_cons_cons] at hmore ⊢
      exact hx.trans hmore

theorem filterMap_all_below (hp : p.opening.mayBeEmpty = false)
    (h : ∀ x ∈ items, p.ReadsOn read (write x) fun line => found line x) :
    (p.all (below write items)).filterMap read = foundFrom write found 1 items := by
  have hstart : IsAbove [] := by rintro _ ⟨⟩
  have hreads := reads_below hp h hstart
  exact hreads.filterMap_all hp (by rw [List.length_nil]; omega)

end Series

/-! ## Declarations as written -/

/-- A declaration: the words before its name, its name and parameters, its result, if one is written, and what stands
between its braces. -/
structure Declared where
  modifiers : List (List Char)
  name : List Char
  parameters : List (List Char)
  result : Option (List Char)
  body : List Char

/-- A parameter that nothing cuts: no type or default is marked off, and no blanks surround it. -/
structure IsPlainParameter (parameter : List Char) : Prop where
  ne_nil : parameter ≠ []
  trim_eq : trim parameter = parameter
  not_mem : ∀ c ∈ parameter, c ∉ [',', ':', '=', '(', ')']

namespace Declared

def list (d : Declared) : List Char := List.intercalate [',', ' '] d.parameters

def call (d : Declared) : List Char := d.name ++ '(' :: (d.list ++ [')'])

def block (d : Declared) : List Char := '{' :: (d.body ++ ['}'])

/-- What a declaration stands for on a line, with a certain result. -/
def function (d : Declared) (score : Scorer) (line : Nat) (result : Option (List Char)) : Function where
  name := String.ofList d.name
  line
  complexity := score d.block
  parameters := d.parameters.map String.ofList
  returnType := result.map String.ofList

structure IsProper (d : Declared) : Prop where
  name_isName : IsName d.name
  name_not_reserved : String.ofList d.name ∉ reservedNames
  parameters_arePlain : ∀ p ∈ d.parameters, IsPlainParameter p
  result_isName : ∀ type ∈ d.result, IsName type
  body_isBalanced : Body.IsBalanced d.body

end Declared

namespace IsPlainParameter

variable {p : List Char}

theorem not_mem_of (h : IsPlainParameter p) {c : Char} (hc : c ∈ [',', ':', '=', '(', ')']) : c ∉ p :=
  fun hmem => h.not_mem c hmem hc

theorem nameIn?_blanks_append (h : IsPlainParameter p) {before : List Char}
    (hbefore : ∀ c ∈ before, isBlank c = true) : nameIn? (before ++ p) = some (String.ofList p) := by
  have hname : parameterName (before ++ p) = p := by
    unfold parameterName
    rw [trim_blanks_append hbefore, h.trim_eq, upTo_of_not_mem (h.not_mem_of (by decide)), h.trim_eq,
      upTo_of_not_mem (h.not_mem_of (by decide)), h.trim_eq]
  rw [nameIn?, hname, if_neg (by simpa using h.ne_nil)]

end IsPlainParameter

namespace Declared

variable {d : Declared}

theorem IsProper.parametersOf_list (h : d.IsProper) :
    Functions.parametersOf (some d.list) = d.parameters.map String.ofList := by
  unfold Functions.parametersOf list
  rw [Option.getD_some]
  exact parameterNames_intercalate_of fun p hp =>
    ⟨(h.parameters_arePlain p hp).not_mem_of (by decide),
      fun _ hbefore => (h.parameters_arePlain p hp).nameIn?_blanks_append hbefore⟩

theorem IsProper.paren_not_mem_list (h : d.IsProper) {c : Char} (hc : c = '(' ∨ c = ')') : c ∉ d.list := by
  intro hmem
  rcases mem_of_mem_intercalate hmem with hsep | ⟨p, hp, hmem⟩
  · rcases hc with rfl | rfl <;> exact absurd hsep (by decide)
  · refine (h.parameters_arePlain p hp).not_mem_of ?_ hmem
    rcases hc with rfl | rfl <;> decide

/-- A block is cut out whole behind the brace that opens it. -/
theorem IsProper.bracedOpen_body (h : d.IsProper) (rest : List Char) :
    Body.bracedOpen (d.body ++ '}' :: rest) = d.block := by
  have hnone : '{' ∉ [] := List.not_mem_nil
  have hblock := (h.body_isBalanced.firstBlock hnone rest).braced_eq
  rwa [List.nil_append, List.cons_append, List.append_assoc, List.singleton_append] at hblock

end Declared

/-! ## What is read off a declaration -/

/-- The numbered texts that a match records. -/
def textsOf (groups : Groups) : List (Nat × List Char) := groups.map fun group => (group.1, group.2.text)

theorem Match.text?_eq_lookup (m : Match) (n : Nat) : m.text? n = (textsOf m.groups).lookup n := by
  unfold Match.text? Match.group? textsOf
  induction m.groups with
  | nil => rfl
  | cons group groups ih =>
    rw [List.map_cons, List.lookup_cons, List.lookup_cons]
    split
    · rfl
    · exact ih

theorem tidy_name {type : List Char} (h : IsName type) : Functions.tidy (some type) = some (String.ofList type) := by
  have hblank : ∀ c ∈ type, isBlank c = false := fun c hc => h.isBlank hc
  have htrim : trim type = type := by
    refine trim_eq_self (fun c hc => hblank c ?_) fun c hc => hblank c ?_
    · exact List.mem_of_mem_head? hc
    · exact List.mem_of_mem_getLast? hc
  obtain ⟨first, rest, rfl, -⟩ := h
  unfold Functions.tidy
  rw [Option.bind_some, nonBlank?, htrim, Option.map_some]

/-! ## Between the parts of a head -/

section Gaps

variable {text rest : List Char} {i : Nat}

theorem takes_blank (hrest : ∀ c ∈ rest.head?, isBlank c = false) (h : text.drop i = ' ' :: rest) :
    Takes text blanks i (i + 1) [] := by
  have hdrop : text.drop i = [' '] ++ rest := h
  exact takes_run hdrop (List.forall_mem_singleton.mpr rfl) hrest

theorem takes_blank1 (hrest : ∀ c ∈ rest.head?, isBlank c = false) (h : text.drop i = ' ' :: rest) :
    Takes text blanks1 i (i + 1) [] := by
  have hdrop : text.drop i = [' '] ++ rest := h
  exact takes_some1 hdrop (List.forall_mem_singleton.mpr rfl) hrest

theorem takes_noBlank (hrest : ∀ c ∈ rest.head?, isBlank c = false) (h : text.drop i = rest) :
    Takes text blanks i i [] :=
  takes_run_nil h hrest

theorem takes_brace (h : text.drop i = '{' :: rest) : Takes text "\x7b" i (i + 1) [] := takes_text h

end Gaps

end CodeCensus
