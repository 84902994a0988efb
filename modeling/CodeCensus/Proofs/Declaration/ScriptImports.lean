import CodeCensus.Proofs.Declaration.ImportMatches
import CodeCensus.Proofs.Declaration.Series

/-! Statements that import modules, one below the other. Each of the three patterns reads its own kind of statement and
nothing else, so all of them together read the statements in their order. -/

namespace CodeCensus

open Text Pattern Cursor Imports

variable {text rest : List Char} {s : ImportStatement} {ss : List ImportStatement} {p : Pattern} {i j k e n : Nat}

/-! ## Places within a statement -/

theorem BoundList.IsProper.not_quoteMark {list : BoundList} {mark : AliasMark} (h : list.IsProper mark) :
    ∀ x ∈ list.text mark, quoteMark x = false := by
  intro x hx
  rcases h.listChar x hx with hchar | rfl
  · rw [AliasMark.itemChar, Bool.or_eq_true, Bool.or_eq_true, List.contains_iff_mem] at hchar
    rcases hchar with (hword | hblank) | hletter
    · exact not_quoteMark_of_wordOrDollar hword
    · exact not_quoteMark_of_isBlank hblank
    · cases mark with
      | word => exact forall_of_any_eq_false (rfl : "as".toList.any quoteMark = false) x hletter
      | colon => exact forall_of_any_eq_false (rfl : ":".toList.any quoteMark = false) x hletter
  · decide

theorem RequireTarget.IsProper.not_quoteMark {target : RequireTarget} (h : target.IsProper) :
    ∀ x ∈ target.text, quoteMark x = false := by
  cases target with
  | one name => exact fun x hx => not_quoteMark_of_wordOrDollar (IsIdentifier.wordOrDollar h x hx)
  | named list =>
    exact List.forall_mem_append.mpr ⟨forall_of_any_eq_false rfl,
      List.forall_mem_append.mpr ⟨BoundList.IsProper.not_quoteMark h, forall_of_any_eq_false rfl⟩⟩

theorem ImportStatement.IsProper.front_not_quoteMark (hs : s.IsProper) : ∀ x ∈ s.front, quoteMark x = false := by
  have hindent : ∀ x ∈ s.indent, quoteMark x = false := fun x hx =>
    not_quoteMark_of_isBlank (among_spaces (hs.indent_isSpace x hx)).1
  have hproper := hs.head_isProper
  unfold ImportStatement.front
  refine List.forall_mem_append.mpr ⟨hindent, ?_⟩
  cases hhead : s.head with
  | module gap clause ahead behind =>
    rw [hhead] at hproper
    obtain ⟨hgap, hclause, hahead, hbehind⟩ := hproper
    rw [ImportHead.text_module]
    exact List.forall_mem_append.mpr ⟨forall_of_any_eq_false rfl, List.forall_mem_append.mpr
      ⟨not_quoteMark_of_isBlanks hgap.2,
      List.forall_mem_append.mpr ⟨fun x hx => not_quoteMark_of_clauseChar (hclause.clauseChar x hx),
        List.forall_mem_append.mpr ⟨not_quoteMark_of_isBlanks hahead.2,
          List.forall_mem_append.mpr ⟨forall_of_any_eq_false rfl, not_quoteMark_of_isBlanks hbehind.2⟩⟩⟩⟩⟩
  | effect gap =>
    rw [hhead] at hproper
    rw [ImportHead.text_effect]
    exact List.forall_mem_append.mpr ⟨forall_of_any_eq_false rfl, not_quoteMark_of_isBlanks hproper.2⟩
  | require word gap target before after inner closing =>
    rw [hhead] at hproper
    obtain ⟨hword, hgap, htarget, hbefore, hafter, hinner, -⟩ := hproper
    rw [ImportHead.text_require]
    exact List.forall_mem_append.mpr ⟨not_quoteMark_of_requireWord hword, List.forall_mem_append.mpr ⟨not_quoteMark_of_isBlanks hgap.2,
      List.forall_mem_append.mpr ⟨htarget.not_quoteMark, List.forall_mem_append.mpr ⟨not_quoteMark_of_isBlanks hbefore,
        List.forall_mem_append.mpr ⟨forall_of_any_eq_false rfl, List.forall_mem_append.mpr ⟨not_quoteMark_of_isBlanks hafter,
          List.forall_mem_append.mpr ⟨forall_of_any_eq_false rfl, not_quoteMark_of_isBlanks hinner⟩⟩⟩⟩⟩⟩⟩

/-- A pattern that covers nothing from any place in front of the quotation mark. -/
def UnreadInFront (p : Pattern) (s : ImportStatement) : Prop :=
  ∀ (text rest pre part : List Char) (k e : Nat), s.front = pre ++ part → (∀ x ∈ part, quoteMark x = false) →
    text.drop k = part ++ s.quote :: rest → ¬ p.Spans text k e

def statementPatterns : List Pattern := [moduleImport, effectImport, requireBinding]

theorem not_spans_front (hs : s.IsProper) (hunread : UnreadInFront p s) (h : text.drop i = s.front ++ (s.quoted ++ rest))
    (hik : i ≤ k) (hk : k < i + s.front.length) : ¬ p.Spans text k e := by
  obtain ⟨l, rfl⟩ := Nat.exists_eq_add_of_le hik
  have hdrop : text.drop (i + l) = s.front.drop l ++ (s.quoted ++ rest) := by
    rw [← List.drop_drop, h, List.drop_append_of_le_length (by omega)]
  have hpart : ∀ x ∈ s.front.drop l, quoteMark x = false := fun x hx => hs.front_not_quoteMark x (List.mem_of_mem_drop hx)
  exact hunread text _ (s.front.take l) (s.front.drop l) (i + l) e (List.take_append_drop l s.front).symm hpart hdrop

theorem length_text (s : ImportStatement) : s.text.length = s.front.length + s.quoted.length := by
  rw [s.text_eq, List.length_append]

/-- Nothing is read off a statement of another kind. -/
theorem reads_unread {α : Type} (read : Match → Option α) (hp : p ∈ statementPatterns) (hs : s.IsProper)
    (hunread : UnreadInFront p s) (hrest : ∀ c ∈ rest.head?, c = '\n') (h : text.drop i = s.front ++ (s.quoted ++ rest)) :
    p.Reads read text i (i + s.text.length + 1) [] := by
  have hquoted := drop_add_length h
  have hlength := length_text s
  refine reads_nil (by omega) fun k e hik hk => ?_
  rcases Nat.lt_or_ge k (i + s.front.length) with hlt | hge
  · exact not_spans_front hs hunread h hik hlt
  · exact not_spans_quoted hp hs hrest hquoted hge (by omega)

/-- One thing is read off a statement that the matcher takes from its first word on, over the quotation mark. -/
theorem reads_taken {α : Type} (read : Match → Option α) {new : Groups} {start : Nat} (hp : p ∈ statementPatterns)
    (hs : s.IsProper) (hstart : i ≤ start) (hskip : ∀ k e, i ≤ k → k < start → ¬ p.Spans text k e)
    (htaken : Takes text p start j new) (hj : i + s.front.length ≤ j) (hj' : j ≤ i + s.text.length)
    (hrest : ∀ c ∈ rest.head?, c = '\n') (h : text.drop i = s.front ++ (s.quoted ++ rest)) :
    p.Reads read text i (i + s.text.length + 1) (read ⟨⟨on text start, on text j⟩, new⟩).toList := by
  have hquoted := drop_add_length h
  have hlength := length_text s
  have hafter : p.Reads read text j (i + s.text.length + 1) [] := reads_nil (by omega) fun k e hjk hk =>
    not_spans_quoted hp hs hrest hquoted (by omega) (by omega)
  have hreads := ((reads_nil hstart hskip).trans (reads_match read htaken.finds)).trans hafter
  rwa [List.nil_append, List.append_nil] at hreads

/-! ## Kinds of statements -/

inductive ImportKind where
  | module
  | effect
  | require
  deriving DecidableEq

def ImportKind.pattern : ImportKind → Pattern
  | .module => moduleImport
  | .effect => effectImport
  | .require => requireBinding

/-- What is read off a match of a kind. -/
def ImportKind.read (kind : ImportKind) (m : Match) : Import :=
  match kind with
  | .module => ⟨String.ofList (m.groupText 2), clauseNames (m.groupText 1), m.start.line⟩
  | .effect => ⟨String.ofList (m.groupText 1), [], m.start.line⟩
  | .require =>
    ⟨String.ofList (m.groupText 3), ((m.text? 1).map boundNames).getD [String.ofList (m.groupText 2)], m.start.line⟩

def ImportHead.kind : ImportHead → ImportKind
  | .module .. => .module
  | .effect _ => .effect
  | .require .. => .require

/-- The names that are read off a statement, if it is read at all. -/
def ImportHead.names? : ImportHead → Option (List String)
  | .module _ clause ahead _ => some (clause.read ahead)
  | .effect _ => some []
  | .require _ _ target _ _ _ _ => if target.IsRead then some target.names else none

/-- What is read off a statement at a line. -/
def ImportStatement.reading (s : ImportStatement) (line : Nat) : List Import :=
  (s.head.names?.map fun names => ⟨String.ofList s.source, names, line⟩).toList

/-- What the pattern of a kind reads off a statement at a line. -/
def ImportKind.found (kind : ImportKind) (line : Nat) (s : ImportStatement) : List Import :=
  if s.head.kind = kind then s.reading line else []

theorem unreadInFront {kind : ImportKind} (hs : s.IsProper) (hkind : s.head.kind ≠ kind) : UnreadInFront kind.pattern s := by
  intro text rest pre part k e hfront hpart h
  cases kind with
  | module =>
    refine not_spans_moduleImport_front hs hpart hs.quote_isMark hfront ?_ h
    cases hhead : s.head with
    | module => rw [hhead] at hkind; exact absurd rfl hkind
    | effect => exact (by decide : 't' ≠ 'm')
    | require => exact (by decide : '(' ≠ 'm')
  | effect =>
    refine not_spans_effectImport_front hs hpart hs.quote_isMark hfront ?_ h
    cases hhead : s.head with
    | module => exact (by decide : 'm' ≠ 't')
    | effect => rw [hhead] at hkind; exact absurd rfl hkind
    | require => exact (by decide : '(' ≠ 't')
  | require =>
    cases hhead : s.head with
    | module => exact not_spans_requireBinding_module hs hhead hs.quote_isMark hfront h
    | effect => exact not_spans_requireBinding_effect hs hhead hs.quote_isMark hfront h
    | require => rw [hhead] at hkind; exact absurd rfl hkind

/-! ## What is read off a statement -/

variable {above : List Char}

theorem append_text_eq : above ++ (s.text ++ rest) = (above ++ s.indent) ++ (s.head.text ++ (s.quoted ++ rest)) := by
  rw [s.text_eq, ImportStatement.front]
  simp only [List.append_assoc]

theorem wordEdge_of_indent {first : Char} {more : List Char} (hs : s.IsProper) (habove : IsAbove above)
    (hfirst : s.head.text = first :: more) (hletter : isWord first = true) :
    Edge.word.holds (on (above ++ (s.text ++ rest)) (above.length + s.indent.length)) = true := by
  rw [append_text_eq, ← List.length_append]
  refine wordEdge_append ?_ ?_
  · refine forall_getLast?_append (fun c hc => ?_) fun c hc => ?_
    · rw [habove c hc]
      decide
    · exact not_isWord_of_isBlank (among_spaces (hs.indent_isSpace c hc)).1
  · rw [hfirst]
    exact hletter

theorem line_of_indent (hs : s.IsProper) :
    (on (above ++ (s.text ++ rest)) (above.length + s.indent.length)).line = above.count '\n' + 1 := by
  have hnone : s.indent.count '\n' = 0 :=
    List.count_eq_zero.mpr fun hmem => (among_spaces (hs.indent_isSpace '\n' hmem)).2.1 rfl
  rw [line_on, append_text_eq, ← List.length_append, List.take_left, List.count_append, hnone, Nat.add_zero]

theorem length_quoted (s : ImportStatement) :
    s.quoted.length = s.source.length + 2 + (s.head.closing.length + s.trail.length) := by
  rw [ImportStatement.quoted, List.length_cons, List.length_append, List.length_cons, List.length_append]
  omega

theorem reading_of_names? {names : List String} {line : Nat} (h : s.head.names? = some names) :
    s.reading line = [⟨String.ofList s.source, names, line⟩] := by
  rw [ImportStatement.reading, h]
  rfl

section Reading

variable {line : Nat} (hs : s.IsProper) (hrest : ∀ c ∈ rest.head?, c = '\n')
  (h : text.drop i = s.front ++ (s.quoted ++ rest))

include hs hrest h

theorem reads_module {gap ahead behind : List Char} {clause : ImportClause}
    (hhead : s.head = .module gap clause ahead behind) (hedge : Edge.word.holds (on text (i + s.indent.length)) = true)
    (hline : (on text (i + s.indent.length)).line = line) :
    moduleImport.Reads (fun m => some (ImportKind.module.read m)) text i (i + s.text.length + 1) (s.reading line) := by
  have hlength := length_text s
  have hfront := length_front s
  have hquoted := length_quoted s
  obtain ⟨t, t', ht, ht', htaken⟩ := takes_moduleImport hs hhead hedge (head_drop h)
  have hreads := reads_taken (fun m => some (ImportKind.module.read m)) (by simp [statementPatterns]) hs (Nat.le_add_right i _)
    (fun k e hk hk' => not_spans_indent (.inl rfl) hs h hk hk') htaken (by omega) (by omega) hrest h
  have hnames : s.head.names? = some (clause.read ahead) := by rw [hhead]; rfl
  rw [reading_of_names? hnames, ← ht, ← ht', ← hline]
  exact hreads

theorem reads_effect {gap : List Char} (hhead : s.head = .effect gap) (hstart : Edge.lineStart.holds (on text i) = true)
    (hline : (on text i).line = line) :
    effectImport.Reads (fun m => some (ImportKind.effect.read m)) text i (i + s.text.length + 1) (s.reading line) := by
  have hlength := length_text s
  have hquoted := length_quoted s
  obtain ⟨t, ht, htaken⟩ := takes_effectImport hs hhead hstart h
  have hreads := reads_taken (fun m => some (ImportKind.effect.read m)) (by simp [statementPatterns]) hs (Nat.le_refl i)
    (fun k e hk hk' => absurd hk (Nat.not_le.mpr hk')) htaken (by omega) (by omega) hrest h
  have hnames : s.head.names? = some [] := by rw [hhead]; rfl
  rw [reading_of_names? hnames, ← ht, ← hline]
  exact hreads

theorem reads_require {word : String} {target : RequireTarget} {gap before after inner closing : List Char}
    (hhead : s.head = .require word gap target before after inner closing)
    (hedge : Edge.word.holds (on text (i + s.indent.length)) = true) (hline : (on text (i + s.indent.length)).line = line) :
    requireBinding.Reads (fun m => some (ImportKind.require.read m)) text i (i + s.text.length + 1) (s.reading line) := by
  have hlength := length_text s
  have hfront := length_front s
  have hquoted := length_quoted s
  by_cases hread : target.IsRead
  · obtain ⟨t, new, ht, htaken, hnamesOf⟩ := takes_requireBinding hs hhead hread hedge (head_drop h)
    have hreads := reads_taken (fun m => some (ImportKind.require.read m)) (by simp [statementPatterns]) hs
      (Nat.le_add_right i _) (fun k e hk hk' => not_spans_indent (.inr rfl) hs h hk hk') htaken (by omega) (by omega) hrest h
    have hnames : s.head.names? = some target.names := by
      rw [hhead]
      exact if_pos hread
    rw [Option.toList_some, ImportKind.read, hnamesOf _ rfl] at hreads
    rw [reading_of_names? hnames, ← ht, ← hline]
    exact hreads
  · have hnames : s.head.names? = none := by
      rw [hhead]
      exact if_neg hread
    rw [ImportStatement.reading, hnames]
    refine reads_unread _ (by simp [statementPatterns]) hs (fun text' rest' pre part k e hfront _ hdrop => ?_) hrest h
    exact not_spans_requireBinding_unread hs hhead hread hs.quote_isMark hfront hdrop

end Reading

/-- Each pattern reads the statements of its kind and passes over all others. -/
theorem ImportStatement.IsProper.readsOn (kind : ImportKind) (hs : s.IsProper) :
    kind.pattern.ReadsOn (fun m => some (kind.read m)) s.text fun line => kind.found line s := by
  intro above rest habove hrest
  have hedge : ∀ first more, s.head.text = first :: more → isWord first = true →
      Edge.word.holds (on (above ++ (s.text ++ rest)) (above.length + s.indent.length)) = true :=
    fun first more => wordEdge_of_indent hs habove
  have hline : (on (above ++ (s.text ++ rest)) (above.length + s.indent.length)).line = above.count '\n' + 1 :=
    line_of_indent hs
  have hstart : Edge.lineStart.holds (on (above ++ (s.text ++ rest)) above.length) = true := lineStart_append habove
  have hstartLine : (on (above ++ (s.text ++ rest)) above.length).line = above.count '\n' + 1 := by rw [line_on, List.take_left]
  generalize htext : above ++ (s.text ++ rest) = text at hedge hline hstart hstartLine ⊢
  have h : text.drop above.length = s.front ++ (s.quoted ++ rest) := by
    rw [← htext, List.drop_left, s.text_eq, List.append_assoc]
  dsimp only [ImportKind.found]
  by_cases hkind : s.head.kind = kind
  · rw [if_pos hkind]
    subst hkind
    cases hhead : s.head with
    | module gap clause ahead behind =>
      exact reads_module hs hrest h hhead (hedge _ _ (by rw [hhead]; rfl) (by decide)) hline
    | effect gap => exact reads_effect hs hrest h hhead hstart hstartLine
    | require word gap target before after inner closing =>
      have hproper := hs.head_isProper
      rw [hhead] at hproper
      obtain ⟨first, more, hcons, hletter⟩ : ∃ first more, s.head.text = first :: more ∧ isWord first = true := by
        rw [hhead, ImportHead.text_require]
        have hword := hproper.1
        simp only [requireWords, List.mem_cons, List.not_mem_nil, or_false] at hword
        rcases hword with rfl | rfl | rfl <;> exact ⟨_, _, rfl, by decide⟩
      exact reads_require hs hrest h hhead (hedge _ _ hcons hletter) hline
  · rw [if_neg hkind]
    have hp : kind.pattern ∈ statementPatterns := by cases kind <;> simp [statementPatterns, ImportKind.pattern]
    exact reads_unread _ hp hs (unreadInFront hs hkind) hrest h

/-! ## Statements below one another -/

def importKinds : List ImportKind := [.module, .effect, .require]

/-- The matches of the three patterns together are what is imported, in another order. -/
theorem script_perm (text : List Char) :
    (Imports.script text).Perm (importKinds.flatMap fun kind => (kind.pattern.all text).map kind.read) := by
  rw [script, inTextOrder]
  refine ((List.mergeSort_perm _ _).map Prod.snd).trans (.of_eq ?_)
  simp only [List.map_append, List.map_map, importKinds, List.flatMap_cons, List.flatMap_nil, List.append_nil,
    List.append_assoc]
  refine congrArg (_ ++ ·) (congrArg (_ ++ ·) (List.map_congr_left fun m _ => ?_))
  rw [ImportKind.read, Function.comp_apply]
  cases m.text? 1 <;> rfl

/-- What a kind of statement reads off statements below one another. -/
theorem map_all_below (kind : ImportKind) (h : ∀ s ∈ ss, s.IsProper) :
    (kind.pattern.all (below ImportStatement.text ss)).map kind.read =
      foundFrom ImportStatement.text kind.found 1 ss := by
  have hkept : kind.pattern.opening.mayBeEmpty = false := by cases kind <;> decide
  rw [← List.filterMap_eq_map' (f := kind.read)]
  exact filterMap_all_below hkept fun s hs => (h s hs).readsOn kind

theorem flatMap_found (line : Nat) (s : ImportStatement) :
    (importKinds.flatMap fun kind => kind.found line s) = s.reading line := by
  simp only [importKinds, List.flatMap_cons, List.flatMap_nil, List.append_nil, ImportKind.found]
  cases s.head.kind <;> simp

theorem length_reading_le (line : Nat) (s : ImportStatement) : (s.reading line).length ≤ 1 := by
  rw [ImportStatement.reading, Option.length_toList]
  split <;> decide

theorem line_of_mem_reading (line : Nat) (s : ImportStatement) : ∀ x ∈ s.reading line, x.line = line := by
  intro x hx
  obtain ⟨names, -, rfl⟩ := Option.map_eq_some_iff.mp (Option.mem_toList.mp hx)
  rfl

/-- The statements are read in their order, since what is imported is in the order of its lines. -/
theorem script_below (h : ∀ s ∈ ss, s.IsProper) :
    Imports.script (below ImportStatement.text ss) =
      foundFrom ImportStatement.text (fun line s => s.reading line) 1 ss := by
  have hmerged : (importKinds.flatMap fun kind => foundFrom ImportStatement.text kind.found 1 ss).Perm
      (foundFrom ImportStatement.text (fun line s => importKinds.flatMap fun kind => kind.found line s) 1 ss) :=
    flatMap_foundFrom_perm importKinds ImportKind.found 1
  simp only [flatMap_found] at hmerged
  have hperm : (Imports.script (below ImportStatement.text ss)).Perm
      (foundFrom ImportStatement.text (fun line s => s.reading line) 1 ss) :=
    (script_perm _).trans ((List.Perm.of_eq (List.flatMap_congr fun kind _ => map_all_below kind h)).trans hmerged)
  have hsorted := List.pairwise_map.mp (inLines_script (below ImportStatement.text ss)).sorted
  exact eq_of_perm_of_lines hperm hsorted (pairwise_foundFrom length_reading_le line_of_mem_reading 1).2

/-! ## What is read as it is bound -/

/-- A clause whose default is not passed over, or a binding whose names are read. -/
def ImportHead.IsClear : ImportHead → Prop
  | .module _ clause ahead _ => clause.IsWhole ahead
  | .effect _ => True
  | .require _ _ target _ _ _ _ => target.IsRead

theorem ImportHead.names?_eq_iff (head : ImportHead) : head.names? = some head.names ↔ head.IsClear := by
  cases head with
  | module gap clause ahead behind => exact Option.some_inj.trans (clause.read_eq_names_iff ahead)
  | effect gap => exact iff_of_true rfl trivial
  | require word gap target before after inner closing => exact Option.ite_none_right_eq_some.trans (and_iff_left rfl)

namespace ImportStatement

theorem reading_eq_iff (s : ImportStatement) (line : Nat) : s.reading line = [s.import line] ↔ s.head.IsClear := by
  rw [← s.head.names?_eq_iff, reading, ImportStatement.import]
  cases s.head.names? with
  | none => exact iff_of_false (List.cons_ne_nil _ _).symm (Option.some_ne_none _).symm
  | some names => simp

/-- Statements below one another are read in their order, each at the line where it begins, and what is read is what
they import exactly if none passes over a default named `type` and none requires under a name that is not read. -/
theorem script_statements (h : ∀ s ∈ ss, s.IsProper) :
    Imports.script (below ImportStatement.text ss) = foundFrom ImportStatement.text (fun line s => s.reading line) 1 ss ∧
      (Imports.script (below ImportStatement.text ss) =
          foundFrom ImportStatement.text (fun line s => [s.import line]) 1 ss ↔
        ∀ s ∈ ss, s.head.IsClear) := by
  rw [script_below h]
  exact ⟨rfl, foundFrom_eq_iff length_reading_le (fun line s => s.reading_eq_iff line) 1⟩

/-! ## Statements that are not read as they are bound -/

def accented : ImportStatement where
  indent := []
  head := .require "const" [' '] (.one ['é']) [' '] [' '] [] []
  quote := '\''
  source := ['m']
  trail := []

def typeBesideList : ImportStatement where
  indent := []
  head := .module [' '] (.both ['t', 'y', 'p', 'e'] [' '] [' '] (.named (.last ⟨[], ['a'], none, []⟩))) [' '] [' ']
  quote := '\''
  source := ['m']
  trail := []

theorem isBlanks1_space : IsBlanks1 [' '] := ⟨List.cons_ne_nil _ _, List.forall_mem_singleton.mpr (by decide)⟩

theorem isIdentifier_singleton {c : Char} (hc : wordOrDollar c = true) : IsIdentifier [c] :=
  ⟨List.cons_ne_nil c [], List.forall_mem_singleton.mpr hc⟩

theorem accented_isProper : accented.IsProper where
  indent_isSpace := List.forall_mem_nil _
  head_isProper := ⟨by decide, isBlanks1_space, isIdentifier_singleton (by decide +kernel), isBlanks1_space.2,
    isBlanks1_space.2, List.forall_mem_nil _, List.forall_mem_nil _⟩
  quote_isMark := by decide
  source_ne_nil := List.cons_ne_nil _ _
  source_isSolid := List.forall_mem_singleton.mpr (by decide)
  trail_isBlank := List.forall_mem_nil _

theorem typeBesideList_isProper : typeBesideList.IsProper where
  indent_isSpace := List.forall_mem_nil _
  head_isProper := by
    have htype : IsIdentifier ['t', 'y', 'p', 'e'] := ⟨List.cons_ne_nil _ _, List.all_eq_true.mp rfl⟩
    have hitem : BoundItem.IsProper .word ⟨[], ['a'], none, []⟩ :=
      ⟨List.forall_mem_nil _, isIdentifier_singleton (by decide), by rintro _ ⟨⟩, List.forall_mem_nil _⟩
    exact ⟨isBlanks1_space, ⟨htype, isBlanks1_space.2, isBlanks1_space.2, hitem⟩, isBlanks1_space, isBlanks1_space⟩
  quote_isMark := by decide
  source_ne_nil := List.cons_ne_nil _ _
  source_isSolid := List.forall_mem_singleton.mpr (by decide)
  trail_isBlank := List.forall_mem_nil _

theorem script_statements_misread : (∀ s ∈ [accented, typeBesideList], s.IsProper) ∧
    Imports.script (below ImportStatement.text [accented, typeBesideList]) =
        foundFrom ImportStatement.text (fun line s => s.reading line) 1 [accented, typeBesideList] ∧
      (Imports.script (below ImportStatement.text [accented, typeBesideList]) =
          foundFrom ImportStatement.text (fun line s => [s.import line]) 1 [accented, typeBesideList] ↔
        ∀ s ∈ [accented, typeBesideList], s.head.IsClear) :=
  have h : ∀ s ∈ [accented, typeBesideList], s.IsProper :=
    List.forall_mem_cons.mpr ⟨accented_isProper, List.forall_mem_singleton.mpr typeBesideList_isProper⟩
  ⟨h, script_statements h⟩

/-- Nothing is read off a binding whose name begins with a letter beyond the alphabet. -/
theorem script_ne_imports_accented : ¬ ∀ ss : List ImportStatement, (∀ s ∈ ss, s.IsProper) →
    Imports.script (below ImportStatement.text ss) =
      foundFrom ImportStatement.text (fun line s => [s.import line]) 1 ss := by
  intro h
  have himported := h [accented] (List.forall_mem_singleton.mpr accented_isProper)
  have hread : Imports.script (below ImportStatement.text [accented]) = [] := by decide +kernel
  rw [hread] at himported
  exact absurd himported (List.cons_ne_nil _ _).symm

end ImportStatement

end CodeCensus
