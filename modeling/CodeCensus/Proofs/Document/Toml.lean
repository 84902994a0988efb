import CodeCensus.Proofs.Document.TomlScalar
import CodeCensus.Toml.Reader

/-! What the reader of TOML makes of any text. Besides the syntax it gives up only on numbers with too many
digits and on values that nest too deep. -/

namespace CodeCensus.Toml

variable {text rest : List Char} {depth fuel : Nat}

theorem suffix_of_skipSpaces {c : Char} (h : skipSpaces text = c :: rest) : rest <:+ text := by
  have hskip := skipSpaces_suffix text
  rw [h] at hskip
  exact (List.suffix_cons c rest).trans hskip

/-! ## Keys -/

theorem reads_keyPart (depth : Nat) (text : List Char) : Reads (fun _ => True) depth text (keyPart text) := by
  fun_cases keyPart text with
  | case1 rest =>
    have h := (reads_literal depth rest).of_suffix (List.suffix_cons '\'' rest)
    exact h.map (fun _ _ _ => trivial) fun _ => List.suffix_rfl
  | case2 rest =>
    have h := (reads_basic depth false rest).of_suffix (List.suffix_cons '"' rest)
    exact h.map (fun _ _ _ => trivial) fun _ => List.suffix_rfl
  | case3 => trivial
  | case4 => exact ⟨trivial, List.dropWhile_suffix isBare⟩

theorem reads_keyParts (depth : Nat) (fuel : Nat) (done : KeyPath) (text : List Char) :
    Reads (fun _ => True) depth text (keyParts fuel done text) := by
  fun_induction keyParts fuel done text with
  | case1 => trivial
  | case2 fuel done text rest hskip e hpart =>
    have hrest : skipSpaces rest <:+ text := (skipSpaces_suffix rest).trans (suffix_of_skipSpaces hskip)
    exact ((reads_keyPart _ (skipSpaces rest)).isDue hpart).of_suffix hrest
  | case3 fuel done text rest hskip part after hpart ih =>
    have hrest : skipSpaces rest <:+ text := (skipSpaces_suffix rest).trans (suffix_of_skipSpaces hskip)
    have hafter := ((reads_keyPart depth (skipSpaces rest)).of_eq_ok hpart).2
    exact ih.of_suffix (hafter.trans hrest)
  | case4 fuel done text => exact ⟨trivial, skipSpaces_suffix text⟩

theorem reads_key (depth : Nat) (text : List Char) : Reads (fun _ => True) depth text (key text) := by
  fun_cases key text with
  | case1 e hpart => exact (reads_keyPart _ text).isDue hpart
  | case2 part rest hpart =>
    have hrest := ((reads_keyPart depth text).of_eq_ok hpart).2
    exact (reads_keyParts _ _ _ rest).of_suffix hrest

/-! ## Values -/

theorem meets_skipFiller (depth : Nat) (fuel : Nat) (text : List Char) :
    Meets (· <:+ text) depth text (skipFiller fuel text) := by
  fun_induction skipFiller fuel text with
  | case1 text => exact List.suffix_rfl
  | case2 fuel text rest hskip e hcomment =>
    have hrest : '#' :: rest <:+ text := hskip ▸ List.dropWhile_suffix _
    exact ((meets_skipComment _ ('#' :: rest)).isDue hcomment).of_suffix hrest
  | case3 fuel text rest hskip after hcomment ih =>
    have hrest : '#' :: rest <:+ text := hskip ▸ List.dropWhile_suffix _
    have hafter : after <:+ '#' :: rest := (meets_skipComment depth ('#' :: rest)).of_eq_ok hcomment
    exact (ih.of_suffix (hafter.trans hrest)).imp fun _ h => h.trans (hafter.trans hrest)
  | case4 fuel text => exact List.dropWhile_suffix _

theorem reads_textAfter {found : Read (List Char)} (front : List Char)
    (h : Reads (fun _ => True) depth rest found) :
    Reads (fun _ => True) depth (front ++ rest)
      (found.map fun (inner, rest) => (Data.text (String.ofList inner), rest)) :=
  (h.of_suffix (List.suffix_append front rest)).map (fun _ _ _ => trivial) fun _ => List.suffix_rfl

theorem reads_scalar (depth : Nat) (text : List Char) : Reads (fun _ => True) depth text (scalar text) := by
  fun_cases scalar text with
  | case1 _ rest => exact reads_textAfter ['"', '"', '"'] (reads_basicLines _ rest)
  | case2 _ rest => exact reads_textAfter ['"'] (reads_basic _ false rest)
  | case3 _ rest => exact reads_textAfter ['\'', '\'', '\''] (reads_literalLines _ rest)
  | case4 _ rest => exact reads_textAfter ['\''] (reads_literal _ rest)
  | case5 rest => exact ⟨trivial, List.suffix_append ['t', 'r', 'u', 'e'] rest⟩
  | case6 rest => exact ⟨trivial, List.suffix_append ['f', 'a', 'l', 's', 'e'] rest⟩
  | case7 _ _ _ _ _ _ _ found hmoment => exact reads_moment? found hmoment
  | case8 => exact reads_number _ text

/-- What is read with some fuel of a value, of the items of an array, and of the members of an inline
table. -/
structure ReadsWith (fuel : Nat) : Prop where
  value : ∀ depth text, Reads (fun _ => True) depth text (value fuel depth text)
  items : ∀ depth done text, Reads (fun _ => True) depth text (items fuel depth done text)
  members : ∀ depth done closed text, Reads (fun _ => True) depth text (members fuel depth done closed text)

theorem reads_deepNesting {c : Char} (hc : isOpening c = true) (rest : List Char) :
    Reads (fun _ => True) 0 (c :: rest) (.error (.fault (.deepNesting .other)) : Read Data) := by
  refine Fault.LiesIn.deepNesting .other ?_
  rw [List.countP_cons_of_pos hc]
  exact Nat.succ_pos _

theorem reads_value (ih : ∀ less < fuel, ReadsWith less) (depth : Nat) (text : List Char) :
    Reads (fun _ => True) depth text (value fuel depth text) := by
  fun_cases value fuel depth text with
  | case1 => trivial
  | case2 fuel rest => exact reads_deepNesting rfl rest
  | case3 fuel rest depth =>
    exact ((ih fuel (Nat.lt_succ_self fuel)).items depth [] rest).of_opening List.suffix_rfl rfl
  | case4 fuel rest => exact reads_deepNesting rfl rest
  | case5 fuel rest depth after hskip =>
    exact ⟨trivial, (suffix_of_skipSpaces hskip).trans (List.suffix_cons '{' rest)⟩
  | case6 fuel rest depth =>
    have h := (ih fuel (Nat.lt_succ_self fuel)).members depth [] [] (skipSpaces rest)
    exact h.of_opening (skipSpaces_suffix rest) rfl
  | case7 => exact reads_scalar _ text

theorem reads_items (ih : ∀ less < fuel, ReadsWith less) (depth : Nat) (done : List Data)
    (text : List Char) : Reads (fun _ => True) depth text (items fuel depth done text) := by
  have hfiller : ∀ {n : Nat} {text rest : List Char}, skipFiller n text = .ok rest → rest <:+ text :=
    fun h => (meets_skipFiller depth _ _).of_eq_ok h
  fun_cases items fuel depth done text with
  | case1 | case8 => trivial
  | case2 fuel _ _ _ e hskip => exact (meets_skipFiller _ _ text).isDue hskip
  | case3 fuel _ _ _ rest hskip => exact ⟨trivial, (List.suffix_cons ']' rest).trans (hfiller hskip)⟩
  | case4 fuel _ _ _ start _ hskip e hvalue =>
    exact (((ih fuel (Nat.lt_succ_self fuel)).value depth start).isDue hvalue).of_suffix (hfiller hskip)
  | case5 fuel _ _ _ start _ hskip item after hvalue e hnext =>
    have hafter := (((ih fuel (Nat.lt_succ_self fuel)).value depth start).of_eq_ok hvalue).2
    exact ((meets_skipFiller _ _ after).isDue hnext).of_suffix (hafter.trans (hfiller hskip))
  | case6 fuel _ _ _ start _ hskip item after hvalue rest hnext =>
    have hafter := (((ih fuel (Nat.lt_succ_self fuel)).value depth start).of_eq_ok hvalue).2
    have hrest : rest <:+ after := (List.suffix_cons ']' rest).trans (hfiller hnext)
    exact ⟨trivial, hrest.trans (hafter.trans (hfiller hskip))⟩
  | case7 fuel _ _ _ start _ hskip item after hvalue rest hnext =>
    have hafter := (((ih fuel (Nat.lt_succ_self fuel)).value depth start).of_eq_ok hvalue).2
    have hrest : rest <:+ after := (List.suffix_cons ',' rest).trans (hfiller hnext)
    have hmore := (ih fuel (Nat.lt_succ_self fuel)).items depth (item :: done) rest
    exact hmore.of_suffix (hrest.trans (hafter.trans (hfiller hskip)))

theorem reads_members (ih : ∀ less < fuel, ReadsWith less) (depth : Nat) (done : Entries)
    (closed : List KeyPath) (text : List Char) :
    Reads (fun _ => True) depth text (members fuel depth done closed text) := by
  -- a value comes after a key and an equals sign
  have hvalueAt : ∀ {path : KeyPath} {rest : List Char}, key text = .ok (path, '=' :: rest) →
      ∀ less < fuel, Reads (fun _ => True) depth text (value less depth (skipSpaces rest)) := by
    intro path rest hkey less hless
    have hrest := ((reads_key depth text).of_eq_ok hkey).2
    have hstart : skipSpaces rest <:+ text :=
      (skipSpaces_suffix rest).trans ((List.suffix_cons '=' rest).trans hrest)
    exact ((ih less hless).value depth _).of_suffix hstart
  fun_cases members fuel depth done closed text with
  | case1 | case4 | case5 | case8 | case9 => trivial
  | case2 fuel _ _ _ _ e hkey => exact (reads_key _ text).isDue hkey
  | case3 fuel _ _ _ _ path rest hkey e hvalue =>
    exact (hvalueAt hkey fuel (Nat.lt_succ_self fuel)).isDue hvalue
  | case6 fuel _ _ _ _ path rest hkey item after hvalue _ done' _ left hskip =>
    have hafter := ((hvalueAt hkey fuel (Nat.lt_succ_self fuel)).of_eq_ok hvalue).2
    exact ⟨trivial, (suffix_of_skipSpaces hskip).trans hafter⟩
  | case7 fuel _ _ _ _ path rest hkey item after hvalue _ done' _ left hskip =>
    have hafter := ((hvalueAt hkey fuel (Nat.lt_succ_self fuel)).of_eq_ok hvalue).2
    have hleft : skipSpaces left <:+ text :=
      (skipSpaces_suffix left).trans ((suffix_of_skipSpaces hskip).trans hafter)
    exact ((ih fuel (Nat.lt_succ_self fuel)).members depth done' _ _).of_suffix hleft

theorem readsWith (fuel : Nat) : ReadsWith fuel := by
  induction fuel using Nat.strong_induction_on with
  | _ fuel ih => exact ⟨reads_value ih, reads_items ih, reads_members ih⟩

/-! ## Statements -/

theorem meets_close (depth : Nat) (brackets : Nat) (text : List Char) :
    Meets (· <:+ text) depth text (close brackets text) := by
  unfold close
  split
  · exact List.drop_suffix brackets text
  · trivial

theorem reads_header (depth : Nat) (brackets : Nat) (opening : KeyPath → Document → Option Document) (d : Document)
    (text : List Char) : Reads (fun _ => True) depth text (header brackets opening d text) := by
  have hkey : Reads (fun _ => True) depth text (key (skipSpaces text)) :=
    (reads_key _ (skipSpaces text)).of_suffix (skipSpaces_suffix text)
  fun_cases header brackets opening d text with
  | case1 e hpath => exact hkey.isDue hpath
  | case2 => trivial
  | case3 path rest hpath d hopen =>
    have hrest := (hkey.of_eq_ok hpath).2
    have hclose := meets_close depth brackets rest
    cases h : close brackets rest with
    | error e => exact (hclose.isDue h).of_suffix hrest
    | ok after => exact ⟨trivial, (hclose.of_eq_ok h).trans hrest⟩

theorem reads_assignment (d : Document) (text : List Char) :
    Reads (fun _ => True) Fault.maxNesting text (assignment d text) := by
  have hvalueAt : ∀ {path : KeyPath} {rest : List Char}, key text = .ok (path, '=' :: rest) →
      Reads (fun _ => True) Fault.maxNesting text
        (value (rest.length + 1) Fault.maxNesting (skipSpaces rest)) := by
    intro path rest hkey
    have hrest := ((reads_key 0 text).of_eq_ok hkey).2
    have hstart : skipSpaces rest <:+ text :=
      (skipSpaces_suffix rest).trans ((List.suffix_cons '=' rest).trans hrest)
    exact ((readsWith _).value _ _).of_suffix hstart
  fun_cases assignment d text with
  | case1 e hkey => exact (reads_key _ text).isDue hkey
  | case2 path rest hkey e hvalue => exact (hvalueAt hkey).isDue hvalue
  | case3 | case5 => trivial
  | case4 path rest hkey item after hvalue d' =>
    exact ⟨trivial, ((hvalueAt hkey).of_eq_ok hvalue).2⟩

theorem reads_statement (d : Document) (text : List Char) :
    Reads (fun _ => True) Fault.maxNesting text (statement d text) := by
  fun_cases statement d text with
  | case1 rest => exact (reads_header _ 2 _ d rest).of_suffix (List.suffix_append ['[', '['] rest)
  | case2 rest => exact (reads_header _ 1 _ d rest).of_suffix (List.suffix_cons '[' rest)
  | case3 | case6 => exact ⟨trivial, List.suffix_rfl⟩
  | case4 => exact reads_assignment d _
  | case5 => trivial

theorem meets_statements (fuel : Nat) (d : Document) (text : List Char) :
    Meets (fun _ => True) Fault.maxNesting text (statements fuel d text) := by
  have hstatement := fun (d : Document) (text : List Char) =>
    (reads_statement d (skipSpaces text)).of_suffix (skipSpaces_suffix text)
  have hcomment : ∀ text : List Char,
      Meets (· <:+ text) Fault.maxNesting text (skipComment (skipSpaces text)) := fun text =>
    ((meets_skipComment _ (skipSpaces text)).of_suffix (skipSpaces_suffix text)).imp fun _ h =>
      h.trans (skipSpaces_suffix text)
  fun_induction statements fuel d text with
  | case1 | case2 | case6 | case8 => trivial
  | case3 fuel d text rest hskip ih => exact ih.of_suffix (suffix_of_skipSpaces hskip)
  | case4 fuel d text e _ _ h => exact (hstatement d text).isDue h
  | case5 fuel d text d' rest e hend _ _ h =>
    have hrest := ((hstatement d text).of_eq_ok h).2
    exact ((hcomment rest).isDue hend).of_suffix hrest
  | case7 fuel d text d' rest next hend _ _ h ih =>
    have hrest := ((hstatement d text).of_eq_ok h).2
    have hnext : next <:+ rest := (List.suffix_cons '\n' next).trans ((hcomment rest).of_eq_ok hend)
    exact ih.of_suffix (hnext.trans hrest)

/-! ## Line ends -/

/-- What unifying line ends keeps of a text that was read backwards so far: the runs within a line, and the
openings. -/
structure Unifies (seen done : List Char) : Prop where
  front : ∀ run, '\n' ∉ run → run <+: done → run <+: seen
  within : ∀ run, '\n' ∉ run → run <:+: done → run <:+: seen
  openings : done.countP isOpening = seen.countP isOpening

theorem Unifies.cons {seen done : List Char} (h : Unifies seen done) (c : Char) :
    Unifies (c :: seen) (c :: done) where
  front run hrun hfront := by
    rcases List.prefix_cons_iff.mp hfront with rfl | ⟨run', rfl, hrun'⟩
    · exact List.nil_prefix
    · have hline : '\n' ∉ run' := fun hmem => hrun (List.mem_cons_of_mem c hmem)
      exact (List.prefix_cons_inj c).mpr (h.front run' hline hrun')
  within run hrun hwithin := by
    rcases List.infix_cons_iff.mp hwithin with hfront | hwithin
    · rcases List.prefix_cons_iff.mp hfront with rfl | ⟨run', rfl, hrun'⟩
      · exact List.nil_infix
      · have hline : '\n' ∉ run' := fun hmem => hrun (List.mem_cons_of_mem c hmem)
        exact ((List.prefix_cons_inj c).mpr (h.front run' hline hrun')).isInfix
    · exact List.infix_cons (h.within run hrun hwithin)
  openings := by
    rw [List.countP_cons, List.countP_cons, h.openings]

theorem Unifies.lineEnd {seen before : List Char} (h : Unifies seen ('\r' :: before)) :
    Unifies ('\n' :: seen) ('\n' :: before) where
  front run hrun hfront := by
    rcases List.prefix_cons_iff.mp hfront with rfl | ⟨run', rfl, -⟩
    · exact List.nil_prefix
    · exact absurd List.mem_cons_self hrun
  within run hrun hwithin := by
    rcases List.infix_cons_iff.mp hwithin with hfront | hwithin
    · rcases List.prefix_cons_iff.mp hfront with rfl | ⟨run', rfl, -⟩
      · exact List.nil_infix
      · exact absurd List.mem_cons_self hrun
    · exact List.infix_cons (h.within run hrun (List.infix_cons hwithin))
  openings := by
    have hcount := h.openings
    simpa [isOpening] using hcount

/-- What every character keeps is kept by all characters of a text. -/
theorem Unifies.foldl {step : List Char → Char → List Char} {seen done : List Char}
    (hstep : ∀ seen done c, Unifies seen done → Unifies (c :: seen) (step done c)) (text : List Char)
    (h : Unifies seen done) : Unifies (text.reverse ++ seen) (text.foldl step done) := by
  induction text generalizing seen done with
  | nil => exact h
  | cons c rest ih =>
    rw [List.reverse_cons, List.append_assoc, List.foldl_cons]
    exact ih (hstep seen done c h)

theorem unifies_unifyLineEnds (text : List Char) : Unifies text.reverse (unifyLineEnds text).reverse := by
  have hnil : Unifies [] [] := ⟨fun _ _ h => h, fun _ _ h => h, rfl⟩
  rw [unifyLineEnds, List.reverse_reverse, ← List.append_nil text.reverse]
  refine Unifies.foldl (fun seen done c h => ?_) text hnil
  split
  · exact h.lineEnd
  · exact h.cons c

/-- No run of digits and no opening comes about by unifying line ends. -/
theorem liesIn_of_unifyLineEnds {f : Fault} (h : f.LiesIn depth (unifyLineEnds text)) :
    f.LiesIn depth text := by
  have hunifies := unifies_unifyLineEnds text
  cases h with
  | @longNumber run within digits long =>
    have hline : '\n' ∉ run.reverse := by
      intro hmem
      exact absurd (digits '\n' (List.mem_reverse.mp hmem)) (by decide)
    have hrun := hunifies.within run.reverse hline (List.reverse_infix.mpr within)
    exact .longNumber (List.reverse_infix.mp hrun) digits long
  | deepNesting what deep =>
    have hcount := hunifies.openings
    rw [List.countP_reverse, List.countP_reverse] at hcount
    exact .deepNesting what (hcount ▸ deep)

/-- What keeps a document from being read is its syntax, a number with too many digits, or too many
openings. -/
theorem read_meets (text : List Char) : Meets (fun _ => True) Fault.maxNesting text (read text) := by
  have h := meets_statements ((unifyLineEnds text).length + 1) Document.empty (unifyLineEnds text)
  rw [read]
  cases hread : statements ((unifyLineEnds text).length + 1) Document.empty (unifyLineEnds text) with
  | ok d => trivial
  | error e =>
    cases e with
    | malformed => trivial
    | fault f => exact liesIn_of_unifyLineEnds (h.isDue hread)

end CodeCensus.Toml
