import CodeCensus.Json.Reader
import CodeCensus.Proofs.Document.Reading
import Mathlib.Data.List.TakeWhile

/-! What the reader of JSON makes of any text. Besides the syntax it gives up only on numbers with too many
digits and on values that nest too deep, and a document holds a broken text only if an escape for half of
a surrogate pair stands in the text it is read from. -/

namespace CodeCensus

/-- No text anywhere in a document is broken, and its tables have texts for keys. -/
inductive Data.IsWhole : Data → Prop
  | null : IsWhole .null
  | bool (b : Bool) : IsWhole (.bool b)
  | int (n : Int) : IsWhole (.int n)
  | float (x : Double) : IsWhole (.float x)
  | text (s : String) : IsWhole (.text s)
  | list {items : List Data} (items_whole : ∀ item ∈ items, IsWhole item) : IsWhole (.list items)
  | table {entries : List (Data × Data)} (keys : ∀ entry ∈ entries, ∃ s, entry.1 = .text s)
    (values : ∀ entry ∈ entries, IsWhole entry.2) : IsWhole (.table entries)

namespace Data

theorem IsWhole.ne_broken {d : Data} (h : d.IsWhole) (codes : List Nat) : d ≠ .broken codes := by
  rintro rfl
  cases h

section

variable {α : Type} {key : Data} {value : α} {entries : List (Data × α)}

theorem mem_of_find? (h : find? key entries = some value) : ∃ k, (k, value) ∈ entries := by
  induction entries with
  | nil => cases h
  | cons entry rest ih =>
    rw [find?] at h
    split at h
    · obtain rfl := Option.some.inj h
      exact ⟨entry.1, List.mem_cons_self⟩
    · obtain ⟨k, hk⟩ := ih h
      exact ⟨k, List.mem_cons_of_mem _ hk⟩

/-- An entry after a `put` has its key and its value from the entries before or from what was put. -/
theorem mem_put {entry : Data × α} (h : entry ∈ put key value entries) :
    (entry.1 = key ∨ ∃ v, (entry.1, v) ∈ entries) ∧
      (entry.2 = value ∨ ∃ k, (k, entry.2) ∈ entries) := by
  induction entries with
  | nil =>
    obtain rfl := List.mem_singleton.mp h
    exact ⟨.inl rfl, .inl rfl⟩
  | cons first rest ih =>
    obtain ⟨k, v⟩ := first
    rw [put] at h
    split at h
    · rcases List.mem_cons.mp h with rfl | hrest
      · exact ⟨.inr ⟨v, List.mem_cons_self⟩, .inl rfl⟩
      · exact ⟨.inr ⟨entry.2, List.mem_cons_of_mem _ hrest⟩, .inr ⟨entry.1, List.mem_cons_of_mem _ hrest⟩⟩
    · rcases List.mem_cons.mp h with rfl | hrest
      · exact ⟨.inr ⟨v, List.mem_cons_self⟩, .inr ⟨k, List.mem_cons_self⟩⟩
      · obtain ⟨hkey, hvalue⟩ := ih hrest
        refine ⟨hkey.imp_right ?_, hvalue.imp_right ?_⟩
        · rintro ⟨v', hv'⟩
          exact ⟨v', List.mem_cons_of_mem _ hv'⟩
        · rintro ⟨k', hk'⟩
          exact ⟨k', List.mem_cons_of_mem _ hk'⟩

end

variable {entries : List (Data × Data)} {key value : Data}

theorem isWhole_table_put (h : (table entries).IsWhole) (hkey : ∃ s, key = .text s) (hvalue : value.IsWhole) :
    (table (put key value entries)).IsWhole := by
  cases h with
  | table keys values =>
    refine .table (fun entry hentry => ?_) (fun entry hentry => ?_)
    · rcases (mem_put hentry).1 with heq | ⟨v, hv⟩
      · rw [heq]
        exact hkey
      · exact keys (entry.1, v) hv
    · rcases (mem_put hentry).2 with heq | ⟨k, hk⟩
      · rw [heq]
        exact hvalue
      · exact values (k, entry.2) hk

theorem isWhole_table_collect (h : (table entries).IsWhole) : (table (collect entries)).IsWhole := by
  have hfold : ∀ done : List (Data × Data), (table done).IsWhole →
      (table (entries.foldl (fun done entry => put entry.1 entry.2 done) done)).IsWhole := by
    cases h with
    | table keys values =>
      induction entries with
      | nil => exact fun done hdone => hdone
      | cons entry rest ih =>
        intro done hdone
        have hput := isWhole_table_put hdone (keys entry List.mem_cons_self) (values entry List.mem_cons_self)
        exact ih (fun e he => keys e (List.mem_cons_of_mem _ he))
          (fun e he => values e (List.mem_cons_of_mem _ he)) _ hput
  exact hfold [] (.table (by simp) (by simp))

/-- What stands under a key of a document without broken texts is such a document. -/
theorem IsWhole.get? {d found : Data} {name : String} (h : d.IsWhole) (hget : d.get? name = some found) :
    found.IsWhole := by
  cases h with
  | table keys values =>
    obtain ⟨k, hk⟩ := mem_of_find? hget
    exact values _ hk
  | _ => cases hget

end Data

namespace Json

variable {source text : List Char} {depth : Nat}

def isHalf (n : Nat) : Bool := isHighHalf n || isLowHalf n

/-- An escape for half of a surrogate pair stands in a text. -/
def HasHalf (text : List Char) : Prop :=
  ∃ a b c d unit, ['\\', 'u', a, b, c, d] <:+: text ∧ codeUnit? a b c d = some unit ∧ isHalf unit = true

theorem HasHalf.of_suffix {rest : List Char} (h : HasHalf rest) (hsuffix : rest <:+ text) : HasHalf text := by
  obtain ⟨a, b, c, d, unit, hwithin, hunit, hhalf⟩ := h
  exact ⟨a, b, c, d, unit, hwithin.trans hsuffix.isInfix, hunit, hhalf⟩

theorem isHalf_eq_false_of_codeUnit? {a b c d : Char} {rest : List Char} {unit : Nat}
    (hunit : codeUnit? a b c d = some unit) (h : ¬ HasHalf ('\\' :: 'u' :: a :: b :: c :: d :: rest)) :
    isHalf unit = false := by
  by_contra hhalf
  have hwithin : ['\\', 'u', a, b, c, d] <:+: '\\' :: 'u' :: a :: b :: c :: d :: rest :=
    (List.prefix_append ['\\', 'u', a, b, c, d] rest).isInfix
  exact h ⟨a, b, c, d, unit, hwithin, hunit, by simpa using hhalf⟩

theorem isHalf_toNat (c : Char) : isHalf c.toNat = false := by
  have hvalid : c.toNat.isValidChar := c.valid
  simp only [Nat.isValidChar] at hvalid
  simp only [isHalf, isHighHalf, isLowHalf, Bool.or_eq_false_iff, Bool.and_eq_false_iff,
    decide_eq_false_iff_not]
  omega

/-- A document is whole if no half of a pair is escaped in the text that it is read from. -/
def WholeFrom (source : List Char) (d : Data) : Prop := ¬ HasHalf source → d.IsWhole

/-- A value read between quotes is a text on the same condition. -/
def TextFrom (source : List Char) (d : Data) : Prop := ¬ HasHalf source → ∃ s, d = .text s

theorem TextFrom.wholeFrom {d : Data} (h : TextFrom source d) : WholeFrom source d := by
  intro hno
  obtain ⟨s, rfl⟩ := h hno
  exact .text s

/-! ## Values that hold no others -/

/-- No code read is half of a pair if none read before is and none is escaped in the text. -/
def CodesFrom (done : List Nat) (text : List Char) (codes : List Nat) : Prop :=
  (∀ n ∈ done, isHalf n = false) → ¬ HasHalf text → ∀ n ∈ codes, isHalf n = false

theorem CodesFrom.of_cons {n : Nat} {done codes : List Nat} {rest : List Char}
    (h : CodesFrom (n :: done) rest codes) (hsuffix : rest <:+ text) (hn : ¬ HasHalf text → isHalf n = false) :
    CodesFrom done text codes := by
  intro hdone hno
  exact h (List.forall_mem_cons.mpr ⟨hn hno, hdone⟩) fun hhalf => hno (hhalf.of_suffix hsuffix)

theorem reads_textCodes (done : List Nat) (text : List Char) :
    Reads (CodesFrom done text) depth text (textCodes done text) := by
  fun_induction textCodes done text with
  | case1 | case3 | case7 | case9 => trivial
  | case2 done rest =>
    have hsuffix : rest <:+ '"' :: rest := List.suffix_cons '"' rest
    exact ⟨fun hdone _ n hn => hdone n (List.mem_reverse.mp hn), hsuffix⟩
  | case4 a b c d rest unit hunit high before hhalves ih =>
    have hsuffix : rest <:+ '\\' :: 'u' :: a :: b :: c :: d :: rest :=
      List.suffix_append ['\\', 'u', a, b, c, d] rest
    -- two halves make a pair, but both of them were escaped
    have hlow : isHalf unit = true := by simp_all [isHalf]
    refine (ih.of_suffix hsuffix).imp fun codes _ _ hno => ?_
    exact absurd (isHalf_eq_false_of_codeUnit? hunit hno) (by simp [hlow])
  | case5 a b c d rest unit hunit high before hhalves ih =>
    have hsuffix : rest <:+ '\\' :: 'u' :: a :: b :: c :: d :: rest :=
      List.suffix_append ['\\', 'u', a, b, c, d] rest
    exact (ih.of_suffix hsuffix).imp fun codes hcodes =>
      hcodes.of_cons hsuffix (isHalf_eq_false_of_codeUnit? hunit)
  | case6 a b c d rest unit hunit ih =>
    have hsuffix : rest <:+ '\\' :: 'u' :: a :: b :: c :: d :: rest :=
      List.suffix_append ['\\', 'u', a, b, c, d] rest
    exact (ih.of_suffix hsuffix).imp fun codes hcodes =>
      hcodes.of_cons hsuffix (isHalf_eq_false_of_codeUnit? hunit)
  | case8 done c rest hne plain hescaped ih =>
    have hsuffix : rest <:+ '\\' :: c :: rest := List.suffix_append ['\\', c] rest
    exact (ih.of_suffix hsuffix).imp fun codes hcodes =>
      hcodes.of_cons hsuffix fun _ => isHalf_toNat plain
  | case10 done c rest _ _ _ _ ih =>
    have hsuffix : rest <:+ c :: rest := List.suffix_cons c rest
    exact (ih.of_suffix hsuffix).imp fun codes hcodes =>
      hcodes.of_cons hsuffix fun _ => isHalf_toNat c

theorem exists_ofCodes_eq_text {codes : List Nat} (h : ∀ n ∈ codes, isHalf n = false) :
    ∃ s, ofCodes codes = .text s := by
  have hany : (codes.any fun n => isHighHalf n || isLowHalf n) = false := by
    rw [List.any_eq_false]
    intro n hn
    simpa [isHalf] using h n hn
  rw [ofCodes, hany]
  exact ⟨_, rfl⟩

theorem append_of_spanDigits {digits rest : List Char} (h : spanDigits text = (digits, rest)) :
    digits ++ rest = text ∧ ∀ c ∈ digits, c.isDigit = true := by
  obtain ⟨rfl, rfl⟩ := Prod.mk.inj h
  refine ⟨List.takeWhile_append_dropWhile, fun c hc => ?_⟩
  exact (List.all_eq_true.mp List.all_takeWhile) c hc

theorem fraction_suffix (text : List Char) : (fraction text).2 <:+ text := by
  unfold fraction
  split
  · rename_i rest
    split
    · exact List.suffix_rfl
    · rename_i digits rest' hne hspan
      obtain ⟨rfl, -⟩ := append_of_spanDigits hspan
      exact (List.suffix_append digits rest').trans (List.suffix_cons '.' _)
  · exact List.suffix_rfl

theorem suffix_of_exponent? : ∀ found ∈ exponent? text, found.2.2 <:+ text := by
  fun_cases exponent? text with
  | case2 e after he negative signed hsign digits rest hne hspan =>
    rintro found ⟨⟩
    have hsigned : signed <:+ after := by
      split at hsign
      all_goals obtain ⟨-, rfl⟩ := Prod.mk.inj hsign
      all_goals simp
    obtain ⟨rfl, -⟩ := append_of_spanDigits hspan
    exact (List.suffix_append digits rest).trans (hsigned.trans (List.suffix_cons e after))
  | _ =>
    rintro found ⟨⟩

/-- The digits before the point of a number are a run of digits at the front of it. -/
theorem append_of_whole {digits rest : List Char}
    (h : (match text with
      | '0' :: rest => (['0'], rest)
      | text => spanDigits text) = (digits, rest)) :
    digits ++ rest = text ∧ ∀ c ∈ digits, c.isDigit = true := by
  split at h
  · obtain ⟨rfl, rfl⟩ := Prod.mk.inj h
    exact ⟨rfl, List.forall_mem_singleton.mpr rfl⟩
  · exact append_of_spanDigits h

theorem reads_number (negative : Bool) (text : List Char) :
    Reads (WholeFrom source) depth text (number negative text) := by
  have hrest : ∀ {digits rest places rest' : List Char}, digits ++ rest = text →
      fraction rest = (places, rest') → rest' <:+ text := by
    rintro digits rest places rest' rfl hfraction
    have hsuffix := fraction_suffix rest
    rw [hfraction] at hsuffix
    exact hsuffix.trans (List.suffix_append digits rest)
  fun_cases number negative text with
  | case1 => trivial
  | case2 whole digits rest hne hwhole places rest' hfraction down power rest'' hexponent =>
    have hexp : rest'' <:+ rest' := suffix_of_exponent? _ hexponent
    exact ⟨fun _ => .float _, hexp.trans (hrest (append_of_whole hwhole).1 hfraction)⟩
  | case3 whole digits rest hne hwhole places rest' hfraction hexponent hplaces hlong =>
    obtain ⟨happend, hdigits⟩ := append_of_whole hwhole
    have hcount : digits.countP Char.isDigit = digits.length := List.countP_eq_length.mpr hdigits
    have hwithin : digits <:+: text := happend ▸ (List.prefix_append digits rest).isInfix
    rw [← hcount] at hlong ⊢
    exact .longNumber hwithin (fun c hc => .inl (hdigits c hc)) hlong
  | case4 whole digits rest hne hwhole places rest' hfraction =>
    exact ⟨fun _ => .int _, hrest (append_of_whole hwhole).1 hfraction⟩
  | case5 whole digits rest hne hwhole places rest' hfraction =>
    exact ⟨fun _ => .float _, hrest (append_of_whole hwhole).1 hfraction⟩

theorem isWhole_of_mem_words {named : List Char × Data} (h : named ∈ words) : named.2.IsWhole := by
  simp only [words, List.mem_cons, List.not_mem_nil, or_false] at h
  rcases h with rfl | rfl | rfl | rfl | rfl | rfl
  · exact .null
  · exact .bool true
  · exact .bool false
  all_goals exact .float _

theorem reads_scalar (text : List Char) : Reads (WholeFrom source) depth text (scalar text) := by
  unfold scalar
  split
  · rename_i word value hfind
    have hmem : (word, value) ∈ words := List.mem_of_find?_eq_some hfind
    exact ⟨fun _ => isWhole_of_mem_words hmem, List.drop_suffix _ text⟩
  · split
    · exact (reads_number true _).of_suffix (List.suffix_cons '-' _)
    · exact reads_number false text

/-! ## Values that hold others -/

theorem skipBlanks_suffix (text : List Char) : skipBlanks text <:+ text := List.dropWhile_suffix _

theorem suffix_of_skipBlanks {c : Char} {rest : List Char} (h : skipBlanks text = c :: rest) :
    rest <:+ text := by
  have hskip := skipBlanks_suffix text
  rw [h] at hskip
  exact (List.suffix_cons c rest).trans hskip

theorem wholeFrom_list {done : List Data} (h : ∀ item ∈ done, WholeFrom source item) :
    WholeFrom source (.list done.reverse) := by
  intro hno
  exact .list fun item hitem => h item (List.mem_reverse.mp hitem) hno

theorem wholeFrom_members {done : List (Data × Data)}
    (h : ∀ entry ∈ done, TextFrom source entry.1 ∧ WholeFrom source entry.2) :
    WholeFrom source (.table (Data.collect done.reverse)) := by
  intro hno
  refine Data.isWhole_table_collect (.table (fun entry hentry => ?_) fun entry hentry => ?_)
  · exact (h entry (List.mem_reverse.mp hentry)).1 hno
  · exact (h entry (List.mem_reverse.mp hentry)).2 hno

theorem reads_text (depth : Nat) (rest : List Char) (hsource : rest <:+ source) :
    Reads (fun codes => TextFrom source (ofCodes codes)) depth rest (textCodes [] rest) := by
  refine (reads_textCodes [] rest).imp fun codes hcodes hno => ?_
  exact exists_ofCodes_eq_text (hcodes (by simp) fun hhalf => hno (hhalf.of_suffix hsource))

/-- What is read with some fuel of a value, of the items of an array, and of the members of an object,
anywhere in a source. -/
structure ReadsWith (source : List Char) (fuel : Nat) : Prop where
  value : ∀ depth text, text <:+ source → Reads (WholeFrom source) depth text (value fuel depth text)
  items : ∀ depth done text, text <:+ source → (∀ item ∈ done, WholeFrom source item) →
    Reads (WholeFrom source) depth text (items fuel depth done text)
  members : ∀ depth done text, text <:+ source →
    (∀ entry ∈ done, TextFrom source entry.1 ∧ WholeFrom source entry.2) →
    Reads (WholeFrom source) depth text (members fuel depth done text)

variable {fuel : Nat}

theorem reads_deepNesting (what : Nesting) {c : Char} (hc : isOpening c = true) (rest : List Char) :
    Reads (WholeFrom source) 0 (c :: rest) (.error (.fault (.deepNesting what))) := by
  refine Fault.LiesIn.deepNesting what ?_
  rw [List.countP_cons_of_pos hc]
  exact Nat.succ_pos _

theorem reads_value (ih : ∀ less < fuel, ReadsWith source less) (depth : Nat) (text : List Char)
    (hsource : text <:+ source) : Reads (WholeFrom source) depth text (value fuel depth text) := by
  fun_cases value fuel depth text with
  | case1 => trivial
  | case2 fuel _ rest e hcodes =>
    have hrest : rest <:+ '"' :: rest := List.suffix_cons '"' rest
    exact ((reads_text _ rest (hrest.trans hsource)).isDue hcodes).of_suffix hrest
  | case3 fuel _ rest codes after hcodes =>
    have hrest : rest <:+ '"' :: rest := List.suffix_cons '"' rest
    obtain ⟨htext, hafter⟩ := (reads_text depth rest (hrest.trans hsource)).of_eq_ok hcodes
    exact ⟨htext.wholeFrom, hafter.trans hrest⟩
  | case4 fuel rest => exact reads_deepNesting .jsonArray rfl rest
  | case5 fuel rest depth after hskip =>
    exact ⟨fun _ => .list (by simp), (suffix_of_skipBlanks hskip).trans (List.suffix_cons '[' rest)⟩
  | case6 fuel rest depth hne =>
    have hafter : skipBlanks rest <:+ source :=
      (skipBlanks_suffix rest).trans ((List.suffix_cons '[' rest).trans hsource)
    have h := (ih fuel (Nat.lt_succ_self fuel)).items depth [] (skipBlanks rest) hafter (by simp)
    exact h.of_opening (skipBlanks_suffix rest) rfl
  | case7 fuel rest => exact reads_deepNesting .jsonObject rfl rest
  | case8 fuel rest depth after hskip =>
    exact ⟨fun _ => .table (by simp) (by simp),
      (suffix_of_skipBlanks hskip).trans (List.suffix_cons '{' rest)⟩
  | case9 fuel rest depth hne =>
    have hafter : skipBlanks rest <:+ source :=
      (skipBlanks_suffix rest).trans ((List.suffix_cons '{' rest).trans hsource)
    have h := (ih fuel (Nat.lt_succ_self fuel)).members depth [] (skipBlanks rest) hafter (by simp)
    exact h.of_opening (skipBlanks_suffix rest) rfl
  | case10 => exact reads_scalar text

theorem reads_items (ih : ∀ less < fuel, ReadsWith source less) (depth : Nat) (done : List Data)
    (text : List Char) (hsource : text <:+ source) (hdone : ∀ item ∈ done, WholeFrom source item) :
    Reads (WholeFrom source) depth text (items fuel depth done text) := by
  fun_cases items fuel depth done text with
  | case1 | case5 => trivial
  | case2 fuel _ _ _ e hvalue =>
    exact ((ih fuel (Nat.lt_succ_self fuel)).value depth text hsource).isDue hvalue
  | case3 fuel _ _ _ item rest hvalue after hskip =>
    obtain ⟨hitem, hrest⟩ := ((ih fuel (Nat.lt_succ_self fuel)).value depth text hsource).of_eq_ok hvalue
    have hall : ∀ d ∈ item :: done, WholeFrom source d := List.forall_mem_cons.mpr ⟨hitem, hdone⟩
    exact ⟨wholeFrom_list hall, (suffix_of_skipBlanks hskip).trans hrest⟩
  | case4 fuel _ _ _ item rest hvalue after hskip =>
    obtain ⟨hitem, hrest⟩ := ((ih fuel (Nat.lt_succ_self fuel)).value depth text hsource).of_eq_ok hvalue
    have hall : ∀ d ∈ item :: done, WholeFrom source d := List.forall_mem_cons.mpr ⟨hitem, hdone⟩
    have hafter : skipBlanks after <:+ text :=
      (skipBlanks_suffix after).trans ((suffix_of_skipBlanks hskip).trans hrest)
    have hmore := (ih fuel (Nat.lt_succ_self fuel)).items depth (item :: done) (skipBlanks after)
      (hafter.trans hsource) hall
    exact hmore.of_suffix hafter

theorem reads_members (ih : ∀ less < fuel, ReadsWith source less) (depth : Nat)
    (done : List (Data × Data)) (text : List Char) (hsource : text <:+ source)
    (hdone : ∀ entry ∈ done, TextFrom source entry.1 ∧ WholeFrom source entry.2) :
    Reads (WholeFrom source) depth text (members fuel depth done text) := by
  -- a member begins with its key, and its value comes after a colon
  have hkey : ∀ rest : List Char, text = '"' :: rest →
      Reads (fun codes => TextFrom source (ofCodes codes)) depth text (textCodes [] rest) := by
    rintro rest rfl
    have hrest : rest <:+ '"' :: rest := List.suffix_cons '"' rest
    exact (reads_text _ rest (hrest.trans hsource)).of_suffix hrest
  have hcolon : ∀ less : Nat, less < fuel → ∀ after later : List Char, after <:+ text →
      skipBlanks after = ':' :: later →
      Reads (WholeFrom source) depth text (value less depth (skipBlanks later)) := by
    intro less hless after later hafter hskip
    have hlater : skipBlanks later <:+ text :=
      (skipBlanks_suffix later).trans ((suffix_of_skipBlanks hskip).trans hafter)
    exact ((ih less hless).value depth _ (hlater.trans hsource)).of_suffix hlater
  fun_cases members fuel depth done text with
  | case1 | case6 | case7 | case8 => trivial
  | case2 fuel _ _ rest e hcodes =>
    exact (hkey rest rfl).isDue hcodes
  | case3 fuel _ _ rest codes after hcodes later hskip e hvalue =>
    have hafter := ((hkey rest rfl).of_eq_ok hcodes).2
    exact (hcolon fuel (Nat.lt_succ_self fuel) after later hafter hskip).isDue hvalue
  | case4 fuel _ _ rest codes after hcodes later hskip item left hvalue done' end' hend =>
    obtain ⟨hcode, hafter⟩ := (hkey rest rfl).of_eq_ok hcodes
    obtain ⟨hitem, hleft⟩ :=
      (hcolon fuel (Nat.lt_succ_self fuel) after later hafter hskip).of_eq_ok hvalue
    have hall : ∀ entry ∈ done', TextFrom source entry.1 ∧ WholeFrom source entry.2 :=
      List.forall_mem_cons.mpr ⟨⟨hcode, hitem⟩, hdone⟩
    exact ⟨wholeFrom_members hall, (suffix_of_skipBlanks hend).trans hleft⟩
  | case5 fuel _ _ rest codes after hcodes later hskip item left hvalue done' next hnext =>
    obtain ⟨hcode, hafter⟩ := (hkey rest rfl).of_eq_ok hcodes
    obtain ⟨hitem, hleft⟩ :=
      (hcolon fuel (Nat.lt_succ_self fuel) after later hafter hskip).of_eq_ok hvalue
    have hall : ∀ entry ∈ done', TextFrom source entry.1 ∧ WholeFrom source entry.2 :=
      List.forall_mem_cons.mpr ⟨⟨hcode, hitem⟩, hdone⟩
    have hsuffix : skipBlanks next <:+ '"' :: rest :=
      (skipBlanks_suffix next).trans ((suffix_of_skipBlanks hnext).trans hleft)
    have hmore := (ih fuel (Nat.lt_succ_self fuel)).members depth done' (skipBlanks next)
      (hsuffix.trans hsource) hall
    exact hmore.of_suffix hsuffix

theorem readsWith (source : List Char) (fuel : Nat) : ReadsWith source fuel := by
  induction fuel using Nat.strong_induction_on with
  | _ fuel ih => exact ⟨reads_value ih, reads_items ih, reads_members ih⟩

/-- A document is read whole unless half of a pair is escaped in it, and what keeps it from being read
is its syntax, a number with too many digits, or too many openings. -/
theorem read_meets (text : List Char) :
    Meets (WholeFrom text) Fault.maxNesting text (read text) := by
  have hskip := skipBlanks_suffix text
  have h := ((readsWith text (text.length + 1)).value Fault.maxNesting _ hskip).of_suffix hskip
  unfold read
  split
  · rename_i e hvalue
    exact h.isDue hvalue
  · rename_i d rest hvalue
    split
    · exact (h.of_eq_ok hvalue).1
    · trivial

/-! ## Documents that are one long number -/

section

variable {c : Char} {rest : List Char}

theorem spanDigits_of_forall {digits : List Char} (h : ∀ c ∈ digits, c.isDigit = true) :
    spanDigits digits = (digits, []) := by
  rw [spanDigits, List.takeWhile_eq_self_iff.mpr h, List.dropWhile_eq_nil_iff.mpr h]

theorem number_of_long (negative : Bool) (hdigits : ∀ d ∈ c :: rest, d.isDigit = true) (hzero : c ≠ '0')
    (hlong : Fault.maxDigits < (c :: rest).length) :
    number negative (c :: rest) = .error (.fault (.longNumber (c :: rest).length)) := by
  unfold number
  extract_lets whole
  have hwhole : whole = (c :: rest, []) := by
    unfold whole
    split
    · rename_i heq
      exact absurd (List.cons.inj heq).1 hzero
    · exact spanDigits_of_forall hdigits
  rw [hwhole]
  dsimp only [fraction, exponent?]
  rw [if_pos (by rfl), if_pos hlong]

theorem find?_words_of_isDigit (hc : c.isDigit = true) :
    words.find? (fun (word, _) => word.isPrefixOf (c :: rest)) = none := by
  have hfront : ∀ named ∈ words, ∃ d more, named.1 = d :: more ∧ d.isDigit = false := by
    simp only [words, List.forall_mem_cons]
    refine ⟨⟨'n', _, rfl, rfl⟩, ⟨'t', _, rfl, rfl⟩, ⟨'f', _, rfl, rfl⟩, ⟨'N', _, rfl, rfl⟩,
      ⟨'I', _, rfl, rfl⟩, ⟨'-', _, rfl, rfl⟩, by simp⟩
  rw [List.find?_eq_none]
  intro named hnamed hprefix
  obtain ⟨d, more, hword, hd⟩ := hfront named hnamed
  have hstart : d :: more <+: c :: rest := by
    rw [← hword]
    exact List.isPrefixOf_iff_prefix.mp hprefix
  obtain ⟨rfl, -⟩ := List.cons_prefix_cons.mp hstart
  exact absurd hc (by simp [hd])

theorem value_eq_scalar (fuel depth : Nat) (hquote : c ≠ '"') (hlist : c ≠ '[') (htable : c ≠ '{') :
    value (fuel + 1) depth (c :: rest) = scalar (c :: rest) := by
  rw [value]
  · rintro more heq
    exact absurd (List.cons.inj heq).1 hquote
  · rintro more heq
    exact absurd (List.cons.inj heq).1 hlist
  · rintro more heq
    exact absurd (List.cons.inj heq).1 htable

theorem ne_of_isDigit {d : Char} (hc : c.isDigit = true) (hd : d.isDigit = false) : c ≠ d := by
  rintro rfl
  exact absurd hc (by simp [hd])

theorem scalar_of_isDigit (hc : c.isDigit = true) : scalar (c :: rest) = number false (c :: rest) := by
  unfold scalar
  rw [find?_words_of_isDigit hc]
  dsimp only
  split
  · rename_i heq
    exact absurd (List.cons.inj heq).1 (ne_of_isDigit hc rfl)
  · rfl

/-- A document that is one number with too many digits is not read, though its syntax is right. -/
theorem read_of_long (hdigits : ∀ d ∈ c :: rest, d.isDigit = true) (hzero : c ≠ '0')
    (hlong : Fault.maxDigits < (c :: rest).length) :
    read (c :: rest) = .error (.fault (.longNumber (c :: rest).length)) := by
  have hc : c.isDigit = true := hdigits c List.mem_cons_self
  have hne : ∀ d : Char, d.isDigit = false → c ≠ d := fun d hd => ne_of_isDigit hc hd
  have hskip : skipBlanks (c :: rest) = c :: rest := by
    rw [skipBlanks, List.dropWhile_cons_of_neg]
    simp [hne ' ' rfl, hne '\t' rfl, hne '\n' rfl, hne '\r' rfl]
  unfold read
  rw [hskip, value_eq_scalar _ _ (hne '"' rfl) (hne '[' rfl) (hne '{' rfl), scalar_of_isDigit hc,
    number_of_long false hdigits hzero hlong]

end

end Json

end CodeCensus
