import CodeCensus.Proofs.Document.JsonSyntax
import Mathlib.Data.Bool.AllAny

/-! Reading JSON as it is written. A document is read as what it stands for if it nests no deeper than is read and holds
no integer with too many digits, and otherwise it is not read. -/

namespace CodeCensus

namespace Json

variable {text rest : List Char} {c : Char}

/-! ## Reading texts -/

/-- One more code unit behind the code points read, last first. -/
def addUnit (done : List Nat) (n : Nat) : List Nat :=
  match done with
  | high :: before => if isHighHalf high && isLowHalf n then joinHalves high n :: before else n :: done
  | [] => [n]

theorem addUnit_toNat (done : List Nat) (c : Char) : addUnit done c.toNat = c.toNat :: done := by
  have hlow : isLowHalf c.toNat = false := (Bool.or_eq_false_iff.mp (isHalf_toNat c)).2
  cases done with
  | nil => rfl
  | cons high before => rw [addUnit, hlow, Bool.and_false, if_neg Bool.false_ne_true]

theorem textCodes_plain (done : List Nat) (hprintable : 0x20 ≤ c.toNat) (hquote : c ≠ '"') (hbackslash : c ≠ '\\')
    (rest : List Char) : textCodes done (c :: rest) = textCodes (c.toNat :: done) rest := by
  rw [textCodes, if_neg (Nat.not_lt.mpr hprintable)]
  · exact hquote
  · rintro _ _ _ _ _ rfl
    exact absurd rfl hbackslash
  · rintro _ _ rfl
    exact absurd rfl hbackslash

theorem textCodes_escape (done : List Nat) {letter : Char} (h : (letter, c) ∈ shortEscapes) (rest : List Char) :
    textCodes done ('\\' :: letter :: rest) = textCodes (c.toNat :: done) rest := by
  have hletter : ∀ entry ∈ shortEscapes,
      textCodes done ('\\' :: entry.1 :: rest) = textCodes (entry.2.toNat :: done) rest := by
    simp only [shortEscapes, List.forall_mem_cons]
    exact ⟨rfl, rfl, rfl, rfl, rfl, rfl, rfl, rfl, List.forall_mem_nil _⟩
  exact hletter _ h

theorem textCodes_unit (done : List Nat) {a b c d : Char} (hex : [a, b, c, d].all isHexDigit = true)
    (rest : List Char) :
    textCodes done ('\\' :: 'u' :: a :: b :: c :: d :: rest) =
      textCodes (addUnit done (ofDigits 16 [a, b, c, d])) rest := by
  have hunit : codeUnit? a b c d = some (ofDigits 16 [a, b, c, d]) := by
    simp only [List.all_cons, Bool.and_eq_true] at hex
    obtain ⟨ha, hb, hc, hd, -⟩ := hex
    rw [codeUnit?, ha, hb, hc, hd]
    rfl
  rw [textCodes, hunit]
  dsimp only
  cases done with
  | nil => rfl
  | cons high before =>
    dsimp only [addUnit]
    split
    · rfl
    · rfl

theorem textCodes_piece (done : List Nat) (p : Piece) (rest : List Char) :
    textCodes done (p.text ++ rest) = textCodes (addUnit done p.code) rest := by
  cases p with
  | plain c hprintable hquote hbackslash =>
    rw [Piece.code, addUnit_toNat]
    exact textCodes_plain done hprintable hquote hbackslash rest
  | escape letter c hmem =>
    rw [Piece.code, addUnit_toNat]
    exact textCodes_escape done hmem rest
  | unit a b c d hex => exact textCodes_unit done hex rest

theorem textCodes_pieces (done : List Nat) (pieces : List Piece) (rest : List Char) :
    textCodes done (pieces.flatMap Piece.text ++ '"' :: rest) =
      .ok (((pieces.map Piece.code).foldl addUnit done).reverse, rest) := by
  induction pieces generalizing done with
  | nil => rfl
  | cons p pieces ih =>
    rw [List.flatMap_cons, List.append_assoc, textCodes_piece, ih]
    rfl

theorem isHighHalf_joinHalves (high low : Nat) : isHighHalf (joinHalves high low) = false := by
  have hlarge : 0x10000 ≤ joinHalves high low := (Nat.le_add_right _ _).trans (Nat.le_add_right _ _)
  simp only [isHighHalf, Bool.and_eq_false_iff, decide_eq_false_iff_not]
  omega

/-- The last code point read may yet turn out to be the first half of a pair. -/
theorem reverse_foldl_addUnit (codes before : List Nat) (high : Nat) :
    (codes.foldl addUnit (high :: before)).reverse = before.reverse ++ joinPairs (high :: codes) := by
  induction codes generalizing before high with
  | nil => exact List.reverse_cons
  | cons n codes ih =>
    rw [List.foldl_cons, addUnit, joinPairs]
    split
    · rw [ih, joinPairs_cons (isHighHalf_joinHalves high n)]
    · rw [ih, List.reverse_cons, List.append_assoc, List.singleton_append]

theorem textCodes_quoted (q : Quoted) (rest : List Char) :
    textCodes [] (q.pieces.flatMap Piece.text ++ '"' :: rest) = .ok (q.codes, rest) := by
  rw [textCodes_pieces, Quoted.codes]
  cases q.pieces.map Piece.code with
  | nil => rfl
  | cons n codes => rw [List.foldl_cons, addUnit, reverse_foldl_addUnit, List.reverse_nil, List.nil_append]

/-! ## Reading numbers -/

/-- A value ends here: no part of a number comes next. -/
def Ends (text : List Char) : Prop := ∀ c ∈ text.head?, c ∈ [' ', '\t', '\n', '\r', ',', ']', '}']

theorem Ends.head (h : Ends text) :
    ∀ c ∈ text.head?, c.isDigit = false ∧ c ≠ '.' ∧ (c == 'e' || c == 'E') = false := by
  have hends : ∀ c ∈ [' ', '\t', '\n', '\r', ',', ']', '}'],
      c.isDigit = false ∧ c ≠ '.' ∧ (c == 'e' || c == 'E') = false :=
    List.all_iff_forall_prop.mp (by decide)
  exact fun c hc => hends c (h c hc)

theorem spanDigits_append (digits : Digits) (h : ∀ c ∈ rest.head?, c.isDigit = false) :
    spanDigits (digits.1 ++ rest) = (digits.1, rest) := by
  have hstop : rest.takeWhile Char.isDigit = [] ∧ rest.dropWhile Char.isDigit = rest := by
    cases rest with
    | nil => exact ⟨rfl, rfl⟩
    | cons c rest =>
      have hc : ¬ c.isDigit = true := by
        rw [h c rfl]
        exact Bool.false_ne_true
      exact ⟨List.takeWhile_cons_of_neg hc, List.dropWhile_cons_of_neg hc⟩
  rw [spanDigits, List.takeWhile_append_of_pos digits.2.2, List.dropWhile_append_of_pos digits.2.2, hstop.1, hstop.2,
    List.append_nil]

/-- The sign of a power is taken off, and nothing else. -/
theorem Power.eq_of_signed (p : Power) {negative : Bool} (hdigit : ∀ c ∈ text.head?, c.isDigit = true)
    (h : (match p.sign ++ text with
      | '-' :: rest => (true, rest)
      | '+' :: rest => (false, rest)
      | rest => (false, rest)) = (negative, rest)) : negative = (p.sign == ['-']) ∧ rest = text := by
  have hsign := p.sign_mem
  simp only [List.mem_cons, List.not_mem_nil, or_false] at hsign
  rcases hsign with hsign | hsign | hsign
  · rw [hsign, List.nil_append] at h
    split at h
    · exact absurd (hdigit '-' rfl) (by decide)
    · exact absurd (hdigit '+' rfl) (by decide)
    · obtain ⟨rfl, rfl⟩ := Prod.mk.inj h
      exact ⟨by rw [hsign]; rfl, rfl⟩
  · rw [hsign] at h
    obtain ⟨rfl, rfl⟩ := Prod.mk.inj h
    exact ⟨by rw [hsign]; rfl, rfl⟩
  · rw [hsign] at h
    obtain ⟨rfl, rfl⟩ := Prod.mk.inj h
    exact ⟨by rw [hsign]; rfl, rfl⟩

theorem exponent?_append (p : Power) (h : ∀ c ∈ rest.head?, c.isDigit = false) :
    exponent? (p.text ++ rest) = some (p.sign == ['-'], p.digits.1, rest) := by
  have hletter : (p.letter == 'e' || p.letter == 'E') = true := by
    rw [Bool.or_eq_true, beq_iff_eq, beq_iff_eq]
    exact p.letter_mem
  have hspan := spanDigits_append p.digits h
  have hdigit : ∀ c ∈ (p.digits.1 ++ rest).head?, c.isDigit = true := by
    intro c hc
    rw [List.head?_append_of_ne_nil _ p.digits.2.1] at hc
    exact p.digits.2.2 c (List.mem_of_mem_head? hc)
  generalize htext : p.text ++ rest = text
  rw [Power.text, List.cons_append, List.append_assoc] at htext
  fun_cases exponent? text with
  | case1 e after he negative signed hsign tail hnil =>
    obtain ⟨rfl, rfl⟩ := List.cons.inj htext
    obtain ⟨rfl, rfl⟩ := p.eq_of_signed hdigit hsign
    exact absurd (Prod.mk.inj (hspan.symm.trans hnil)).1 p.digits.2.1
  | case2 e after he negative signed hsign digits tail hne hspan' =>
    obtain ⟨rfl, rfl⟩ := List.cons.inj htext
    obtain ⟨rfl, rfl⟩ := p.eq_of_signed hdigit hsign
    obtain ⟨rfl, rfl⟩ := Prod.mk.inj (hspan.symm.trans hspan')
    rfl
  | case3 e after he =>
    obtain ⟨rfl, rfl⟩ := List.cons.inj htext
    exact absurd hletter he
  | case4 => cases htext

theorem exponent?_of_ends (h : Ends text) : exponent? text = none := by
  fun_cases exponent? text with
  | case2 e after he =>
    rw [(h.head e rfl).2.2] at he
    cases he
  | _ => rfl

theorem fraction_append (digits : Digits) (h : ∀ c ∈ rest.head?, c.isDigit = false) :
    fraction ('.' :: (digits.1 ++ rest)) = (digits.1, rest) := by
  rw [fraction, spanDigits_append digits h]
  split
  · rename_i heq
    exact absurd (Prod.mk.inj heq).1 digits.2.1
  · rename_i heq
    exact heq.symm

theorem fraction_of_head (h : ∀ c ∈ text.head?, c ≠ '.') : fraction text = ([], text) := by
  unfold fraction
  split
  · exact absurd rfl (h '.' rfl)
  · rfl

/-- What is made of a part of a document: its value with all that follows, and a fault if it does not fit. -/
structure Answers (fits : Prop) (d : Data) (rest : List Char) (result : Read Data) : Prop where
  of_fits : fits → result = .ok (d, rest)
  of_not_fits : ¬ fits → ∃ fault, result = .error (.fault fault)

theorem Answers.ok {fits : Prop} (h : fits) (d : Data) (rest : List Char) : Answers fits d rest (.ok (d, rest)) :=
  ⟨fun _ => rfl, fun hno => absurd h hno⟩

theorem Answers.fault {fits : Prop} (h : ¬ fits) (d : Data) (rest : List Char) (f : Fault) :
    Answers fits d rest (.error (.fault f)) :=
  ⟨fun hfits => absurd hfits h, fun _ => ⟨f, rfl⟩⟩

namespace Numeral

variable (n : Numeral)

/-- The digits before the point are taken off the front of a number. -/
theorem whole_append {tail : List Char} (htail : ∀ c ∈ tail.head?, c.isDigit = false) :
    (match n.whole.1 ++ tail with
      | '0' :: rest => (['0'], rest)
      | text => spanDigits text) = (n.whole.1, tail) := by
  split
  · rename_i after heq
    have hzero : n.whole.1 = ['0'] := by
      refine n.front ?_
      rw [← List.head?_append_of_ne_nil _ n.whole.2.1, heq]
      rfl
    rw [hzero] at heq ⊢
    have hafter : tail = after := (List.cons.inj heq).2
    rw [hafter]
  · exact spanDigits_append n.whole htail

/-- No digit follows where a part of a number is at its end. -/
theorem head_powerText (h : Ends rest) : ∀ c ∈ (n.powerText ++ rest).head?, c.isDigit = false ∧ c ≠ '.' := by
  intro c hc
  cases hpower : n.power with
  | none =>
    rw [powerText, hpower] at hc
    exact ⟨(h.head c hc).1, (h.head c hc).2.1⟩
  | some p =>
    rw [powerText, hpower] at hc
    obtain rfl := Option.some.inj hc
    rcases p.letter_mem with hletter | hletter
    · rw [hletter]
      decide
    · rw [hletter]
      decide

theorem head_placesText (h : Ends rest) :
    ∀ c ∈ (n.placesText ++ (n.powerText ++ rest)).head?, c.isDigit = false := by
  intro c hc
  cases hplaces : n.places with
  | none =>
    rw [placesText, hplaces] at hc
    exact (n.head_powerText h c hc).1
  | some digits =>
    rw [placesText, hplaces] at hc
    obtain rfl := Option.some.inj hc
    rfl

theorem fraction_placesText (h : Ends rest) :
    fraction (n.placesText ++ (n.powerText ++ rest)) = (n.placeDigits, n.powerText ++ rest) := by
  have hhead := n.head_powerText h
  cases hplaces : n.places with
  | none =>
    rw [placesText, placeDigits, hplaces]
    exact fraction_of_head fun c hc => (hhead c hc).2
  | some digits =>
    rw [placesText, placeDigits, hplaces]
    exact fraction_append digits fun c hc => (hhead c hc).1

theorem exponent?_powerText (h : Ends rest) :
    exponent? (n.powerText ++ rest) = n.power.map fun p => (p.sign == ['-'], p.digits.1, rest) := by
  cases hpower : n.power with
  | none =>
    rw [powerText, hpower]
    exact exponent?_of_ends h
  | some p =>
    rw [powerText, hpower]
    exact exponent?_append p fun c hc => (h.head c hc).1

theorem isEmpty_placeDigits : n.placeDigits.isEmpty = n.places.isNone := by
  cases hplaces : n.places with
  | none =>
    rw [placeDigits, hplaces]
    rfl
  | some digits =>
    rw [placeDigits, hplaces]
    exact List.isEmpty_eq_false_iff.mpr digits.2.1

theorem answers_number (h : Ends rest) :
    Answers n.Fits n.value rest (number n.negative (n.whole.1 ++ (n.placesText ++ (n.powerText ++ rest)))) := by
  obtain ⟨c, digits, hdigits⟩ := List.exists_cons_of_ne_nil n.whole.2.1
  unfold number
  extract_lets whole
  have hwhole : whole = (c :: digits, n.placesText ++ (n.powerText ++ rest)) := by
    rw [← hdigits]
    exact n.whole_append (n.head_placesText h)
  rw [hwhole]
  dsimp only
  rw [n.fraction_placesText h]
  dsimp only
  rw [n.exponent?_powerText h, n.isEmpty_placeDigits, ← hdigits]
  cases hpower : n.power with
  | some p =>
    have hinteger : n.isInteger = false := by rw [isInteger, hpower, Option.isNone_some, Bool.and_false]
    rw [value, Fits, hinteger, hpower]
    exact .ok (fun hyes => absurd hyes Bool.false_ne_true) _ _
  | none =>
    have hinteger : n.isInteger = n.places.isNone := by rw [isInteger, hpower, Option.isNone_none, Bool.and_true]
    rw [value, Fits, hinteger, hpower, powerText, hpower]
    dsimp only [Option.map_none, Option.getD_none]
    split
    · rename_i hnone
      split
      · rename_i hlong
        exact .fault (fun hfits => absurd (hfits hnone) (Nat.not_le.mpr hlong)) _ _ _
      · rename_i hshort
        exact .ok (fun _ => Nat.not_lt.mp hshort) _ _
    · rename_i hsome
      rw [Int.zero_sub]
      exact .ok (fun hyes => absurd hyes hsome) _ _

end Numeral

/-! ## Reading values that hold no others -/

theorem scalar_append {word : List Char} {d : Data}
    (h : words.find? (fun (name, _) => name.isPrefixOf (word ++ rest)) = some (word, d)) :
    scalar (word ++ rest) = .ok (d, rest) := by
  unfold scalar
  rw [h]
  dsimp only
  rw [List.drop_left]

theorem find?_words_of_negative (hc : c.isDigit = true) :
    words.find? (fun (word, _) => word.isPrefixOf ('-' :: c :: rest)) = none := by
  have hminus : "-Infinity".toList.isPrefixOf ('-' :: c :: rest) = false := by
    rw [← Bool.not_eq_true, List.isPrefixOf_iff_prefix]
    intro hprefix
    obtain ⟨rfl, -⟩ := List.cons_prefix_cons.mp (List.cons_prefix_cons.mp hprefix).2
    exact absurd hc (by decide)
  rw [List.find?_eq_none]
  simp only [words, List.forall_mem_cons]
  exact ⟨Bool.false_ne_true, Bool.false_ne_true, Bool.false_ne_true, Bool.false_ne_true, Bool.false_ne_true,
    Bool.eq_false_iff.mp hminus, by simp⟩

theorem scalar_of_negative (hc : c.isDigit = true) : scalar ('-' :: c :: rest) = number true (c :: rest) := by
  rw [scalar, find?_words_of_negative hc]

theorem Numeral.answers_value (n : Numeral) (fuel depth : Nat) (h : Ends rest) :
    Answers n.Fits n.value rest (Json.value (fuel + 1) depth (n.text ++ rest)) := by
  have hnumber := n.answers_number h
  obtain ⟨c, digits, hdigits⟩ := List.exists_cons_of_ne_nil n.whole.2.1
  have hc : c.isDigit = true := n.whole.2.2 c (by rw [hdigits]; exact List.mem_cons_self)
  rw [hdigits, List.cons_append] at hnumber
  rw [text, sign, hdigits]
  simp only [List.append_assoc, List.cons_append]
  cases hnegative : n.negative with
  | true =>
    rw [hnegative] at hnumber
    rw [if_pos rfl, List.singleton_append, value_eq_scalar fuel depth (by decide) (by decide) (by decide),
      scalar_of_negative hc]
    exact hnumber
  | false =>
    rw [hnegative] at hnumber
    rw [if_neg Bool.false_ne_true, List.nil_append,
      value_eq_scalar fuel depth (ne_of_isDigit hc rfl) (ne_of_isDigit hc rfl) (ne_of_isDigit hc rfl),
      scalar_of_isDigit hc]
    exact hnumber

/-! ## Reading values that hold others -/

theorem skipBlanks_append (gap : Layout) (h : ∀ c ∈ text.head?, isLayout c = false) :
    skipBlanks (gap.1 ++ text) = text := by
  have hskip : skipBlanks (gap.1 ++ text) = text.dropWhile isLayout := List.dropWhile_append_of_pos gap.2
  rw [hskip]
  cases text with
  | nil => rfl
  | cons c rest =>
    rw [List.dropWhile_cons_of_neg]
    rw [h c rfl]
    exact Bool.false_ne_true

theorem skipBlanks_cons (gap : Layout) (hc : isLayout c = false) (rest : List Char) :
    skipBlanks (gap.1 ++ c :: rest) = c :: rest := by
  refine skipBlanks_append gap ?_
  rintro d ⟨⟩
  exact hc

theorem ends_append (gap : Layout) (h : Ends text) : Ends (gap.1 ++ text) := by
  intro c hc
  cases hgap : gap.1 with
  | nil =>
    rw [hgap] at hc
    exact h c hc
  | cons d blanks =>
    rw [hgap] at hc
    obtain rfl := Option.some.inj hc
    have hd : isLayout d = true := gap.2 d (by rw [hgap]; exact List.mem_cons_self)
    simp only [isLayout, Bool.or_eq_true, beq_iff_eq] at hd
    simp only [List.mem_cons]
    tauto

theorem ends_cons (gap : Layout) (hc : c ∈ [',', ']', '}']) (rest : List Char) : Ends (gap.1 ++ c :: rest) := by
  refine ends_append gap ?_
  rintro d ⟨⟩
  exact List.mem_append_right [' ', '\t', '\n', '\r'] hc

theorem Numeral.head_text (n : Numeral) : ∀ c ∈ (n.text ++ rest).head?, c = '-' ∨ c.isDigit = true := by
  intro c hc
  rw [text, sign] at hc
  split at hc
  · exact .inl (Option.some.inj hc).symm
  · rw [List.nil_append, List.append_assoc, List.head?_append_of_ne_nil _ n.whole.2.1] at hc
    exact .inr (n.whole.2.2 c (List.mem_of_mem_head? hc))

/-- A value begins with no blank, and not like the end of a list. -/
theorem Tree.head_text (t : Tree) : ∀ c ∈ (t.text ++ rest).head?, isLayout c = false ∧ c ≠ ']' := by
  cases t with
  | number n =>
    intro c hc
    rcases n.head_text c hc with rfl | hdigit
    · decide
    · have hne : ∀ d : Char, d.isDigit = false → c ≠ d := fun d hd => ne_of_isDigit hdigit hd
      simp [isLayout, hne ' ' rfl, hne '\t' rfl, hne '\n' rfl, hne '\r' rfl, hne ']' rfl]
  | bool b => cases b <;> rintro c ⟨⟩ <;> decide
  | infinity negative => cases negative <;> rintro c ⟨⟩ <;> decide
  | _ =>
    rintro c ⟨⟩
    decide

theorem Items.head_text (l : Items) : ∀ c ∈ (l.text ++ rest).head?, isLayout c = false ∧ c ≠ ']' := by
  cases l with
  | last item after =>
    rw [text, List.append_assoc]
    exact item.head_text
  | more item after before l =>
    rw [text, List.append_assoc]
    exact item.head_text

theorem Members.head_text (l : Members) : ∀ c ∈ (l.text ++ rest).head?, c = '"' := by
  cases l with
  | _ =>
    rintro c ⟨⟩
    rfl

/-! Blanks are skipped up to the beginning of what they stand in front of. -/

theorem Tree.skipBlanks_text (t : Tree) (gap : Layout) (rest : List Char) :
    skipBlanks (gap.1 ++ (t.text ++ rest)) = t.text ++ rest :=
  skipBlanks_append gap fun c hc => (t.head_text c hc).1

theorem Items.skipBlanks_text (l : Items) (gap : Layout) (rest : List Char) :
    skipBlanks (gap.1 ++ (l.text ++ rest)) = l.text ++ rest :=
  skipBlanks_append gap fun c hc => (l.head_text c hc).1

theorem Members.skipBlanks_text (l : Members) (gap : Layout) (rest : List Char) :
    skipBlanks (gap.1 ++ (l.text ++ rest)) = l.text ++ rest := by
  refine skipBlanks_append gap fun c hc => ?_
  rw [l.head_text c hc]
  rfl

section

variable {fits fits' : Prop} {d item : Data} {fuel depth : Nat} {tail : List Char}

theorem value_list (hskip : skipBlanks tail = text) (hhead : ∀ c ∈ text.head?, c ≠ ']') :
    value (fuel + 1) (depth + 1) ('[' :: tail) = items fuel depth [] text := by
  rw [value, hskip]
  split
  · exact absurd rfl (hhead ']' rfl)
  · rfl

theorem value_table (hskip : skipBlanks tail = text) (hhead : ∀ c ∈ text.head?, c = '"') :
    value (fuel + 1) (depth + 1) ('{' :: tail) = members fuel depth [] text := by
  rw [value, hskip]
  split
  · exact absurd (hhead '}' rfl) (by decide)
  · rfl

/-- A part is read and then the rest of the whole; what is wrong with the part is wrong with the whole. -/
theorem Answers.andThen {part whole : Read Data} (h : Answers fits item tail part)
    (hok : part = .ok (item, tail) → Answers fits' d rest whole) (herror : ∀ e, part = .error e → whole = .error e) :
    Answers (fits ∧ fits') d rest whole := by
  by_cases hfits : fits
  · have hwhole := hok (h.of_fits hfits)
    exact ⟨fun hboth => hwhole.of_fits hboth.2, fun hno => hwhole.of_not_fits fun hfits' => hno ⟨hfits, hfits'⟩⟩
  · obtain ⟨fault, hfault⟩ := h.of_not_fits hfits
    rw [herror _ hfault]
    exact .fault (fun hboth => hfits hboth.1) _ _ _

theorem Answers.ending {part whole : Read Data} (h : Answers fits item tail part)
    (hok : part = .ok (item, tail) → whole = .ok (d, rest)) (herror : ∀ e, part = .error e → whole = .error e) :
    Answers fits d rest whole := by
  have hwhole : Answers (fits ∧ True) d rest whole := h.andThen (fun hpart => hok hpart ▸ .ok trivial d rest) herror
  rwa [and_true] at hwhole

theorem Answers.items_last (done : List Data) (hskip : skipBlanks tail = ']' :: rest)
    (h : Answers fits item tail (value fuel depth text)) :
    Answers fits (.list (item :: done).reverse) rest (items (fuel + 1) depth done text) := by
  refine h.ending (fun hvalue => ?_) fun e hvalue => ?_
  · rw [items, hvalue]
    dsimp only
    rw [hskip]
    rfl
  · rw [items, hvalue]

theorem Answers.items_more {done : List Data} {more : List Char} (hskip : skipBlanks tail = ',' :: more)
    (h : Answers fits item tail (value fuel depth text))
    (hmore : Answers fits' d rest (items fuel depth (item :: done) (skipBlanks more))) :
    Answers (fits ∧ fits') d rest (items (fuel + 1) depth done text) := by
  refine h.andThen (fun hvalue => ?_) fun e hvalue => ?_
  · rw [items, hvalue]
    dsimp only
    rw [hskip]
    exact hmore
  · rw [items, hvalue]

variable {after later more : List Char} (done : List (Data × Data)) (key : Quoted)

theorem members_key (hcolon : skipBlanks tail = ':' :: later) :
    members (fuel + 1) depth done (key.text ++ tail) =
      match value fuel depth (skipBlanks later) with
      | .error e => .error e
      | .ok (item, rest) =>
        let done := (ofCodes key.codes, item) :: done
        match skipBlanks rest with
        | '}' :: rest => .ok (.table (Data.collect done.reverse), rest)
        | ',' :: rest => members fuel depth done (skipBlanks rest)
        | _ => .error .malformed := by
  rw [Quoted.text, List.cons_append, List.append_assoc, List.singleton_append, members, textCodes_quoted]
  dsimp only
  rw [hcolon]
  rfl

theorem Answers.members_last (hcolon : skipBlanks tail = ':' :: later) (hskip : skipBlanks after = '}' :: rest)
    (h : Answers fits item after (value fuel depth (skipBlanks later))) :
    Answers fits (.table (Data.collect ((ofCodes key.codes, item) :: done).reverse)) rest
      (members (fuel + 1) depth done (key.text ++ tail)) := by
  refine h.ending (fun hvalue => ?_) fun e hvalue => ?_
  · rw [members_key done key hcolon, hvalue]
    dsimp only
    rw [hskip]
    rfl
  · rw [members_key done key hcolon, hvalue]

theorem Answers.members_more (hcolon : skipBlanks tail = ':' :: later) (hskip : skipBlanks after = ',' :: more)
    (h : Answers fits item after (value fuel depth (skipBlanks later)))
    (hmore : Answers fits' d rest (members fuel depth ((ofCodes key.codes, item) :: done) (skipBlanks more))) :
    Answers (fits ∧ fits') d rest (members (fuel + 1) depth done (key.text ++ tail)) := by
  refine h.andThen (fun hvalue => ?_) fun e hvalue => ?_
  · rw [members_key done key hcolon, hvalue]
    dsimp only
    rw [hskip]
    exact hmore
  · rw [members_key done key hcolon, hvalue]

end

theorem Tree.text_ne_nil (t : Tree) : t.text ≠ [] := by
  cases t with
  | number n =>
    intro hnil
    have hwhole := List.append_eq_nil_iff.mp (List.append_eq_nil_iff.mp hnil).2
    exact n.whole.2.1 hwhole.1
  | bool b =>
    cases b
    · exact List.cons_ne_nil _ _
    · exact List.cons_ne_nil _ _
  | infinity negative =>
    cases negative
    · exact List.cons_ne_nil _ _
    · exact List.cons_ne_nil _ _
  | _ => exact List.cons_ne_nil _ _

theorem answers_word {word : List Char} {d : Data} {fuel depth : Nat}
    (hscalar : value (fuel + 1) depth (word ++ rest) = scalar (word ++ rest))
    (hfind : words.find? (fun (name, _) => name.isPrefixOf (word ++ rest)) = some (word, d)) :
    Answers True d rest (value (fuel + 1) depth (word ++ rest)) := by
  rw [hscalar, scalar_append hfind]
  exact .ok trivial d rest

mutual

theorem Tree.answers (t : Tree) (fuel depth : Nat) (rest : List Char) (hfuel : t.text.length ≤ fuel) (h : Ends rest) :
    Answers (t.Fits depth) t.value rest (value fuel depth (t.text ++ rest)) := by
  match t, fuel, depth with
  | t, 0, _ => exact absurd (List.eq_nil_of_length_eq_zero (Nat.le_zero.mp hfuel)) t.text_ne_nil
  | .null, fuel + 1, depth => exact answers_word (value_eq_scalar fuel depth (by decide) (by decide) (by decide)) rfl
  | .bool true, fuel + 1, depth =>
    exact answers_word (value_eq_scalar fuel depth (by decide) (by decide) (by decide)) rfl
  | .bool false, fuel + 1, depth =>
    exact answers_word (value_eq_scalar fuel depth (by decide) (by decide) (by decide)) rfl
  | .nan, fuel + 1, depth => exact answers_word (value_eq_scalar fuel depth (by decide) (by decide) (by decide)) rfl
  | .infinity true, fuel + 1, depth =>
    exact answers_word (value_eq_scalar fuel depth (by decide) (by decide) (by decide)) rfl
  | .infinity false, fuel + 1, depth =>
    exact answers_word (value_eq_scalar fuel depth (by decide) (by decide) (by decide)) rfl
  | .number n, fuel + 1, depth => exact n.answers_value fuel depth h
  | .quoted q, fuel + 1, depth =>
    rw [Tree.text, Quoted.text, List.cons_append, List.append_assoc, List.singleton_append, value, textCodes_quoted]
    exact .ok trivial _ rest
  | .emptyList gap, fuel + 1, 0 => exact .fault (Nat.lt_irrefl 0) _ _ _
  | .emptyList gap, fuel + 1, depth + 1 =>
    rw [Tree.text, List.cons_append, List.append_assoc, List.singleton_append, value, skipBlanks_cons gap rfl]
    exact .ok (Nat.succ_pos depth) _ rest
  | .list before l, fuel + 1, 0 => exact .fault id _ _ _
  | .list before l, fuel + 1, depth + 1 =>
    rw [Tree.text, List.cons_append, List.append_assoc,
      value_list (l.skipBlanks_text before rest) fun c hc => (l.head_text c hc).2]
    refine l.answers fuel depth [] rest ?_
    rw [Tree.text, List.length_cons, List.length_append] at hfuel
    omega
  | .emptyTable gap, fuel + 1, 0 => exact .fault (Nat.lt_irrefl 0) _ _ _
  | .emptyTable gap, fuel + 1, depth + 1 =>
    rw [Tree.text, List.cons_append, List.append_assoc, List.singleton_append, value, skipBlanks_cons gap rfl]
    exact .ok (Nat.succ_pos depth) _ rest
  | .table before l, fuel + 1, 0 => exact .fault id _ _ _
  | .table before l, fuel + 1, depth + 1 =>
    rw [Tree.text, List.cons_append, List.append_assoc, value_table (l.skipBlanks_text before rest) l.head_text]
    refine l.answers fuel depth [] rest ?_
    rw [Tree.text, List.length_cons, List.length_append] at hfuel
    omega

theorem Items.answers (l : Items) (fuel depth : Nat) (done : List Data) (rest : List Char)
    (hfuel : l.text.length ≤ fuel) :
    Answers (l.Fits depth) (.list (done.reverse ++ l.values)) rest (items fuel depth done (l.text ++ rest)) := by
  match l, fuel with
  | .last item after, 0 => simp [Items.text] at hfuel
  | .last item after, fuel + 1 =>
    simp only [Items.text, List.length_append, List.length_cons] at hfuel
    have hitem := item.answers fuel depth (after.1 ++ ']' :: rest) (by omega) (ends_cons after (by decide) rest)
    have hlist := Answers.items_last done (skipBlanks_cons after rfl rest) hitem
    rw [List.reverse_cons] at hlist
    simp only [Items.text, List.append_assoc, List.cons_append, List.nil_append]
    exact hlist
  | .more item after before l, 0 => simp [Items.text] at hfuel
  | .more item after before l, fuel + 1 =>
    simp only [Items.text, List.length_append, List.length_cons] at hfuel
    have hitem := item.answers fuel depth (after.1 ++ ',' :: (before.1 ++ (l.text ++ rest))) (by omega)
      (ends_cons after (by decide) _)
    have hitems := l.answers fuel depth (item.value :: done) rest (by omega)
    rw [List.reverse_cons, List.append_assoc, List.singleton_append, ← l.skipBlanks_text before rest] at hitems
    have hlist := Answers.items_more (skipBlanks_cons after rfl _) hitem hitems
    simp only [Items.text, List.append_assoc, List.cons_append]
    exact hlist

theorem Members.answers (l : Members) (fuel depth : Nat) (done : List (Data × Data)) (rest : List Char)
    (hfuel : l.text.length ≤ fuel) :
    Answers (l.Fits depth) (.table (Data.collect (done.reverse ++ l.entries))) rest
      (members fuel depth done (l.text ++ rest)) := by
  match l, fuel with
  | .last key afterKey before item after, 0 => simp [Members.text] at hfuel
  | .last key afterKey before item after, fuel + 1 =>
    simp only [Members.text, List.length_append, List.length_cons] at hfuel
    have hitem := item.answers fuel depth (after.1 ++ '}' :: rest) (by omega) (ends_cons after (by decide) rest)
    rw [← item.skipBlanks_text before] at hitem
    have htable := Answers.members_last done key (skipBlanks_cons afterKey rfl _) (skipBlanks_cons after rfl rest) hitem
    rw [List.reverse_cons] at htable
    simp only [Members.text, List.append_assoc, List.cons_append, List.nil_append]
    exact htable
  | .more key afterKey before item after between l, 0 => simp [Members.text] at hfuel
  | .more key afterKey before item after between l, fuel + 1 =>
    simp only [Members.text, List.length_append, List.length_cons] at hfuel
    have hitem := item.answers fuel depth (after.1 ++ ',' :: (between.1 ++ (l.text ++ rest))) (by omega)
      (ends_cons after (by decide) _)
    have hmembers := l.answers fuel depth ((ofCodes key.codes, item.value) :: done) rest (by omega)
    rw [← item.skipBlanks_text before] at hitem
    rw [List.reverse_cons, List.append_assoc, List.singleton_append, ← l.skipBlanks_text between rest] at hmembers
    have htable := Answers.members_more done key (skipBlanks_cons afterKey rfl _) (skipBlanks_cons after rfl _) hitem hmembers
    simp only [Members.text, List.append_assoc, List.cons_append]
    exact htable

end

/-! ## Reading documents -/

namespace Document

variable (d : Document)

theorem answers : Answers d.Fits d.value d.after.1
    (Json.value (d.text.length + 1) Fault.maxNesting (skipBlanks d.text)) := by
  have hends : Ends d.after.1 := by
    have hnil : Ends (d.after.1 ++ []) := ends_append d.after (by rintro c ⟨⟩)
    rwa [List.append_nil] at hnil
  have hlength : d.tree.text.length ≤ d.text.length + 1 := by
    rw [text, List.length_append, List.length_append]
    omega
  have hskip : skipBlanks d.text = d.tree.text ++ d.after.1 := d.tree.skipBlanks_text d.before d.after.1
  rw [hskip]
  exact d.tree.answers _ _ _ hlength hends

theorem read_of_fits (h : d.Fits) : Json.read d.text = .ok d.value := by
  have hskip : skipBlanks d.after.1 = [] := by
    have hnil : skipBlanks (d.after.1 ++ []) = [] := skipBlanks_append d.after (by rintro c ⟨⟩)
    rwa [List.append_nil] at hnil
  rw [Json.read, d.answers.of_fits h]
  dsimp only
  rw [hskip]
  rfl

theorem exists_fault_of_not_fits (h : ¬ d.Fits) : ∃ fault, Json.read d.text = .error (.fault fault) := by
  obtain ⟨fault, hfault⟩ := d.answers.of_not_fits h
  refine ⟨fault, ?_⟩
  rw [Json.read, hfault]

end Document

end Json

end CodeCensus
