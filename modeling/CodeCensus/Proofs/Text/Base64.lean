import CodeCensus.Text.Base64

/-! Base64 written out, and that reading it gives the bytes back, whatever stands between its
characters. -/

namespace CodeCensus.Text.Base64

/-- The character of the alphabet that stands for six bits. -/
def digit (v : Nat) : Char :=
  if v < 26 then Char.ofNat (v + 65)
  else if v < 52 then Char.ofNat (v + 71)
  else if v < 62 then Char.ofNat (v - 4)
  else if v == 62 then '+'
  else '/'

/-- Three bytes as four characters, the last of which are padding where bytes are missing. -/
def encode : List UInt8 → List Char
  | [] => []
  | [a] => [digit (a.toNat / 4), digit (a.toNat % 4 * 16), '=', '=']
  | [a, b] => [
    digit (a.toNat / 4), digit (a.toNat % 4 * 16 + b.toNat / 16), digit (b.toNat % 16 * 4), '=']
  | a :: b :: c :: rest =>
    digit (a.toNat / 4) :: digit (a.toNat % 4 * 16 + b.toNat / 16) ::
      digit (b.toNat % 16 * 4 + c.toNat / 64) :: digit (c.toNat % 64) :: encode rest

/-- Whether a character carries data or pads. -/
def isData (c : Char) : Bool := (value? c).isSome || c == '='

/-- A text is base64 for bytes if it is that without the characters that count for nothing. -/
def Spells (text : List Char) (bytes : List UInt8) : Prop :=
  (∀ c ∈ text, c.toNat < 128) ∧ text.filter isData = encode bytes

/-- The characters of the alphabet stand for their six bits, and none of them is the padding. -/
theorem digit_spec : ∀ v < 64, value? (digit v) = some v ∧ (digit v == '=') = false ∧ (digit v).toNat < 128 := by
  decide +kernel

theorem value?_digit {v : Nat} (h : v < 64) : value? (digit v) = some v := (digit_spec v h).1

theorem digit_ne_pad {v : Nat} (h : v < 64) : (digit v == '=') = false := (digit_spec v h).2.1

theorem decodeFrom_filter (place left pads : Nat) (done : List UInt8) (text : List Char) :
    decodeFrom place left pads done text =
      decodeFrom place left pads done (text.filter isData) := by
  induction text generalizing place left pads done with
  | nil => rfl
  | cons c rest ih =>
    -- a pad counts, a digit counts, and anything else leaves the state as it is
    by_cases hpad : (c == '=') = true
    · have hdata : isData c = true := by simp [isData, hpad]
      rw [List.filter_cons_of_pos hdata, decodeFrom, decodeFrom]
      simp only [hpad, if_true, ← ih]
    · cases hvalue : value? c with
      | none =>
        have hdata : ¬ isData c = true := by simpa [isData, hvalue] using hpad
        rw [List.filter_cons_of_neg hdata, decodeFrom]
        simp only [hpad, hvalue, ← ih]
        rfl
      | some v =>
        have hdata : isData c = true := by simp [isData, hvalue]
        rw [List.filter_cons_of_pos hdata, decodeFrom, decodeFrom]
        simp only [hvalue, ← ih]

section digits

variable {v : Nat} (left pads : Nat) (done : List UInt8) (rest : List Char)

theorem decodeFrom_digit (place : Nat) (h : v < 64) :
    decodeFrom place left pads done (digit v :: rest) =
      match place with
      | 0 => decodeFrom 1 v 0 done rest
      | 1 => decodeFrom 2 (v % 16) 0 (UInt8.ofNat (left * 4 + v / 16) :: done) rest
      | 2 => decodeFrom 3 (v % 4) 0 (UInt8.ofNat (left * 16 + v / 4) :: done) rest
      | _ => decodeFrom 0 0 0 (UInt8.ofNat (left * 64 + v) :: done) rest := by
  rw [decodeFrom, digit_ne_pad h, value?_digit h]
  rfl

theorem decodeFrom_first (h : v < 64) :
    decodeFrom 0 left pads done (digit v :: rest) = decodeFrom 1 v 0 done rest :=
  decodeFrom_digit left pads done rest 0 h

theorem decodeFrom_second (h : v < 64) :
    decodeFrom 1 left pads done (digit v :: rest) =
      decodeFrom 2 (v % 16) 0 (UInt8.ofNat (left * 4 + v / 16) :: done) rest :=
  decodeFrom_digit left pads done rest 1 h

theorem decodeFrom_third (h : v < 64) :
    decodeFrom 2 left pads done (digit v :: rest) =
      decodeFrom 3 (v % 4) 0 (UInt8.ofNat (left * 16 + v / 4) :: done) rest :=
  decodeFrom_digit left pads done rest 2 h

theorem decodeFrom_fourth (h : v < 64) :
    decodeFrom 3 left pads done (digit v :: rest) =
      decodeFrom 0 0 0 (UInt8.ofNat (left * 64 + v) :: done) rest :=
  decodeFrom_digit left pads done rest 3 h

end digits

theorem ofNat_eq {n : Nat} {b : UInt8} (h : n = b.toNat) : UInt8.ofNat n = b := by
  rw [h, UInt8.ofNat_toNat]

theorem decodeFrom_encode (done bytes : List UInt8) :
    decodeFrom 0 0 0 done (encode bytes) = .ok (done.reverse ++ bytes) := by
  induction bytes using encode.induct generalizing done with
  | case1 => simp [encode, decodeFrom]
  | case2 a =>
    have ha := a.toNat_lt
    have h : UInt8.ofNat (a.toNat / 4 * 4 + a.toNat % 4 * 16 / 16) = a := ofNat_eq (by omega)
    rw [encode, decodeFrom_first _ _ _ _ (by omega), decodeFrom_second _ _ _ _ (by omega), h]
    simp [decodeFrom]
  | case3 a b =>
    have ha := a.toNat_lt
    have hb := b.toNat_lt
    have h : UInt8.ofNat (a.toNat / 4 * 4 + (a.toNat % 4 * 16 + b.toNat / 16) / 16) = a :=
      ofNat_eq (by omega)
    have h' :
        UInt8.ofNat ((a.toNat % 4 * 16 + b.toNat / 16) % 16 * 16 + b.toNat % 16 * 4 / 4) = b :=
      ofNat_eq (by omega)
    rw [encode, decodeFrom_first _ _ _ _ (by omega), decodeFrom_second _ _ _ _ (by omega),
      decodeFrom_third _ _ _ _ (by omega), h, h']
    simp [decodeFrom]
  | case4 a b c rest ih =>
    have ha := a.toNat_lt
    have hb := b.toNat_lt
    have hc := c.toNat_lt
    have h : UInt8.ofNat (a.toNat / 4 * 4 + (a.toNat % 4 * 16 + b.toNat / 16) / 16) = a :=
      ofNat_eq (by omega)
    have h' : UInt8.ofNat ((a.toNat % 4 * 16 + b.toNat / 16) % 16 * 16 +
        (b.toNat % 16 * 4 + c.toNat / 64) / 4) = b :=
      ofNat_eq (by omega)
    have h'' : UInt8.ofNat ((b.toNat % 16 * 4 + c.toNat / 64) % 4 * 64 + c.toNat % 64) = c :=
      ofNat_eq (by omega)
    rw [encode, decodeFrom_first _ _ _ _ (by omega), decodeFrom_second _ _ _ _ (by omega),
      decodeFrom_third _ _ _ _ (by omega), decodeFrom_fourth _ _ _ _ (by omega), h, h', h'', ih]
    simp

theorem isData_digit {v : Nat} (h : v < 64) : isData (digit v) = true ∧ (digit v).toNat < 128 := by
  refine ⟨?_, (digit_spec v h).2.2⟩
  rw [isData, value?_digit h]
  rfl

theorem isData_of_mem_encode {bytes : List UInt8} :
    ∀ c ∈ encode bytes, isData c = true ∧ c.toNat < 128 := by
  have hpad : isData '=' = true ∧ '='.toNat < 128 := by decide
  induction bytes using encode.induct with
  | case1 => simp [encode]
  | case2 a =>
    have ha := a.toNat_lt
    simp only [encode, List.forall_mem_cons]
    exact ⟨isData_digit (by omega), isData_digit (by omega), hpad, hpad, by simp⟩
  | case3 a b =>
    have ha := a.toNat_lt
    have hb := b.toNat_lt
    simp only [encode, List.forall_mem_cons]
    exact ⟨isData_digit (by omega), isData_digit (by omega), isData_digit (by omega), hpad, by simp⟩
  | case4 a b c rest ih =>
    have ha := a.toNat_lt
    have hb := b.toNat_lt
    have hc := c.toNat_lt
    simp only [encode, List.forall_mem_cons]
    exact ⟨isData_digit (by omega), isData_digit (by omega), isData_digit (by omega),
      isData_digit (by omega), ih⟩

theorem spells_encode (bytes : List UInt8) : Spells (encode bytes) bytes :=
  ⟨fun c hc => (isData_of_mem_encode c hc).2,
    List.filter_eq_self.mpr fun c hc => (isData_of_mem_encode c hc).1⟩

/-- Reading base64 gives back the bytes that were written. -/
theorem decode_of_spells {text : List Char} {bytes : List UInt8} (h : Spells text bytes) :
    decode text = .ok bytes := by
  have hascii : (text.all fun c => c.toNat < 128) = true := by simpa using h.1
  rw [decode, if_pos hascii, decodeFrom_filter, h.2, decodeFrom_encode]
  rfl

/-- A text is base64 for bytes with line feeds and carriage returns put in anywhere. -/
def Wraps (text : List Char) (bytes : List UInt8) : Prop :=
  (text.filter fun c => c != '\n' && c != '\r') = encode bytes

theorem Wraps.spells {text : List Char} {bytes : List UInt8} (h : Wraps text bytes) : Spells text bytes := by
  have hbreak {c : Char} (hc : isData c = true) : (c != '\n' && c != '\r') = true := by
    rw [Bool.and_eq_true, bne_iff_ne, bne_iff_ne]
    constructor <;> rintro rfl <;> exact absurd hc (by decide)
  refine ⟨fun c hc => ?_, ?_⟩
  · by_cases hkept : (c != '\n' && c != '\r') = true
    · exact (isData_of_mem_encode c (h ▸ List.mem_filter.mpr ⟨hc, hkept⟩)).2
    · by_cases hfeed : c = '\n'
      · exact hfeed ▸ by decide
      · obtain rfl : c = '\r' := by simpa [hfeed] using hkept
        decide
  · have hboth : text.filter isData = (text.filter fun c => c != '\n' && c != '\r').filter isData := by
      rw [List.filter_filter]
      refine List.filter_congr fun c _ => ?_
      cases hc : isData c with
      | false => rfl
      | true => exact (hbreak hc).symm
    rw [hboth, h, (spells_encode bytes).2]

example : String.ofList (encode [0x61, 0x0D, 0x0A, 0x62]) = "YQ0KYg==" := by decide +kernel

end CodeCensus.Text.Base64
