import CodeCensus.Text.Utf8

/-! The ASCII characters of a decoded text are the bytes below 128 that it was read from: neither a
character of several bytes nor what stands for ill-formed ones is taken for one of them. What is written in UTF-8 is
read as it was written, also where other bytes stand before or behind it. -/

namespace CodeCensus.Text.Utf8

/-- A character begun will stand for more than seven bits. -/
def Pending.IsWide (p : Pending) : Prop :=
  0x80 ≤ p.low ∧ (p.missing = 1 ∧ 2 ≤ p.bits ∨ p.missing = 2 ∧ (1 ≤ p.bits ∨ 0xA0 ≤ p.low) ∨
    p.missing = 3 ∧ (1 ≤ p.bits ∨ 0x90 ≤ p.low))

theorem lead?_cases {b : Nat} {p : Pending} (h : lead? b = some p) :
    (0xC2 ≤ b ∧ b < 0xE0 ∧ p = ⟨1, 0x80, 0xBF, b - 0xC0⟩) ∨
      (0xE0 ≤ b ∧ b < 0xF0 ∧
        p = ⟨2, if b == 0xE0 then 0xA0 else 0x80, if b == 0xED then 0x9F else 0xBF, b - 0xE0⟩) ∨
      (0xF0 ≤ b ∧ b < 0xF5 ∧
        p = ⟨3, if b == 0xF0 then 0x90 else 0x80, if b == 0xF4 then 0x8F else 0xBF, b - 0xF0⟩) := by
  rw [lead?] at h
  split at h
  · cases h
  · rename_i hlow
    split at h
    · exact .inl ⟨Nat.le_of_not_lt hlow, ‹_›, (Option.some.inj h).symm⟩
    · rename_i htwo
      split at h
      · exact .inr (.inl ⟨Nat.le_of_not_lt htwo, ‹_›, (Option.some.inj h).symm⟩)
      · rename_i hthree
        split at h
        · exact .inr (.inr ⟨Nat.le_of_not_lt hthree, ‹_›, (Option.some.inj h).symm⟩)
        · cases h

theorem isWide_of_lead? {b : Nat} {p : Pending} (h : lead? b = some p) : p.IsWide := by
  rcases lead?_cases h with ⟨hb, -, rfl⟩ | ⟨hb, -, rfl⟩ | ⟨hb, -, rfl⟩
  · exact ⟨Nat.le_refl _, .inl ⟨rfl, by dsimp only; omega⟩⟩
  · by_cases hfirst : b = 0xE0
    · exact ⟨by simp [hfirst], .inr (.inl ⟨rfl, .inr (by simp [hfirst])⟩)⟩
    · exact ⟨by simp [hfirst], .inr (.inl ⟨rfl, .inl (by dsimp only; omega)⟩)⟩
  · by_cases hfirst : b = 0xF0
    · exact ⟨by simp [hfirst], .inr (.inr ⟨rfl, .inr (by simp [hfirst])⟩)⟩
    · exact ⟨by simp [hfirst], .inr (.inr ⟨rfl, .inl (by dsimp only; omega)⟩)⟩

theorem Pending.IsWide.next {p : Pending} (hp : p.IsWide) {b : Nat} (hb : p.low ≤ b)
    (hmissing : ¬ p.missing ≤ 1) :
    Pending.IsWide ⟨p.missing - 1, 0x80, 0xBF, p.bits * 64 + (b - 0x80)⟩ := by
  obtain ⟨hlow, h⟩ := hp
  refine ⟨Nat.le_refl _, ?_⟩
  dsimp only
  omega

theorem Pending.IsWide.bits_le {p : Pending} (hp : p.IsWide) (b : Nat) (hmissing : p.missing ≤ 1) :
    0x80 ≤ p.bits * 64 + (b - 0x80) := by
  obtain ⟨hlow, h⟩ := hp
  omega

def State.IsWide (s : State) : Prop := ∀ p ∈ s.pending, p.IsWide

theorem toNat_ofNat (n : Nat) : (Char.ofNat n).toNat = if n.isValidChar then n else 0 := by
  unfold Char.ofNat
  -- a number that is no character is read as the null
  by_cases h : n.isValidChar
  · rw [dif_pos h, if_pos h]
    rfl
  · rw [dif_neg h, if_neg h]
    rfl

section ascii

variable {b : UInt8} (hpos : 0 < b.toNat) (hascii : b.toNat < 0x80)
include hpos hascii

theorem ofNat_eq_iff {n : Nat} : Char.ofNat n = Char.ofNat b.toNat ↔ n = b.toNat := by
  refine ⟨fun h => ?_, fun h => congrArg Char.ofNat h⟩
  have hvalid : b.toNat.isValidChar := .inl (by omega)
  have heq := congrArg Char.toNat h
  rw [toNat_ofNat, toNat_ofNat, if_pos hvalid] at heq
  split at heq
  · exact heq
  · omega

theorem start_isWide_and_mem (done : List (Option Char)) (byte : UInt8) :
    (State.start done byte.toNat).IsWide ∧
      (some (Char.ofNat b.toNat) ∈ (State.start done byte.toNat).done ↔
        some (Char.ofNat b.toNat) ∈ done ∨ byte = b) := by
  have hne : 0x80 ≤ byte.toNat → byte ≠ b := by
    rintro h rfl
    omega
  rw [State.start]
  split
  · refine ⟨fun p hp => absurd hp (by simp), ?_⟩
    simp only [List.mem_cons, Option.some.injEq]
    rw [eq_comm, ofNat_eq_iff hpos hascii, UInt8.toNat_inj, or_comm]
  · have hbyte := hne (by omega)
    split
    · rename_i p hp
      refine ⟨fun q hq => ?_, by simp [hbyte]⟩
      obtain rfl : p = q := by simpa using hq
      exact isWide_of_lead? hp
    · exact ⟨fun p hp => absurd hp (by simp), by simp [hbyte]⟩

theorem step_isWide_and_mem {s : State} (hs : s.IsWide) (byte : UInt8) :
    (s.step byte).IsWide ∧
      (some (Char.ofNat b.toNat) ∈ (s.step byte).done ↔
        some (Char.ofNat b.toNat) ∈ s.done ∨ byte = b) := by
  rw [State.step]
  dsimp only
  split
  · exact start_isWide_and_mem hpos hascii s.done byte
  · rename_i p hp
    have hwide : p.IsWide := hs p hp
    split
    -- a byte in the range goes on with a wide character, one outside it begins anew
    · rename_i hrange
      have hlow : p.low ≤ byte.toNat := by simp_all
      have hbyte : byte ≠ b := by
        rintro rfl
        have := hwide.1
        omega
      split
      · rename_i hlast
        have hbits := hwide.bits_le byte.toNat hlast
        have hother : ¬ Char.ofNat b.toNat = Char.ofNat (p.bits * 64 + (byte.toNat - 0x80)) := by
          rw [eq_comm, ofNat_eq_iff hpos hascii]
          omega
        exact ⟨fun q hq => absurd hq (by simp), by simp [hbyte, hother]⟩
      · rename_i hmore
        refine ⟨fun q hq => ?_, by simp [hbyte]⟩
        obtain rfl := Option.some.inj hq
        exact hwide.next hlow hmore
    · obtain ⟨hstart, hmem⟩ := start_isWide_and_mem hpos hascii (none :: s.done) byte
      exact ⟨hstart, by simpa using hmem⟩

theorem mem_foldl_step {s : State} (hs : s.IsWide) (bytes : List UInt8) :
    some (Char.ofNat b.toNat) ∈ (bytes.foldl State.step s).done ↔
      some (Char.ofNat b.toNat) ∈ s.done ∨ b ∈ bytes := by
  induction bytes generalizing s with
  | nil => simp
  | cons byte bytes ih =>
    obtain ⟨hwide, hmem⟩ := step_isWide_and_mem hpos hascii hs byte
    rw [List.foldl_cons, ih hwide, hmem, List.mem_cons, or_assoc, eq_comm]

/-- An ASCII character other than the null stands in a text exactly if its byte is read. -/
theorem mem_decode {bytes : List UInt8} : Char.ofNat b.toNat ∈ decode bytes ↔ b ∈ bytes := by
  have hstart : State.IsWide ⟨[], none⟩ := fun p hp => absurd hp (by simp)
  have hread : some (Char.ofNat b.toNat) ∈ read bytes ↔ b ∈ bytes := by
    have hmem := mem_foldl_step hpos hascii hstart bytes
    rw [read]
    split <;> simpa using hmem
  have hother : ¬ replacement = Char.ofNat b.toNat := by
    intro h
    have := (ofNat_eq_iff (n := 0xFFFD) hpos hascii).mp h
    omega
  rw [decode, List.mem_map, ← hread]
  constructor
  · rintro ⟨c, hc, h⟩
    cases c with
    | none => exact absurd h hother
    | some c =>
      obtain rfl : c = Char.ofNat b.toNat := h
      exact hc
  · exact fun h => ⟨_, h, rfl⟩

end ascii

/-! ## Well-formed text among other bytes -/

/-- What has been read if nothing follows. -/
def State.closed (s : State) : List (Option Char) := if s.pending.isSome then none :: s.done else s.done

theorem read_eq (bytes : List UInt8) : read bytes = (bytes.foldl State.step ⟨[], none⟩).closed.reverse := rfl

/-- Only a byte between 0x80 and 0xBF goes on with the character begun. -/
def State.IsBounded (s : State) : Prop := ∀ p ∈ s.pending, 0x80 ≤ p.low ∧ p.high ≤ 0xBF

theorem State.isBounded_none (done : List (Option Char)) : State.IsBounded ⟨done, none⟩ :=
  fun _ hp => absurd hp (by simp)

theorem isBounded_of_lead? {b : Nat} {p : Pending} (h : lead? b = some p) : 0x80 ≤ p.low ∧ p.high ≤ 0xBF := by
  rcases lead?_cases h with ⟨-, -, rfl⟩ | ⟨-, -, rfl⟩ | ⟨-, -, rfl⟩
  · exact ⟨Nat.le_refl _, Nat.le_refl _⟩
  all_goals constructor <;> dsimp only <;> split <;> omega

theorem State.start_isBounded (done : List (Option Char)) (b : Nat) : (State.start done b).IsBounded := by
  rw [start]
  split
  · exact isBounded_none _
  · split
    · rename_i p hp
      exact fun q hq => isBounded_of_lead? (hp.trans hq)
    · exact isBounded_none _

theorem State.step_isBounded (s : State) (byte : UInt8) : (s.step byte).IsBounded := by
  rw [State.step]
  dsimp only
  split
  · exact start_isBounded s.done byte.toNat
  · split
    · split
      · exact isBounded_none _
      · intro q hq
        obtain rfl := Option.some.inj hq
        exact ⟨Nat.le_refl _, Nat.le_refl _⟩
    · exact start_isBounded _ byte.toNat

theorem State.IsBounded.foldl_step {s : State} (hs : s.IsBounded) (bytes : List UInt8) :
    (bytes.foldl State.step s).IsBounded := by
  induction bytes generalizing s with
  | nil => exact hs
  | cons byte bytes ih => exact ih (s.step_isBounded byte)

/-- A byte that goes on with no character begins one, and what was begun before is given up. -/
theorem State.IsBounded.step_eq {s : State} (hs : s.IsBounded) {byte : UInt8}
    (h : byte.toNat < 0x80 ∨ 0xC0 ≤ byte.toNat) : s.step byte = State.start s.closed byte.toNat := by
  obtain ⟨done, pending⟩ := s
  cases pending with
  | none => rfl
  | some p =>
    obtain ⟨hlow, hhigh⟩ := hs p rfl
    have houtside : ¬ (p.low ≤ byte.toNat && byte.toNat ≤ p.high) = true := by
      rw [Bool.and_eq_true, decide_eq_true_iff, decide_eq_true_iff]
      omega
    rw [State.step]
    dsimp only
    rw [if_neg houtside]
    rfl

/-! ### The bytes of one character -/

section lead

variable {n : Nat}

theorem lead?_two (h : 2 ≤ n) (h' : n < 32) : lead? (n + 192) = some ⟨1, 0x80, 0xBF, n⟩ := by
  rw [lead?, if_neg (by omega), if_pos (by omega), Nat.add_sub_cancel]

theorem lead?_three (h : n < 16) : lead? (n + 224) =
    some ⟨2, if n = 0 then 0xA0 else 0x80, if n = 13 then 0x9F else 0xBF, n⟩ := by
  rw [lead?, if_neg (by omega), if_neg (by omega), if_pos (by omega), Nat.add_sub_cancel]
  simp

theorem lead?_four (h : n < 5) : lead? (n + 240) =
    some ⟨3, if n = 0 then 0x90 else 0x80, if n = 4 then 0x8F else 0xBF, n⟩ := by
  rw [lead?, if_neg (by omega), if_neg (by omega), if_neg (by omega), if_pos (by omega), Nat.add_sub_cancel]
  simp

end lead

section next

variable {done : List (Option Char)} {p : Pending} {n : Nat} (hn : n < 128) (hlow : p.low ≤ n + 128) (hhigh : n + 128 ≤ p.high)
include hn hlow hhigh

theorem step_next : State.step ⟨done, some p⟩ (UInt8.ofNat (n + 128)) =
    if p.missing ≤ 1 then ⟨some (Char.ofNat (p.bits * 64 + n)) :: done, none⟩
    else ⟨done, some ⟨p.missing - 1, 0x80, 0xBF, p.bits * 64 + n⟩⟩ := by
  have hbyte : (UInt8.ofNat (n + 128)).toNat = n + 128 := Nat.mod_eq_of_lt (by omega)
  have hinside : (p.low ≤ n + 128 && n + 128 ≤ p.high) = true := by simpa using ⟨hlow, hhigh⟩
  rw [State.step, hbyte]
  dsimp only
  rw [if_pos hinside, Nat.add_sub_cancel]

theorem step_last (hmissing : p.missing ≤ 1) : State.step ⟨done, some p⟩ (UInt8.ofNat (n + 128)) =
    ⟨some (Char.ofNat (p.bits * 64 + n)) :: done, none⟩ := by
  rw [step_next hn hlow hhigh, if_pos hmissing]

theorem step_more (hmissing : 1 < p.missing) : State.step ⟨done, some p⟩ (UInt8.ofNat (n + 128)) =
    ⟨done, some ⟨p.missing - 1, 0x80, 0xBF, p.bits * 64 + n⟩⟩ := by
  rw [step_next hn hlow hhigh, if_neg (Nat.not_le.mpr hmissing)]

end next

theorem State.IsBounded.step_lead {s : State} (hs : s.IsBounded) {b : Nat} {p : Pending} (hb : 0xC0 ≤ b) (hb' : b < 256)
    (hp : lead? b = some p) : s.step (UInt8.ofNat b) = ⟨s.closed, some p⟩ := by
  have hbyte : (UInt8.ofNat b).toNat = b := Nat.mod_eq_of_lt hb'
  rw [hs.step_eq (.inr (by rwa [hbyte])), hbyte, State.start, if_neg (by omega), hp]

/-- From any state, the bytes of a character are read as that character. -/
theorem State.IsBounded.foldl_encodeChar {s : State} (hs : s.IsBounded) (c : Char) :
    (String.utf8EncodeChar c).foldl State.step s = ⟨some c :: s.closed, none⟩ := by
  have hvalid : c.toNat < 55296 ∨ 57343 < c.toNat ∧ c.toNat < 1114112 := c.valid
  have hlast {n : Nat} (h : n = c.toNat) : (⟨some (Char.ofNat n) :: s.closed, none⟩ : State) = ⟨some c :: s.closed, none⟩ := by
    rw [h, Char.ofNat_toNat]
  rw [String.utf8EncodeChar]
  simp only [Char.toNat_val]
  split
  · have hbyte : (UInt8.ofNat c.toNat).toNat = c.toNat := Nat.mod_eq_of_lt (by omega)
    rw [List.foldl_cons, List.foldl_nil, hs.step_eq (.inl (by omega)), hbyte, State.start, if_pos (by omega)]
    exact hlast rfl
  · split
    · have hlead := lead?_two (n := c.toNat / 64 % 32) (by omega) (by omega)
      rw [List.foldl_cons, hs.step_lead (by omega) (by omega) hlead, List.foldl_cons,
        step_last (by omega) (by simp) (by dsimp only; omega) (Nat.le_refl 1)]
      exact hlast (by dsimp only; omega)
    · split
      · have hlead := lead?_three (n := c.toNat / 4096 % 16) (by omega)
        rw [List.foldl_cons, hs.step_lead (by omega) (by omega) hlead, List.foldl_cons,
          step_more (by omega) (by dsimp only; split <;> omega) (by dsimp only; split <;> omega) (by simp),
          List.foldl_cons, step_last (by omega) (by simp) (by dsimp only; omega) (Nat.le_refl 1)]
        exact hlast (by dsimp only; omega)
      · have hlead := lead?_four (n := c.toNat / 262144 % 8) (by omega)
        rw [List.foldl_cons, hs.step_lead (by omega) (by omega) hlead, List.foldl_cons,
          step_more (by omega) (by dsimp only; split <;> omega) (by dsimp only; split <;> omega) (by simp),
          List.foldl_cons, step_more (by omega) (by simp) (by dsimp only; omega) (by simp),
          List.foldl_cons, step_last (by omega) (by simp) (by dsimp only; omega) (Nat.le_refl 1)]
        exact hlast (by dsimp only; omega)

/-! ### Texts -/

theorem foldl_step_encode (done : List (Option Char)) (text : List Char) :
    (encode text).foldl State.step ⟨done, none⟩ = ⟨(text.map some).reverse ++ done, none⟩ := by
  induction text generalizing done with
  | nil => rfl
  | cons c rest ih =>
    have hc : State.closed ⟨done, none⟩ = done := rfl
    rw [encode, List.flatMap_cons, List.foldl_append, (State.isBounded_none done).foldl_encodeChar, hc,
      show rest.flatMap String.utf8EncodeChar = encode rest from rfl, ih]
    simp

/-- Whatever bytes stand before it, a text is read as it was written. -/
theorem read_append_encode (bytes : List UInt8) (text : List Char) :
    read (bytes ++ encode text) = read bytes ++ text.map some := by
  cases text with
  | nil => rw [show encode [] = [] from rfl, List.append_nil, List.map_nil, List.append_nil]
  | cons c rest =>
    have hbounded := (State.isBounded_none []).foldl_step bytes
    rw [read_eq, read_eq, encode, List.flatMap_cons, List.foldl_append, List.foldl_append, hbounded.foldl_encodeChar,
      show rest.flatMap String.utf8EncodeChar = encode rest from rfl, foldl_step_encode]
    simp [State.closed]

def State.onto (s : State) (base : List (Option Char)) : State := ⟨s.done ++ base, s.pending⟩

theorem State.step_onto (s : State) (base : List (Option Char)) (byte : UInt8) :
    (s.onto base).step byte = (s.step byte).onto base := by
  have hstart (done : List (Option Char)) (b : Nat) : start (done ++ base) b = (start done b).onto base := by
    rw [start, start]
    split
    · rfl
    · split <;> rfl
  obtain ⟨done, pending⟩ := s
  cases pending with
  | none => exact hstart done byte.toNat
  | some p =>
    rw [onto, step, step]
    dsimp only
    split
    · split <;> rfl
    · exact hstart (none :: done) byte.toNat

theorem foldl_step_onto (s : State) (base : List (Option Char)) (bytes : List UInt8) :
    bytes.foldl State.step (s.onto base) = (bytes.foldl State.step s).onto base := by
  induction bytes generalizing s with
  | nil => rfl
  | cons byte bytes ih => rw [List.foldl_cons, List.foldl_cons, State.step_onto, ih]

theorem State.closed_onto (s : State) (base : List (Option Char)) : (s.onto base).closed = s.closed ++ base := by
  obtain ⟨done, pending⟩ := s
  cases pending <;> rfl

theorem read_encode_append (text : List Char) (bytes : List UInt8) :
    read (encode text ++ bytes) = text.map some ++ read bytes := by
  have honto : (⟨(text.map some).reverse ++ [], none⟩ : State) = State.onto ⟨[], none⟩ (text.map some).reverse := by
    rw [List.append_nil]
    rfl
  rw [read_eq, read_eq, List.foldl_append, foldl_step_encode, honto, foldl_step_onto, State.closed_onto,
    List.reverse_append, List.reverse_reverse]

/-- Well-formed text is read as it was written, and what is read of other bytes between it does not depend on it. -/
theorem decode_between (front : List Char) (bytes : List UInt8) (back : List Char) :
    decode (encode front ++ bytes ++ encode back) = front ++ decode bytes ++ back := by
  have hshown (text : List Char) : (text.map some).map (fun c => c.getD replacement) = text := by
    rw [List.map_map]
    exact List.map_id text
  rw [decode, read_append_encode, read_encode_append, List.map_append, List.map_append, hshown, hshown, decode]

end CodeCensus.Text.Utf8
