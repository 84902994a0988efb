import CodeCensus.Proofs.Document.Reading
import CodeCensus.Proofs.Text.Lines
import CodeCensus.Toml.Scalar

/-! The values of TOML that hold no others are read from the front of a text, and only a decimal number with
too many digits is refused for another reason than its syntax. -/

namespace CodeCensus.Toml

variable {text rest : List Char} {depth : Nat}

theorem skipSpaces_suffix (text : List Char) : skipSpaces text <:+ text := List.dropWhile_suffix _

theorem meets_skipComment (depth : Nat) (text : List Char) : Meets (· <:+ text) depth text (skipComment text) := by
  fun_cases skipComment text with
  | case1 => trivial
  | case2 rest =>
    have hdrop : rest.dropWhile (· != '\n') <:+ rest := List.dropWhile_suffix _
    exact hdrop.trans (List.suffix_cons '#' rest)
  | case3 => exact List.suffix_rfl

/-! ## Texts -/

theorem reads_hexCharacter (depth : Nat) (count : Nat) (text : List Char) :
    Reads (fun _ => True) depth text (hexCharacter count text) := by
  unfold hexCharacter
  dsimp only
  split
  · exact ⟨trivial, List.drop_suffix count text⟩
  · trivial

theorem reads_escape (depth : Nat) (several : Bool) (text : List Char) :
    Reads (fun _ => True) depth text (escape several text) := by
  fun_cases escape several text with
  | case1 | case4 | case8 => trivial
  | case2 => exact ⟨trivial, List.nil_suffix⟩
  | case3 c rest hblank after hafter =>
    have hstart : '\n' :: after <:+ c :: rest := by
      by_cases hc : c = '\n'
      · subst hc
        obtain rfl : rest = after := by simpa using hafter
        exact List.suffix_rfl
      · have hskip : skipSpaces rest = '\n' :: after := by simpa [hc] using hafter
        exact hskip ▸ (skipSpaces_suffix rest).trans (List.suffix_cons c rest)
    have hdrop : (after.dropWhile fun c => isSpace c || c == '\n') <:+ after := List.dropWhile_suffix _
    exact ⟨trivial, hdrop.trans ((List.suffix_cons '\n' after).trans hstart)⟩
  | case5 c rest =>
    have h := (reads_hexCharacter depth 4 rest).of_suffix (List.suffix_cons c rest)
    exact h.map (fun _ _ _ => trivial) fun _ => List.suffix_rfl
  | case6 c rest =>
    have h := (reads_hexCharacter depth 8 rest).of_suffix (List.suffix_cons c rest)
    exact h.map (fun _ _ _ => trivial) fun _ => List.suffix_rfl
  | case7 c rest => exact ⟨trivial, List.suffix_cons c rest⟩

theorem reads_basicFrom (depth : Nat) (several : Bool) (fuel : Nat) (done text : List Char) :
    Reads (fun _ => True) depth text (basicFrom several fuel done text) := by
  fun_induction basicFrom several fuel done text with
  | case1 | case2 | case8 => trivial
  | case3 fuel done _ rest => exact ⟨trivial, List.suffix_append ['"', '"', '"'] rest⟩
  | case4 fuel done _ rest _ ih => exact ih.of_suffix (List.suffix_cons '"' rest)
  | case5 fuel done rest => exact ⟨trivial, List.suffix_cons '"' rest⟩
  | case6 fuel done rest e hescape =>
    have hrest : rest <:+ '\\' :: rest := List.suffix_cons '\\' rest
    exact ((reads_escape _ several rest).isDue hescape).of_suffix hrest
  | case7 fuel done rest chars after hescape ih =>
    have hafter : after <:+ rest := ((reads_escape depth several rest).of_eq_ok hescape).2
    exact ih.of_suffix (hafter.trans (List.suffix_cons '\\' rest))
  | case9 fuel done c rest _ _ _ ih => exact ih.of_suffix (List.suffix_cons c rest)

theorem reads_basic (depth : Nat) (several : Bool) (text : List Char) :
    Reads (fun _ => True) depth text (basic several text) := reads_basicFrom _ several _ [] text

theorem suffix_of_cutFirst {needle before : List Char} (h : Text.cutFirst needle text = some (before, rest)) :
    rest <:+ text := by
  rw [Text.cutFirst_eq_some h]
  exact List.suffix_append (before ++ needle) rest

theorem reads_literal (depth : Nat) (text : List Char) : Reads (fun _ => True) depth text (literal text) := by
  fun_cases literal text with
  | case1 | case2 => trivial
  | case3 inner rest hcut => exact ⟨trivial, suffix_of_cutFirst hcut⟩

theorem closingQuotes_suffix (quote : Char) (inner rest : List Char) :
    (closingQuotes quote inner rest).2 <:+ rest := by
  fun_cases closingQuotes quote inner rest with
  | case1 => exact List.suffix_append [_, _] _
  | case2 => exact List.suffix_cons _ _
  | case3 => exact List.nil_suffix
  | case4 | case5 => exact List.suffix_rfl

/-- A line end right after the quotes that open a text of several lines is no part of it. -/
theorem firstLine_suffix (text : List Char) :
    (if text.head? == some '\n' then text.drop 1 else text) <:+ text := by
  split
  · exact List.drop_suffix 1 text
  · exact List.suffix_rfl

theorem reads_basicLines (depth : Nat) (text : List Char) : Reads (fun _ => True) depth text (basicLines text) := by
  have h := (reads_basic depth true _).of_suffix (firstLine_suffix text)
  exact h.map (fun _ _ _ => trivial) fun found => closingQuotes_suffix '"' found.1 found.2

theorem reads_literalLines (depth : Nat) (text : List Char) :
    Reads (fun _ => True) depth text (literalLines text) := by
  fun_cases literalLines text with
  | case1 | case2 => trivial
  | case3 inner rest hcut =>
    have hrest : rest <:+ text := (suffix_of_cutFirst hcut).trans (firstLine_suffix text)
    exact ⟨trivial, (closingQuotes_suffix '\'' inner rest).trans hrest⟩

/-! ## Numbers -/

/-- The digits found are those of a run at the front of a text that holds nothing else but underscores. -/
theorem exists_run_of_spanDigits (isDigit : Char → Bool) (text : List Char) :
    ∃ run, run ++ (spanDigits isDigit text).2 = text ∧ (∀ c ∈ run, isDigit c = true ∨ c = '_') ∧
      (isDigit '_' = false → (spanDigits isDigit text).1.length = run.countP isDigit) := by
  fun_induction spanDigits isDigit text with
  | case1 | case3 | case5 => exact ⟨[], by simp⟩
  | case2 c rest hc digits after heq ih =>
    rw [heq] at ih
    obtain ⟨run, hrun, hall, hcount⟩ := ih
    refine ⟨'_' :: c :: run, by simp [hrun], ?_, fun hmark => ?_⟩
    · simpa [hc] using hall
    · simp [hcount hmark, hc, hmark]
  | case4 c rest _ hc digits after heq ih =>
    rw [heq] at ih
    obtain ⟨run, hrun, hall, hcount⟩ := ih
    refine ⟨c :: run, by simp [hrun], ?_, fun hmark => ?_⟩
    · simpa [hc] using hall
    · simp [hcount hmark, hc]

theorem exists_run_of_digits (isDigit : Char → Bool) (text : List Char) :
    ∃ run, run ++ (digits isDigit text).2 = text ∧ (∀ c ∈ run, isDigit c = true ∨ c = '_') ∧
      (isDigit '_' = false → (digits isDigit text).1.length = run.countP isDigit) := by
  fun_cases digits isDigit text with
  | case1 c rest => exact exists_run_of_spanDigits isDigit _
  | case2 | case3 => exact ⟨[], by simp⟩

theorem suffix_of_digits {isDigit : Char → Bool} {found : List Char}
    (h : digits isDigit text = (found, rest)) : rest <:+ text := by
  obtain ⟨run, hrun, -⟩ := exists_run_of_digits isDigit text
  rw [h] at hrun
  exact ⟨run, hrun⟩

theorem suffix_of_digitsInBase {mark : Char} {base : Nat} {isDigit : Char → Bool} {found : Data × List Char}
    (h : (match digits isDigit rest with
      | ([], _) => none
      | (digits, rest) => some (Data.int (ofDigits base digits), rest)) = some found) :
    found.2 <:+ mark :: rest := by
  split at h
  · cases h
  · rename_i hdigits
    obtain rfl := Option.some.inj h
    exact (suffix_of_digits hdigits).trans (List.suffix_cons mark rest)

theorem suffix_of_based? : ∀ found ∈ based? text, found.2 <:+ text := by
  intro found hfound
  unfold based? at hfound
  split at hfound
  · dsimp only at hfound
    split at hfound
    · exact suffix_of_digitsInBase hfound
    · split at hfound
      · exact suffix_of_digitsInBase hfound
      · split at hfound
        · exact suffix_of_digitsInBase hfound
        · cases hfound
  · cases hfound

theorem fraction_suffix (text : List Char) : (fraction text).2 <:+ text := by
  fun_cases fraction text with
  | case1 | case3 => exact List.suffix_rfl
  | case2 rest => exact (suffix_of_digits rfl).trans (List.suffix_cons '.' rest)

theorem suffix_of_exponent? : ∀ found ∈ exponent? text, found.2 <:+ text := by
  fun_cases exponent? text with
  | case2 e after he negative signed hsign found rest hne hdigits =>
    rintro _ ⟨⟩
    have hsigned : signed <:+ after := by
      split at hsign
      all_goals obtain ⟨-, rfl⟩ := Prod.mk.inj hsign
      all_goals simp
    exact (suffix_of_digits hdigits).trans (hsigned.trans (List.suffix_cons e after))
  | _ =>
    rintro found ⟨⟩

/-- What stands before the point is a single zero or a run of digits. -/
theorem exists_run_of_whole {found : List Char}
    (h : (match text with
      | '0' :: rest => (['0'], rest)
      | text => digits Char.isDigit text) = (found, rest)) :
    ∃ run, run ++ rest = text ∧ (∀ c ∈ run, c.isDigit = true ∨ c = '_') ∧
      found.length = run.countP Char.isDigit := by
  split at h
  · obtain ⟨rfl, rfl⟩ := Prod.mk.inj h
    exact ⟨['0'], rfl, List.forall_mem_singleton.mpr (.inl rfl), rfl⟩
  · obtain ⟨run, hrun, hall, hcount⟩ := exists_run_of_digits Char.isDigit text
    rw [h] at hrun hcount
    exact ⟨run, hrun, hall, hcount rfl⟩

theorem suffix_of_fraction {run places rest' : List Char} (hrun : run ++ rest = text)
    (hfraction : fraction rest = (places, rest')) : rest' <:+ text := by
  have hsuffix := fraction_suffix rest
  rw [hfraction] at hsuffix
  exact hsuffix.trans ⟨run, hrun⟩

theorem reads_decimal (depth : Nat) (negative : Bool) (text : List Char) :
    Reads (fun _ => True) depth text (decimal negative text) := by
  fun_cases decimal negative text with
  | case1 => trivial
  | case2 whole found rest hne hwhole places rest' hfraction power rest'' hexponent =>
    obtain ⟨run, hrun, -⟩ := exists_run_of_whole hwhole
    have hexp : rest'' <:+ rest' := suffix_of_exponent? _ hexponent
    exact ⟨trivial, hexp.trans (suffix_of_fraction hrun hfraction)⟩
  | case3 whole found rest hne hwhole places rest' hfraction hexponent hplaces hlong =>
    obtain ⟨run, hrun, hall, hcount⟩ := exists_run_of_whole hwhole
    have hwithin : run <:+: text := hrun ▸ (List.prefix_append run rest).isInfix
    rw [hcount] at hlong ⊢
    exact .longNumber hwithin hall hlong
  | case4 whole found rest hne hwhole places rest' hfraction =>
    obtain ⟨run, hrun, -⟩ := exists_run_of_whole hwhole
    exact ⟨trivial, suffix_of_fraction hrun hfraction⟩
  | case5 whole found rest hne hwhole places rest' hfraction =>
    obtain ⟨run, hrun, -⟩ := exists_run_of_whole hwhole
    exact ⟨trivial, suffix_of_fraction hrun hfraction⟩

theorem reads_number (depth : Nat) (text : List Char) : Reads (fun _ => True) depth text (number text) := by
  fun_cases number text with
  | case1 word x => exact ⟨trivial, List.drop_suffix _ text⟩
  | case2 rest found hbased =>
    have hrest : found.2 <:+ rest := suffix_of_based? found hbased
    exact ⟨trivial, hrest.trans (List.suffix_cons '0' rest)⟩
  | case3 => exact reads_decimal _ false _
  | case4 rest => exact (reads_decimal _ true rest).of_suffix (List.suffix_cons '-' rest)
  | case5 rest => exact (reads_decimal _ false rest).of_suffix (List.suffix_cons '+' rest)
  | case6 => exact reads_decimal _ false text

/-! ## Dates and times -/

theorem suffix_of_fixedDigits? {count n : Nat} (h : fixedDigits? count text = some (n, rest)) :
    rest <:+ text := by
  unfold fixedDigits? at h
  dsimp only at h
  split at h
  · obtain ⟨-, rfl⟩ := Prod.mk.inj (Option.some.inj h)
    exact List.drop_suffix count text
  · cases h

theorem suffix_of_after? {c : Char} (h : after? c text = some rest) : rest <:+ text := by
  unfold after? at h
  split at h
  · cases h
  · split at h
    · obtain rfl := Option.some.inj h
      exact List.suffix_cons _ _
    · cases h

theorem suffix_of_date? {day : Nat × Nat × Nat} (h : date? text = some (day, rest)) : rest <:+ text := by
  simp only [date?, Option.bind_eq_bind, Option.bind_eq_some_iff, Prod.exists] at h
  obtain ⟨year, rest₁, hyear, rest₂, hfirst, month, rest₃, hmonth, rest₄, hsecond, day', rest₅, hday, h⟩ := h
  split at h
  · obtain ⟨-, rfl⟩ := Prod.mk.inj (Option.some.inj h)
    have hmonths : rest₃ <:+ text :=
      (suffix_of_fixedDigits? hmonth).trans ((suffix_of_after? hfirst).trans (suffix_of_fixedDigits? hyear))
    exact (suffix_of_fixedDigits? hday).trans ((suffix_of_after? hsecond).trans hmonths)
  · cases h

theorem suffix_of_hourMinute? (h : hourMinute? text = some rest) : rest <:+ text := by
  simp only [hourMinute?, Option.bind_eq_bind, Option.bind_eq_some_iff, Prod.exists] at h
  obtain ⟨hour, rest₁, hhour, rest₂, hcolon, minute, rest₃, hminute, h⟩ := h
  split at h
  · obtain rfl := Option.some.inj h
    exact (suffix_of_fixedDigits? hminute).trans
      ((suffix_of_after? hcolon).trans (suffix_of_fixedDigits? hhour))
  · cases h

theorem suffix_of_time? (h : time? text = some rest) : rest <:+ text := by
  simp only [time?, Option.bind_eq_bind, Option.bind_eq_some_iff, Prod.exists] at h
  obtain ⟨rest₁, hminute, rest₂, hcolon, second, rest₃, hsecond, h⟩ := h
  have hseconds : rest₃ <:+ text :=
    (suffix_of_fixedDigits? hsecond).trans ((suffix_of_after? hcolon).trans (suffix_of_hourMinute? hminute))
  split at h
  · cases h
  · split at h
    · rename_i c more
      split at h
      · obtain rfl := Option.some.inj h
        have hdrop : more.dropWhile Char.isDigit <:+ more := List.dropWhile_suffix _
        exact hdrop.trans ((List.suffix_append ['.', c] more).trans hseconds)
      · obtain rfl := Option.some.inj h
        exact hseconds
    · obtain rfl := Option.some.inj h
      exact hseconds

theorem skipZone_suffix (text : List Char) : skipZone text <:+ text := by
  fun_cases skipZone text with
  | case1 c rest => exact List.suffix_cons c rest
  | case2 c rest =>
    cases hzone : hourMinute? rest with
    | none => exact List.suffix_rfl
    | some after => exact (suffix_of_hourMinute? hzone).trans (List.suffix_cons c rest)
  | case3 | case4 => exact List.suffix_rfl

theorem reads_moment? : ∀ found ∈ moment? text, Reads (fun _ => True) depth text found := by
  intro found hfound
  unfold moment? at hfound
  dsimp only at hfound
  split at hfound
  · rename_i year month day rest hdate
    have hrest : rest <:+ text := suffix_of_date? hdate
    split at hfound
    · obtain rfl := Option.some.inj hfound
      trivial
    · split at hfound
      · rename_i mark more
        split at hfound
        · rename_i after htime
          obtain rfl := Option.some.inj hfound
          have hafter : after <:+ more := by
            split at htime
            · exact suffix_of_time? htime
            · cases htime
          exact ⟨trivial, (skipZone_suffix after).trans
            (hafter.trans ((List.suffix_cons mark more).trans hrest))⟩
        · obtain rfl := Option.some.inj hfound
          exact ⟨trivial, hrest⟩
      · obtain rfl := Option.some.inj hfound
        exact ⟨trivial, List.nil_suffix⟩
  · obtain ⟨rest, htime, rfl⟩ := Option.map_eq_some_iff.mp hfound
    exact ⟨trivial, suffix_of_time? htime⟩

end CodeCensus.Toml
