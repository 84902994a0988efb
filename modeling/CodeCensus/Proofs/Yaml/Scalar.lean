import CodeCensus.Proofs.Yaml.Spot
import CodeCensus.Yaml.Scalar
import Mathlib.Algebra.Group.Nat.Defs
import Mathlib.Data.List.Basic
import Mathlib.Data.List.Induction

/-! Scalars are read going forwards, and only an escape in double quotes is refused for another reason than its
syntax. -/

namespace CodeCensus.Yaml

/-! ## Scalars without quotes -/

theorem leads_plainBreaks (done : List Char) (steps : Nat) (s : Spot) :
    s.Leads (plainBreaks done steps s).2.2 := by
  induction steps generalizing done s with
  | zero => exact .refl s
  | succ steps ih =>
    rw [plainBreaks]
    split
    · exact s.leads_next.trans (ih done s.next)
    · split
      · exact .refl s
      · rename_i c s' hbreak
        have hleads := Spot.leads_of_break? hbreak
        split
        · exact hleads
        · exact hleads.trans (ih _ s')

theorem leads_plainSpace (s : Spot) : s.Leads (plainSpace s).2.2 := by
  have hspaces : s.Leads (s.take (· == ' ')).2 := s.leads_take _
  unfold plainSpace
  dsimp only
  split
  · exact hspaces
  · rename_i c s' hbreak
    have hleads := hspaces.trans (Spot.leads_of_break? hbreak)
    split
    · exact hleads
    · exact hleads.trans (leads_plainBreaks [] s'.ahead s')

theorem leads_plainFrom (inFlow : Bool) (indent : Int) (done space : List Char) (ended : Bool) (steps : Nat)
    (s : Spot) : s.Leads (plainFrom inFlow indent done space ended steps s).2.2 := by
  induction steps generalizing done space ended s with
  | zero => exact .refl s
  | succ steps ih =>
    rw [plainFrom]
    dsimp only
    split
    · exact .refl s
    · have hleads := (s.leads_skip (plainRun inFlow [] s.rest).length).trans (leads_plainSpace _)
      split
      · exact hleads
      · exact hleads.trans (ih _ _ _ _)

theorem leads_plainScalar (inFlow : Bool) (indent : Int) (s : Spot) :
    s.Leads (plainScalar inFlow indent s).2.2 := leads_plainFrom inFlow indent [] [] false s.ahead s

/-! ## Scalars in quotes -/

theorem digitValue_lt (c : Char) : digitValue c < 16 := by
  unfold digitValue
  split
  · rename_i hdigit
    simp only [Char.isDigit, Bool.and_eq_true, decide_eq_true_eq, UInt32.le_iff_toNat_le] at hdigit
    have hnine : c.toNat ≤ 57 := hdigit.2
    have hzero : '0'.toNat = 48 := rfl
    omega
  · split
    · rename_i hletter
      simp only [Bool.and_eq_true, decide_eq_true_eq, Char.le_def, UInt32.le_iff_toNat_le] at hletter
      have hf : c.toNat ≤ 102 := hletter.2
      have ha : 'a'.toNat = 97 := rfl
      omega
    · split
      · rename_i hletter
        simp only [Bool.and_eq_true, decide_eq_true_eq, Char.le_def, UInt32.le_iff_toNat_le] at hletter
        have hf : c.toNat ≤ 70 := hletter.2
        have ha : 'A'.toNat = 65 := rfl
        omega
      · exact Nat.zero_lt_succ 15

theorem ofDigits_lt (digits : List Char) : ofDigits 16 digits < 16 ^ digits.length := by
  induction digits using List.reverseRecOn with
  | nil => exact Nat.one_pos
  | append_singleton digits c ih =>
    rw [ofDigits] at ih ⊢
    rw [List.foldl_concat, List.length_append, List.length_singleton, Nat.pow_succ]
    have := digitValue_lt c
    omega

/-- Only an escape of eight digits can have a code that is no character's. -/
theorem eight_of_escapeWidth? {c : Char} {width : Nat} {digits : List Char} (h : escapeWidth? c = some width)
    (hwidth : digits.length = width) (hbeyond : 0x110000 ≤ ofDigits 16 digits) : c = 'U' ∧ width = 8 := by
  have hlt := ofDigits_lt digits
  unfold escapeWidth? at h
  split at h
  · cases h
    rw [hwidth] at hlt
    omega
  · cases h
    rw [hwidth] at hlt
    omega
  · cases h
    exact ⟨rfl, rfl⟩
  · cases h

section

variable {s : Spot} {c : Char}

theorem rest_eq_of_char? (h : s.char? = some c) : s.rest = c :: s.next.rest := by
  rw [s.rest_next]
  exact List.eq_cons_of_mem_head? h

theorem reads_escapedCode {width : Nat} (hslash : s.char? = some '\\') (hmark : s.next.char? = some c)
    (hwidth : escapeWidth? c = some width) :
    Reads (fun _ => True) s (escapedCode width s.next.next) := by
  have hrest : s.rest = '\\' :: c :: s.next.next.rest := by
    rw [rest_eq_of_char? hslash, rest_eq_of_char? hmark]
  have hleads : s.Leads s.next.next := s.leads_next.trans s.next.leads_next
  unfold escapedCode
  refine Meets.bind ((reads_hexCode width s.next.next).of_leads hleads) ?_
  rintro ⟨code, s'⟩ ⟨⟨digits, hfront, hlength, hhex, rfl⟩, hleads'⟩
  have hlies : 0x110000 ≤ ofDigits 16 digits →
      (if 0x80000000 ≤ ofDigits 16 digits then Refusal.hugeCode else .badValue).LiesIn s.rest := by
    intro hbeyond
    obtain ⟨rfl, rfl⟩ := eight_of_escapeWidth? hwidth hlength hbeyond
    have hwithin : '\\' :: 'U' :: digits <+: s.rest := by
      rw [hrest]
      simpa using hfront
    exact .escape hwithin.isInfix hlength hhex hbeyond
  dsimp only
  split
  · rename_i hhuge
    refine .inr (.inr ?_)
    have := hlies (by omega)
    rwa [if_pos hhuge] at this
  · rename_i hhuge
    split
    · rename_i hbeyond
      refine .inr (.inr ?_)
      have := hlies hbeyond
      rwa [if_neg hhuge] at this
    · exact ⟨trivial, hleads'⟩

end

theorem reads_quotedBreaks (done : List Char) (steps : Nat) (s : Spot) :
    Reads (fun _ => True) s (quotedBreaks done steps s) := by
  induction steps generalizing done s with
  | zero => exact ⟨trivial, .refl s⟩
  | succ steps ih =>
    rw [quotedBreaks]
    split
    · exact Refusal.isDue_malformed s
    · have hleads : s.Leads (s.drop fun c => c == ' ' || c == '\t') := s.leads_drop _
      dsimp only
      split
      · exact ⟨trivial, hleads⟩
      · rename_i c s' hbreak
        exact (ih _ s').of_leads (hleads.trans (Spot.leads_of_break? hbreak))

theorem reads_quotedSpace (s : Spot) : Reads (fun _ => True) s (quotedSpace s) := by
  have hleads : s.Leads (s.take fun c => c == ' ' || c == '\t').2 := s.leads_take _
  unfold quotedSpace
  dsimp only
  split
  · exact (Refusal.isDue_fault _).of_leads hleads
  · split
    · exact ⟨trivial, hleads⟩
    · rename_i c s' hbreak
      refine Reads.of_leads ?_ (hleads.trans (Spot.leads_of_break? hbreak))
      exact (reads_quotedBreaks [] (s'.ahead + 1) s').map fun _ s _ => ⟨trivial, .refl s⟩

theorem reads_quotedEscape {s : Spot} (hslash : s.char? = some '\\') :
    Reads (fun _ => True) s (quotedEscape s.next) := by
  unfold quotedEscape
  split
  · exact (Refusal.isDue_fault _).of_leads s.leads_next
  · rename_i c hmark
    split
    · exact ⟨trivial, s.leads_next.trans s.next.leads_next⟩
    · split
      · rename_i width hwidth
        exact (reads_escapedCode hslash hmark hwidth).map fun _ s _ => ⟨trivial, .refl s⟩
      · split
        · rename_i c' s' hbreak
          refine Reads.of_leads ?_ (s.leads_next.trans (Spot.leads_of_break? hbreak))
          exact (reads_quotedBreaks [] (s'.ahead + 1) s').map fun _ s _ => ⟨trivial, .refl s⟩
        · exact Refusal.isDue_malformed s

theorem reads_quotedFrom (quote : Char) (done : List Nat) (steps : Nat) (s : Spot) :
    Reads (fun _ => True) s (quotedFrom quote done steps s) := by
  induction steps generalizing done s with
  | zero => exact Refusal.isDue_malformed s
  | succ steps ih =>
    rw [quotedFrom]
    split
    · exact Refusal.isDue_fault s
    · rename_i c hchar
      split
      · split
        · exact (ih _ _).of_leads (s.leads_skip 2)
        · exact ⟨trivial, s.leads_next⟩
      · split
        · refine Meets.bind (reads_quotedSpace s) ?_
          rintro ⟨space, s'⟩ ⟨-, hleads⟩
          exact (ih _ s').of_leads hleads
        · split
          · rename_i hescape
            obtain rfl : c = '\\' := by
              rw [Bool.and_eq_true, beq_iff_eq, beq_iff_eq] at hescape
              exact hescape.2
            refine Meets.bind (reads_quotedEscape hchar) ?_
            rintro ⟨codes, s'⟩ ⟨-, hleads⟩
            exact (ih _ s').of_leads hleads
          · exact (ih _ _).of_leads s.leads_next

theorem reads_quotedScalar (quote : Char) (s : Spot) : Reads (fun _ => True) s (quotedScalar quote s) :=
  reads_quotedFrom quote [] (s.ahead + 1) s

/-! ## Scalars in blocks -/

theorem leads_takeChomp (s : Spot) : s.Leads (takeChomp s).2 := by
  unfold takeChomp
  split
  · exact s.leads_next
  · exact .refl s

theorem reads_takeIncrement (s : Spot) : Reads (fun _ => True) s (takeIncrement s) := by
  unfold takeIncrement
  split
  · exact ⟨trivial, .refl s⟩
  · rename_i c hchar
    have hincrement : Meets (fun _ => True) s (increment? c) := by
      unfold increment?
      split
      · trivial
      · split
        · exact Refusal.isDue_malformed s
        · trivial
    refine Meets.map hincrement fun n _ => ⟨trivial, ?_⟩
    dsimp only
    split
    · exact s.leads_next
    · exact .refl s

theorem meets_blockMarks (s : Spot) : Meets (fun found => s.Leads found.2.2) s (blockMarks s) := by
  have hfirst := leads_takeChomp s
  unfold blockMarks
  dsimp only
  refine Meets.bind ((reads_takeIncrement _).of_leads hfirst) ?_
  rintro ⟨increment, s₁⟩ ⟨-, hleads⟩
  dsimp only
  generalize hmarks : (if (takeChomp s).1.isSome then ((takeChomp s).1, s₁)
    else if increment.isSome then takeChomp s₁ else (none, s₁)) = marks
  have hlater : s.Leads marks.2 := by
    rw [← hmarks]
    split
    · exact hleads
    · split
      · exact hleads.trans (leads_takeChomp s₁)
      · exact hleads
  split
  · exact Refusal.isDue_malformed s
  · refine Meets.bind ((meets_finishLine marks.2).of_leads hlater) fun s₂ hline => ?_
    exact hlater.trans hline

theorem leads_blockLead (done : List Char) (widest steps : Nat) (s : Spot) :
    s.Leads (blockLead done widest steps s).2.2 := by
  induction steps generalizing done widest s with
  | zero => exact .refl s
  | succ steps ih =>
    rw [blockLead]
    split
    · exact s.leads_next.trans (ih _ _ s.next)
    · split
      · rename_i c s' hbreak
        exact (Spot.leads_of_break? hbreak).trans (ih _ _ s')
      · exact .refl s

theorem leads_blockBreaks (indent : Nat) (done : List Char) (steps : Nat) (s : Spot) :
    s.Leads (blockBreaks indent done steps s).2 := by
  induction steps generalizing done s with
  | zero => exact .refl s
  | succ steps ih =>
    rw [blockBreaks]
    have hleads := s.leads_dropSpacesTo indent indent
    split
    · rename_i c s' hbreak
      exact (hleads.trans (Spot.leads_of_break? hbreak)).trans (ih _ s')
    · exact hleads

theorem leads_blockLines (foldsLines : Bool) (chomp : Chomp) (indent : Nat) (done breaks : List Char)
    (last : Option Char) (steps : Nat) (s : Spot) :
    s.Leads (blockLines foldsLines chomp indent done breaks last steps s).2 := by
  induction steps generalizing done breaks last s with
  | zero => exact .refl s
  | succ steps ih =>
    rw [blockLines]
    dsimp only
    split
    · exact .refl s
    · have hline : s.Leads (s.take fun c => !isBreak c).2 := s.leads_take _
      generalize (s.take fun c => !isBreak c).2 = after at hline ⊢
      -- the last line of a text need not end in a break
      cases hbreak : after.break? with
      | none =>
        have hlater := hline.trans (leads_blockBreaks indent [] (after.ahead + 1) after)
        dsimp only
        split
        · exact hlater.trans (ih _ _ _ _)
        · exact hlater.trans (ih _ _ _ _)
      | some ended =>
        obtain ⟨c, s'⟩ := ended
        have hended := hline.trans (Spot.leads_of_break? hbreak)
        have hlater := hended.trans (leads_blockBreaks indent [] (s'.ahead + 1) s')
        dsimp only
        split
        · exact hlater.trans (ih _ _ _ _)
        · exact hlater.trans (ih _ _ _ _)

theorem reads_blockScalar (foldsLines : Bool) (indent : Int) (s : Spot) :
    Reads (fun _ => True) s (blockScalar foldsLines indent s) := by
  unfold blockScalar
  refine Meets.bind (meets_blockMarks s) ?_
  rintro ⟨chomp, increment, s₁⟩ hmarks
  refine ⟨trivial, Spot.Leads.trans hmarks ?_⟩
  cases increment with
  | none => exact (leads_blockLead [] 0 (s₁.ahead + 1) s₁).trans (leads_blockLines _ _ _ _ _ _ _ _)
  | some n => exact (leads_blockBreaks _ [] (s₁.ahead + 1) s₁).trans (leads_blockLines _ _ _ _ _ _ _ _)

end CodeCensus.Yaml
