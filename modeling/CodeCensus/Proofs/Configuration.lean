import CodeCensus.Configuration
import CodeCensus.Proofs.Yaml.Values

/-! When a configuration is read, and what keeps it from being read other than its syntax: bytes that are no UTF-8,
an escape with the code of no character or a version of too many digits, nodes that nest too deep, and a text that
writes no value of the kind that it looks like, such as a day that no month has. -/

namespace CodeCensus

open Text

namespace Yaml

section

variable {bytes : List UInt8} {text : List Char} {cut : Option Refusal}

theorem allowedPart_fst (text : List Char) (cut : Option Refusal) : (allowedPart text cut).1 <+: text := by
  unfold allowedPart
  split
  · exact List.prefix_refl text
  · exact List.take_prefix _ text

/-- A text that is not cut off is a whole text. -/
theorem allowedPart_snd (text : List Char) (cut : Option Refusal) :
    (allowedPart text cut).2 = some .malformed ∨
      (allowedPart text cut = (text, cut) ∧ ∀ c ∈ text, isAllowed c = true) := by
  unfold allowedPart
  split
  · rename_i hnone
    refine .inr ⟨rfl, fun c hc => ?_⟩
    simpa using List.findIdx?_eq_none_iff.mp hnone c hc
  · exact .inl rfl

theorem allowedPart_of_forall (h : ∀ c ∈ text, isAllowed c = true) : allowedPart text cut = (text, cut) := by
  unfold allowedPart
  rw [List.findIdx?_eq_none_iff.mpr fun c hc => by rw [h c hc]; rfl]

theorem textOf_fst (bytes : List UInt8) : (textOf bytes).1 <+: unifyLines (Utf8.decode bytes) := by
  unfold textOf
  dsimp only
  split
  · exact allowedPart_fst _ _
  · exact (allowedPart_fst _ _).trans (List.take_prefix _ _)

/-- A text is cut off for a character that may not stand in it, or for bytes that are not UTF-8. -/
theorem textOf_snd (bytes : List UInt8) :
    (textOf bytes).2 = some .malformed ∨ ((textOf bytes).2 = some .notText ∧ Utf8.fault? bytes ≠ none) ∨
      textOf bytes = (unifyLines (Utf8.decode bytes), none) ∧ Utf8.fault? bytes = none ∧
        ∀ c ∈ unifyLines (Utf8.decode bytes), isAllowed c = true := by
  unfold textOf
  dsimp only
  split
  · rename_i hfault
    rcases allowedPart_snd (unifyLines (Utf8.decode bytes)) none with hcut | ⟨hwhole, hallowed⟩
    · exact .inl hcut
    · exact .inr (.inr ⟨hwhole, Option.isNone_iff_eq_none.mp hfault, hallowed⟩)
  · rename_i hfault
    rcases allowedPart_snd ((unifyLines (Utf8.decode bytes)).take (portionStart (charsBeforeFault {} bytes)))
      (some .notText) with hcut | ⟨hwhole, -⟩
    · exact .inl hcut
    · exact .inr (.inl ⟨congrArg Prod.snd hwhole, fun hnone => hfault (Option.isNone_iff_eq_none.mpr hnone)⟩)

theorem textOf_eq (hfault : Utf8.fault? bytes = none)
    (hallowed : ∀ c ∈ unifyLines (Utf8.decode bytes), isAllowed c = true) :
    textOf bytes = (unifyLines (Utf8.decode bytes), none) := by
  rw [textOf, hfault]
  exact allowedPart_of_forall hallowed

end

end Yaml

namespace Configuration

/-- The bytes of a file are a text which holds one document, a table with some entries. -/
structure Says (bytes : List UInt8) (entries : List (Data × Data)) : Prop where
  decodes : Utf8.fault? bytes = none
  allowed : ∀ c ∈ unifyLines (Utf8.decode bytes), Yaml.isAllowed c = true
  reads : Yaml.read (unifyLines (Utf8.decode bytes)) none = .ok (.table entries)

/-- What keeps a configuration from being read other than its syntax. -/
inductive Hinders (bytes : List UInt8) : Yaml.Refusal → Prop
  | decoding (fault : Utf8.fault? bytes ≠ none) : Hinders bytes .notText
  | characters {e : Yaml.Refusal} (reason : e.LiesIn (unifyLines (Utf8.decode bytes))) : Hinders bytes e
  | nesting (deep : Fault.maxNesting <
      (Yaml.tokens (Yaml.textOf bytes).1 (Yaml.textOf bytes).2).countP Yaml.Token.opens) :
    Hinders bytes .deepNesting
  | values {root : Yaml.NodeId} {g : Yaml.Graph} {e : Yaml.Refusal}
    (document : Yaml.document? (Yaml.textOf bytes).1 (Yaml.textOf bytes).2 = .ok (some (root, g)))
    (reason : g.Hinders e) : Hinders bytes e

section

variable {bytes : List UInt8}

theorem ofBytes_of_says {entries : List (Data × Data)} (h : Says bytes entries) :
    ofBytes bytes = .ok (.table entries) := by
  have hread := h.reads
  unfold ofBytes
  rw [Yaml.textOf_eq h.decodes h.allowed]
  generalize unifyLines (Utf8.decode bytes) = text at hread ⊢
  dsimp only
  rw [hread]
  rfl

theorem says_of_read {entries : List (Data × Data)}
    (h : Yaml.read (Yaml.textOf bytes).1 (Yaml.textOf bytes).2 = .ok (.table entries)) : Says bytes entries := by
  have hcut := Yaml.cut_of_read_eq_ok h
  rcases Yaml.textOf_snd bytes with hmalformed | ⟨hnotText, -⟩ | ⟨hwhole, hfault, hallowed⟩
  · cases hcut.symm.trans hmalformed
  · cases hcut.symm.trans hnotText
  · rw [hwhole] at h
    exact ⟨hfault, hallowed, h⟩

/-- What is read is what the bytes say, or else empty. -/
theorem says_of_ofBytes {d : Data} (h : ofBytes bytes = .ok d) :
    d = .emptyTable ∨ ∃ entries, d = .table entries ∧ Says bytes entries := by
  unfold ofBytes at h
  dsimp only at h
  split at h
  · rename_i value hread
    obtain rfl := Except.ok.inj h
    cases value with
    | table entries => exact .inr ⟨entries, rfl, says_of_read hread⟩
    | _ => exact .inl rfl
  · exact .inl (Except.ok.inj h).symm
  · cases h

theorem hinders_of_ofBytes {e : Yaml.Refusal} (h : ofBytes bytes = .error e) : Hinders bytes e := by
  unfold ofBytes at h
  dsimp only at h
  split at h
  · cases h
  · cases h
  · rename_i refusal hno hread
    obtain rfl := Except.error.inj h
    rcases Yaml.due_of_read_eq_error hread with hdue | ⟨rfl, hdeep⟩ | ⟨root, g, hdocument, hreason⟩
    · rcases hdue with rfl | hcut | hlies
      · exact absurd rfl hno
      · have hcut : (Yaml.textOf bytes).2 = some refusal := hcut
        rcases Yaml.textOf_snd bytes with hmalformed | ⟨hnotText, hfault⟩ | ⟨hwhole, -⟩
        · exact absurd (Option.some.inj (hcut.symm.trans hmalformed)) hno
        · obtain rfl := Option.some.inj (hcut.symm.trans hnotText)
          exact .decoding hfault
        · cases hcut.symm.trans (congrArg Prod.snd hwhole)
      · exact .characters (hlies.of_part (Yaml.textOf_fst bytes).isInfix)
    · exact .nesting hdeep
    · exact .values hdocument hreason

end

/-- A configuration is read as a table, unless something hinders it that its bytes account for. A table that is not
empty is what the bytes say, and what they say is read; everything else counts as an empty table. -/
theorem load_table_or_hindered (top : Files.Node) (place : Files.Place) (path : String) :
    ((∃ entries, load top place path = .ok (.table entries)) ∨
      ∃ bytes e, top.file? place (path ++ "/" ++ fileName) = some bytes ∧ load top place path = .error e ∧
        Hinders bytes e) ∧
    (top.file? place (path ++ "/" ++ fileName) = none → load top place path = .ok .emptyTable) ∧
    ∀ bytes, top.file? place (path ++ "/" ++ fileName) = some bytes →
      (∀ entries, Says bytes entries → load top place path = .ok (.table entries)) ∧
      ∀ d, load top place path = .ok d → (∀ entries, ¬ Says bytes entries) → d = .emptyTable := by
  cases hfile : top.file? place (path ++ "/" ++ fileName) with
  | none =>
    have hload : load top place path = .ok .emptyTable := by rw [load, hfile]
    exact ⟨.inl ⟨[], hload⟩, fun _ => hload, nofun⟩
  | some bytes =>
    have hload : load top place path = ofBytes bytes := by rw [load, hfile]
    rw [hload]
    refine ⟨?_, nofun, ?_⟩
    · cases hread : ofBytes bytes with
      | error e => exact .inr ⟨bytes, e, rfl, rfl, hinders_of_ofBytes hread⟩
      | ok d =>
        rcases says_of_ofBytes hread with rfl | ⟨entries, rfl, -⟩
        · exact .inl ⟨[], rfl⟩
        · exact .inl ⟨entries, rfl⟩
    · rintro bytes' hbytes'
      obtain rfl := Option.some.inj hbytes'
      refine ⟨fun entries hsays => ofBytes_of_says hsays, fun d hd hno => ?_⟩
      exact (says_of_ofBytes hd).resolve_right fun ⟨entries, _, hsays⟩ => hno entries hsays

/-- A directory that holds nothing but a configuration. -/
def holding (bytes : List UInt8) : Files.Node := .dir [(fileName, .file bytes)]

theorem load_table_or_hindered_oneNumber :
    ∃ entries, load (holding (Utf8.encode "batch_size: 7\n".toList)) [] "." = .ok (.table entries) ∧
      entries.length = 1 := by
  have hfile : (holding (Utf8.encode "batch_size: 7\n".toList)).file? [] ("." ++ "/" ++ fileName) =
      some (Utf8.encode "batch_size: 7\n".toList) := by
    decide +kernel
  have hread : (Yaml.read (unifyLines (Utf8.decode (Utf8.encode "batch_size: 7\n".toList))) none).map
      (fun d => d.table?.map List.length) = .ok (some 1) := by
    decide +kernel
  obtain ⟨d, hd, hlength⟩ := Except.map_eq_ok hread
  cases d with
  | table entries =>
    have hallowed : (unifyLines (Utf8.decode (Utf8.encode "batch_size: 7\n".toList))).all Yaml.isAllowed = true := by
      decide +kernel
    have hsays : Says (Utf8.encode "batch_size: 7\n".toList) entries :=
      ⟨by decide +kernel, List.all_eq_true.mp hallowed, hd⟩
    obtain ⟨-, -, hload⟩ := load_table_or_hindered (holding (Utf8.encode "batch_size: 7\n".toList)) [] "."
    exact ⟨entries, (hload _ hfile).1 entries hsays, Option.some.inj hlength⟩
  | _ => cases hlength

/-- A day in the thirteenth month, and a byte that starts no character, are refused and not passed over. -/
theorem load_ne_table_dayOrByte :
    load (holding (Utf8.encode "a: 2024-13-45\n".toList)) [] "." = .error .badValue ∧
      load (holding [0xFF]) [] "." = .error .notText := by
  have hday : (load (holding (Utf8.encode "a: 2024-13-45\n".toList)) [] ".").map (fun _ => ()) =
      .error .badValue := by
    decide +kernel
  have hbyte : (load (holding [0xFF]) [] ".").map (fun _ => ()) = .error .notText := by decide +kernel
  exact ⟨Except.map_eq_error hday, Except.map_eq_error hbyte⟩

end Configuration

end CodeCensus
