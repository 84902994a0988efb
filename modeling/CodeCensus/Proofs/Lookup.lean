import CodeCensus.Data
import CodeCensus.Record.Lax
import Mathlib.Data.List.Nodup
import Mathlib.Data.String.Basic

/-! Lists of named values. What is found under a name stands there with it, and a value is found under its
name if no other value has that name. Values that are assigned to names one after the other leave each name
there once. If all names differ, sorting brings them into strict order. -/

namespace CodeCensus

theorem lookup_map_snd {α β γ : Type} [BEq α] (f : β → γ) (key : α) (entries : List (α × β)) :
    (entries.map fun entry => (entry.1, f entry.2)).lookup key = (entries.lookup key).map f := by
  induction entries with
  | nil => rfl
  | cons entry entries ih =>
    rw [List.map_cons, List.lookup_cons, List.lookup_cons, ih]
    cases key == entry.1 with
    | true => rfl
    | false => rfl

/-- A name among names that all differ does not come before itself. -/
theorem not_mem_of_nodup_append {α β : Type} {name : α → β} {before after : List α} {a : α}
    (h : ((before ++ a :: after).map name).Nodup) : name a ∉ before.map name := by
  rw [List.map_append, List.map_cons] at h
  exact fun hmem => (List.disjoint_of_nodup_append h) hmem List.mem_cons_self

section lookup

variable {α β : Type} [BEq α] [LawfulBEq α] {key : α} {value : β} {entries : List (α × β)}

theorem mem_of_lookup_eq_some (h : entries.lookup key = some value) : (key, value) ∈ entries := by
  obtain ⟨before, after, hsplit, -⟩ := List.lookup_eq_some_iff.mp h
  rw [hsplit]
  exact List.mem_append_right _ List.mem_cons_self

theorem lookup_eq_some_of_mem (hnodup : (entries.map Prod.fst).Nodup) (h : (key, value) ∈ entries) :
    entries.lookup key = some value := by
  obtain ⟨before, after, rfl⟩ := List.append_of_mem h
  refine List.lookup_eq_some_iff.mpr ⟨before, after, rfl, fun entry hentry => ?_⟩
  rw [List.map_append, List.map_cons] at hnodup
  have hdisjoint := (List.nodup_append.mp hnodup).2.2
  have hne : entry.1 ≠ key := hdisjoint entry.1 (List.mem_map_of_mem hentry) key List.mem_cons_self
  exact bne_iff_ne.mpr hne.symm

theorem lookup_eq_none_of_not_mem (h : key ∉ entries.map Prod.fst) : entries.lookup key = none := by
  refine List.lookup_eq_none_iff.mpr fun entry hentry => bne_iff_ne.mpr ?_
  rintro rfl
  exact h (List.mem_map_of_mem hentry)

/-- If no name comes twice, what is found among values of some kind is found among all and of that kind. -/
theorem lookup_filter_snd (hnodup : (entries.map Prod.fst).Nodup) (keep : β → Bool) :
    (entries.filter fun entry => keep entry.2).lookup key = (entries.lookup key).filter keep := by
  induction entries with
  | nil => rfl
  | cons entry entries ih =>
    obtain ⟨hfirst, hrest⟩ := List.nodup_cons.mp hnodup
    rw [List.filter_cons]
    by_cases hkey : key = entry.1
    · subst hkey
      rw [List.lookup_cons_self, Option.filter_some]
      split
      · exact List.lookup_cons_self
      · rw [ih hrest, lookup_eq_none_of_not_mem hfirst]
        rfl
    · have hne : (key == entry.1) = false := beq_false_of_ne hkey
      rw [List.lookup_cons, hne, ← ih hrest]
      split
      · rw [List.lookup_cons, hne]
      · rfl

/-- To drop what has another name does not change what is found. -/
theorem lookup_filter_bne {other : α} (h : key ≠ other) :
    (entries.filter fun entry => entry.1 != other).lookup key = entries.lookup key := by
  induction entries with
  | nil => rfl
  | cons entry entries ih =>
    by_cases hother : entry.1 = other
    · have hkey : (key == entry.1) = false := by
        rw [hother]
        exact beq_false_of_ne h
      rw [List.filter_cons_of_neg (by simp [hother]), ih, List.lookup_cons, hkey]
    · rw [List.filter_cons_of_pos (by simp [hother]), List.lookup_cons, List.lookup_cons, ih]

end lookup

namespace Lax

section assign

variable {α : Type} {name : String} {value : α} {named : List (String × α)}

theorem keys_assign (name : String) (value : α) (named : List (String × α)) :
    (assign name value named).map Prod.fst =
      if name ∈ named.map Prod.fst then named.map Prod.fst else named.map Prod.fst ++ [name] := by
  induction named with
  | nil => rfl
  | cons entry rest ih =>
    obtain ⟨other, old⟩ := entry
    by_cases h : other = name
    · simp [assign, h]
    · have h' : ¬ name = other := fun e => h e.symm
      simp only [assign, h, if_false, List.map_cons, ih, List.mem_cons, h', false_or]
      split
      · rfl
      · rfl

theorem nodup_keys_assign (h : (named.map Prod.fst).Nodup) (name : String) (value : α) :
    ((assign name value named).map Prod.fst).Nodup := by
  rw [keys_assign]
  split
  · exact h
  · rename_i hnew
    exact h.append (List.nodup_singleton name) (List.disjoint_singleton.mpr hnew)

theorem mem_assign {entry : String × α} (h : entry ∈ assign name value named) :
    entry = (name, value) ∨ entry ∈ named := by
  induction named with
  | nil => exact .inl (List.mem_singleton.mp h)
  | cons first rest ih =>
    obtain ⟨other, old⟩ := first
    rw [assign] at h
    split at h
    · rename_i hname
      rcases List.mem_cons.mp h with rfl | hrest
      · exact .inl (by rw [hname])
      · exact .inr (List.mem_cons_of_mem _ hrest)
    · rcases List.mem_cons.mp h with rfl | hrest
      · exact .inr List.mem_cons_self
      · exact (ih hrest).imp_right (List.mem_cons_of_mem _)

theorem assign_of_not_mem (h : name ∉ named.map Prod.fst) (value : α) :
    assign name value named = named ++ [(name, value)] := by
  induction named with
  | nil => rfl
  | cons entry rest ih =>
    obtain ⟨other, old⟩ := entry
    rw [List.map_cons, List.mem_cons, not_or] at h
    rw [assign, if_neg (Ne.symm h.1), ih h.2, List.cons_append]

variable {read : List (String × α)}

theorem nodup_keys_foldl_assign (h : (named.map Prod.fst).Nodup) :
    ((read.foldl (fun named entry => assign entry.1 entry.2 named) named).map Prod.fst).Nodup := by
  induction read generalizing named with
  | nil => exact h
  | cons entry read ih => exact ih (nodup_keys_assign h _ _)

theorem mem_foldl_assign {entry : String × α}
    (h : entry ∈ read.foldl (fun named entry => assign entry.1 entry.2 named) named) :
    entry ∈ read ∨ entry ∈ named := by
  induction read generalizing named with
  | nil => exact .inr h
  | cons first read ih =>
    rcases ih h with hread | hassigned
    · exact .inl (List.mem_cons_of_mem _ hread)
    · rcases mem_assign hassigned with rfl | hnamed
      · exact .inl List.mem_cons_self
      · exact .inr hnamed

theorem foldl_assign_of_nodup (h : ((named ++ read).map Prod.fst).Nodup) :
    read.foldl (fun named entry => assign entry.1 entry.2 named) named = named ++ read := by
  induction read generalizing named with
  | nil => exact (List.append_nil _).symm
  | cons entry read ih =>
    have hnew : entry.1 ∉ named.map Prod.fst := not_mem_of_nodup_append h
    rw [List.append_cons] at h ⊢
    rw [List.foldl_cons, assign_of_not_mem hnew, ih h]

end assign

end Lax

section order

variable {α : Type} {named : List α}

theorem pairwise_mergeSort_lt (name : α → String) (h : (named.map name).Nodup) :
    (named.mergeSort fun a b => !decide (name b < name a)).Pairwise fun a b => name a < name b := by
  have hsorted : (named.mergeSort fun a b => !decide (name b < name a)).Pairwise fun a b =>
      (!decide (name b < name a)) = true := by
    refine List.pairwise_mergeSort (fun a b c hab hbc => ?_) (fun a b => ?_) named
    · have hab' : ¬ name b < name a := by simpa using hab
      have hbc' : ¬ name c < name b := by simpa using hbc
      have hac : ¬ name c < name a := not_lt.mpr ((not_lt.mp hab').trans (not_lt.mp hbc'))
      simpa using hac
    · rw [Bool.or_eq_true, Bool.not_eq_true', Bool.not_eq_true', decide_eq_false_iff_not, decide_eq_false_iff_not,
        not_lt, not_lt]
      exact le_total (name a) (name b)
  have hne : (named.mergeSort fun a b => !decide (name b < name a)).Pairwise fun a b => name a ≠ name b := by
    have hnodup := ((List.mergeSort_perm named fun a b => !decide (name b < name a)).map name).nodup_iff.mpr h
    exact List.pairwise_map.mp hnodup
  refine (hsorted.and hne).imp fun {a b} hab => ?_
  have hle : ¬ name b < name a := by simpa using hab.1
  exact lt_of_le_of_ne (not_lt.mp hle) hab.2

end order

/-! ## Tables

What is found in a table under a text, before and after a value is put under some key. -/

namespace Data

variable {α : Type} {key other : String} {value : α} {entries : List (Data × α)} {k : Data}

theorem sameKey_text_iff : sameKey k (.text key) = true ↔ k = .text key := by
  cases k <;> simp [sameKey, keyNumber?]

theorem text_sameKey_iff : sameKey (.text key) k = true ↔ k = .text key := by
  cases k with
  | text s => simpa [sameKey] using eq_comm
  | _ => simp [sameKey, keyNumber?]

theorem find?_put_self (key : String) (value : α) (entries : List (Data × α)) :
    find? (.text key) (put (.text key) value entries) = some value := by
  induction entries with
  | nil => simp [put, find?, sameKey_text_iff]
  | cons entry entries ih =>
    obtain ⟨k, old⟩ := entry
    by_cases hk : sameKey k (.text key) = true
    · simp [put, find?, hk]
    · simp [put, find?, hk, ih]

theorem find?_put_of_ne_text (h : k ≠ .text other) (value : α) (entries : List (Data × α)) :
    find? (.text other) (put k value entries) = find? (.text other) entries := by
  have hne : ¬ sameKey k (.text other) = true := mt sameKey_text_iff.mp h
  induction entries with
  | nil => simp [put, find?, hne]
  | cons entry entries ih =>
    obtain ⟨first, old⟩ := entry
    by_cases hfirst : sameKey first k = true
    · have hother : ¬ sameKey first (.text other) = true := by
        rw [sameKey_text_iff]
        rintro rfl
        exact h (text_sameKey_iff.mp hfirst)
      simp [put, find?, hfirst, hother]
    · simp [put, find?, hfirst, ih]

theorem find?_put_of_ne (h : other ≠ key) (value : α) (entries : List (Data × α)) :
    find? (.text other) (put (.text key) value entries) = find? (.text other) entries :=
  find?_put_of_ne_text (fun heq => h (Data.text.inj heq).symm) value entries

/-- Of values put under different keys each one is found, and under all other keys what was there before. -/
theorem find?_foldl_put {added : List (String × α)} (hnodup : (added.map Prod.fst).Nodup) (key : String)
    (entries : List (Data × α)) :
    find? (.text key) (added.foldl (fun found entry => put (.text entry.1) entry.2 found) entries) =
      (added.lookup key).or (find? (.text key) entries) := by
  induction added generalizing entries with
  | nil => rfl
  | cons entry added ih =>
    obtain ⟨first, value⟩ := entry
    obtain ⟨hfirst, hrest⟩ := List.nodup_cons.mp hnodup
    rw [List.foldl_cons, ih hrest]
    by_cases h : key = first
    · rw [h, lookup_eq_none_of_not_mem hfirst, find?_put_self, List.lookup_cons_self]
      rfl
    · have hkey : (key == first) = false := beq_false_of_ne h
      rw [find?_put_of_ne h, List.lookup_cons, hkey]

theorem put_of_not_mem {fields : List (String × α)} (h : key ∉ fields.map Prod.fst) (value : α) :
    put (.text key) value (fields.map fun field => (.text field.1, field.2)) =
      (fields ++ [(key, value)]).map fun field => (.text field.1, field.2) := by
  induction fields with
  | nil => rfl
  | cons field fields ih =>
    rw [List.map_cons, List.mem_cons, not_or] at h
    have hne : ¬ sameKey (.text field.1) (.text key) = true := mt sameKey_text_iff.mp fun heq => h.1 (text.inj heq).symm
    rw [List.map_cons, put, if_neg hne, ih h.2, List.cons_append, List.map_cons]

/-- Entries whose keys all differ stay as they are. -/
theorem collect_of_nodup {fields : List (String × α)} (h : (fields.map Prod.fst).Nodup) :
    collect (fields.map fun field => (text field.1, field.2)) = fields.map fun field => (text field.1, field.2) := by
  have hfold : ∀ done : List (String × α), ((done ++ fields).map Prod.fst).Nodup →
      (fields.map fun field => (text field.1, field.2)).foldl (fun found entry => put entry.1 entry.2 found)
        (done.map fun field => (text field.1, field.2)) = (done ++ fields).map fun field => (text field.1, field.2) := by
    clear h
    induction fields with
    | nil =>
      intro done _
      rw [List.append_nil]
      rfl
    | cons field fields ih =>
      intro done hdone
      have hnew : field.1 ∉ done.map Prod.fst := not_mem_of_nodup_append hdone
      rw [List.append_cons] at hdone ⊢
      rw [List.map_cons, List.foldl_cons, put_of_not_mem hnew, ih _ hdone]
  exact hfold [] h

theorem get?_record (key : String) (fields : List (String × Data)) : (record fields).get? key = fields.lookup key := by
  rw [record, get?]
  induction fields with
  | nil => rfl
  | cons field fields ih =>
    obtain ⟨first, value⟩ := field
    by_cases h : key = first
    · simp [find?, sameKey_text_iff, h]
    · have hkey : (key == first) = false := beq_false_of_ne h
      rw [List.lookup_cons, hkey, ← ih, List.map_cons, find?, if_neg (by simpa [sameKey_text_iff] using Ne.symm h)]

end Data

end CodeCensus
