import CodeCensus.Language.Registry
import CodeCensus.Language.Tag
import CodeCensus.Proofs.Lookup
import Mathlib.Data.List.Induction
import Mathlib.Logic.Basic

/-! What a registry knows after a series of registrations: for each base language what was registered last for
it, and no base language twice. The tag of a path is the tag of its last component, with at most one mark of the
server side at its end. -/

namespace CodeCensus

namespace Path

variable {p q : String}

theorem lowerName_congr (h : name (unify p) = name (unify q)) : lowerName p = lowerName q := by
  rw [lowerName, lowerName, h]

theorem extension_congr (h : name (unify p) = name (unify q)) : extension p = extension q := by
  rw [extension, extension, h]

end Path

namespace Language

variable {p q tag : String}

theorem isBinary_congr (h : Path.name (Path.unify p) = Path.name (Path.unify q)) :
    isBinary p = isBinary q := by
  rw [isBinary, isBinary, Path.extension_congr h]

theorem plainTag_congr (h : Path.name (Path.unify p) = Path.name (Path.unify q)) :
    plainTag p = plainTag q := by
  rw [plainTag, plainTag, Path.extension_congr h, Path.lowerName_congr h]

/-! ## The mark of the server side -/

theorem base_of_not_isSuffix (h : ¬ backendSuffix.toList <:+ tag.toList) : base tag = tag := by
  rw [base]
  exact if_neg fun hmark => h (List.isSuffixOf_iff_suffix.mp hmark)

theorem base_append_backendSuffix (tag : String) : base (tag ++ backendSuffix) = tag := by
  rw [base, String.toList_append, if_pos (List.isSuffixOf_iff_suffix.mpr (List.suffix_append ..)),
    List.length_append, Nat.add_sub_cancel, List.take_left, String.ofList_toList]

theorem not_isSuffix_of_mem_tables :
    ∀ entry ∈ extensionTags ++ nameTags, ¬ backendSuffix.toList <:+ entry.2.toList := by
  decide +kernel

/-- No tag of the tables is marked. -/
theorem not_isSuffix_plainTag (path : String) : ¬ backendSuffix.toList <:+ (plainTag path).toList := by
  rw [plainTag]
  cases hext : extensionTags.lookup (Path.extension path) with
  | some tag =>
    exact not_isSuffix_of_mem_tables _ (List.mem_append_left _ (mem_of_lookup_eq_some hext))
  | none =>
    cases hname : nameTags.lookup (Path.lowerName path) with
    | some tag =>
      exact not_isSuffix_of_mem_tables _ (List.mem_append_right _ (mem_of_lookup_eq_some hname))
    | none =>
      show ¬ backendSuffix.toList <:+ plainText.toList
      decide +kernel

theorem ofPath_eq_or (path : String) :
    ofPath path = plainTag path ∨ ofPath path = plainTag path ++ backendSuffix := by
  rw [ofPath]
  split
  · exact .inr rfl
  · exact .inl rfl

theorem base_ofPath (path : String) : base (ofPath path) = plainTag path := by
  rcases ofPath_eq_or path with h | h
  · rw [h, base_of_not_isSuffix (not_isSuffix_plainTag path)]
  · rw [h, base_append_backendSuffix]

/-- A tag is marked at most once. -/
theorem not_isSuffix_ofPath (path : String) :
    ¬ (backendSuffix ++ backendSuffix).toList <:+ (ofPath path).toList := by
  rw [String.toList_append]
  intro htwice
  rcases ofPath_eq_or path with h | h
  · rw [h] at htwice
    exact not_isSuffix_plainTag path ((List.suffix_append ..).trans htwice)
  · rw [h, String.toList_append, List.suffix_append_inj_of_length_eq rfl] at htwice
    exact not_isSuffix_plainTag path htwice.1

end Language

namespace Registry

variable {r : Registry} {language other key : String} {support : Support}

/-- The registry after some registrations, the first one first. -/
def registerAll (r : Registry) (calls : List (String × Support)) : Registry :=
  calls.foldl (fun r call => r.register call.1 call.2) r

/-- The registrations that concern a language, on whichever side it runs. -/
def callsFor (language : String) (calls : List (String × Support)) : List (String × Support) :=
  calls.filter fun call => Language.base call.1 == Language.base language

@[simp] theorem callsFor_nil (language : String) : callsFor language [] = [] := rfl

theorem callsFor_append (language : String) (before after : List (String × Support)) :
    callsFor language (before ++ after) = callsFor language before ++ callsFor language after :=
  List.filter_append _ _

theorem callsFor_cons_of_eq {call : String × Support} (h : Language.base call.1 = Language.base language)
    (calls : List (String × Support)) : callsFor language (call :: calls) = call :: callsFor language calls :=
  List.filter_cons_of_pos (beq_iff_eq.mpr h)

theorem callsFor_cons_of_ne {call : String × Support} (h : Language.base call.1 ≠ Language.base language)
    (calls : List (String × Support)) : callsFor language (call :: calls) = callsFor language calls :=
  List.filter_cons_of_neg fun hcall => h (beq_iff_eq.mp hcall)

theorem registerAll_concat (r : Registry) (calls : List (String × Support)) (call : String × Support) :
    r.registerAll (calls ++ [call]) = (r.registerAll calls).register call.1 call.2 := by
  rw [registerAll, List.foldl_append]
  rfl

/-! ## Lookups -/

theorem supportFor_congr {p q : String} (r : Registry) (h : Path.name (Path.unify p) = Path.name (Path.unify q)) :
    r.supportFor (Language.ofPath p) = r.supportFor (Language.ofPath q) := by
  rw [supportFor, supportFor, Language.base_ofPath, Language.base_ofPath, Language.plainTag_congr h]

theorem supportFor_register_of_eq (h : Language.base other = Language.base language) :
    (r.register other support).supportFor language = support := by
  rw [supportFor, register, h, List.lookup_cons_self, Option.getD_some]

theorem supportFor_register_of_ne (h : Language.base other ≠ Language.base language) :
    (r.register other support).supportFor language = r.supportFor language := by
  have hkey : (Language.base language == Language.base other) = false := beq_false_of_ne h.symm
  rw [supportFor, supportFor, register]
  dsimp only
  rw [List.lookup_cons, hkey]
  dsimp only
  rw [lookup_filter_bne h.symm]

/-- What is known of a language is what was registered last for it, or else what was known before. -/
theorem supportFor_registerAll (r : Registry) (calls : List (String × Support)) (language : String) :
    (r.registerAll calls).supportFor language =
      ((callsFor language calls).getLast?.map Prod.snd).getD (r.supportFor language) := by
  induction calls using List.reverseRecOn with
  | nil => rfl
  | append_singleton calls call ih =>
    rw [registerAll_concat, callsFor_append]
    by_cases h : Language.base call.1 = Language.base language
    · rw [supportFor_register_of_eq h, callsFor_cons_of_eq h, callsFor_nil, List.getLast?_concat,
        Option.map_some, Option.getD_some]
    · rw [supportFor_register_of_ne h, ih, callsFor_cons_of_ne h, callsFor_nil, List.append_nil]

/-- A registration makes no difference to another base language, whatever comes before and after it. -/
theorem supportFor_registerAll_of_ne {before after : List (String × Support)} {call : String × Support}
    (h : Language.base call.1 ≠ Language.base language) :
    (r.registerAll (before ++ call :: after)).supportFor language =
      (r.registerAll (before ++ after)).supportFor language := by
  have hcalls : callsFor language (before ++ call :: after) = callsFor language (before ++ after) := by
    rw [callsFor_append, callsFor_append, callsFor_cons_of_ne h]
  rw [supportFor_registerAll, supportFor_registerAll, hcalls]

/-! ## Keys -/

def keys (r : Registry) : List String := r.entries.map Prod.fst

theorem keys_register (r : Registry) (language : String) (support : Support) :
    (r.register language support).keys =
      Language.base language :: r.keys.filter fun key => key != Language.base language := by
  rw [keys, keys, register, List.map_cons, List.filter_map]
  rfl

theorem mem_keys_register :
    key ∈ (r.register language support).keys ↔ key ∈ r.keys ∨ Language.base language = key := by
  rw [keys_register, List.mem_cons, List.mem_filter, bne_iff_ne]
  constructor
  · rintro (rfl | ⟨hmem, -⟩)
    · exact .inr rfl
    · exact .inl hmem
  · rintro (hmem | rfl)
    · exact or_iff_not_imp_left.mpr fun hne => ⟨hmem, hne⟩
    · exact .inl rfl

theorem nodup_keys_register (h : r.keys.Nodup) : (r.register language support).keys.Nodup := by
  rw [keys_register, List.nodup_cons]
  refine ⟨fun hmem => ?_, h.filter _⟩
  exact bne_iff_ne.mp (List.mem_filter.mp hmem).2 rfl

theorem mem_keys_registerAll {calls : List (String × Support)} :
    key ∈ (r.registerAll calls).keys ↔ key ∈ r.keys ∨ ∃ call ∈ calls, Language.base call.1 = key := by
  induction calls using List.reverseRecOn with
  | nil => simp [registerAll]
  | append_singleton calls call ih =>
    rw [registerAll_concat, mem_keys_register, ih, or_assoc]
    simp [or_and_right, exists_or]

theorem nodup_keys_registerAll (h : r.keys.Nodup) (calls : List (String × Support)) :
    (r.registerAll calls).keys.Nodup := by
  induction calls using List.reverseRecOn with
  | nil => exact h
  | append_singleton calls call ih =>
    rw [registerAll_concat]
    exact nodup_keys_register ih

theorem nodup_keys_standard : standard.keys.Nodup := by
  decide +kernel

theorem mem_languages : language ∈ r.languages ↔ language ∈ r.keys := by
  rw [languages]
  exact List.mem_mergeSort

theorem languages_pairwise (h : r.keys.Nodup) : r.languages.Pairwise (· < ·) :=
  pairwise_mergeSort_lt id (by rwa [List.map_id])

end Registry

end CodeCensus
