import CodeCensus.Proofs.Census.Statistics
import CodeCensus.Proofs.Lookup
import Mathlib.Data.List.Induction

/-! A census balances: its totals, its counts by language, its lists of issues, directories and
dependencies all come from the files and the listing it was taken of, with nothing counted twice and
nothing left out. -/

namespace CodeCensus

/-! ## Lines by language -/

theorem lookup_addCount (name : String) (n : Int) (counts : List (String × Int)) (other : String) :
    (addCount name n counts).lookup other =
      if other = name then some ((counts.lookup name).getD 0 + n) else counts.lookup other := by
  induction counts with
  | nil =>
    by_cases h : other = name
    · simp [addCount, h]
    · simp [addCount, h]
  | cons entry rest ih =>
    obtain ⟨first, m⟩ := entry
    by_cases hfirst : first = name
    · subst hfirst
      by_cases h : other = first
      · simp [addCount, h]
      · have hother : (other == first) = false := by simpa using h
        simp [addCount, h, List.lookup_cons, hother]
    · have hname : (name == first) = false := by simpa using fun e : name = first => hfirst e.symm
      by_cases h : other = first
      · have hne : ¬ other = name := fun e => hfirst (h.symm.trans e)
        simp [addCount, hfirst, h]
      · have hother : (other == first) = false := by simpa using h
        simp only [addCount, hfirst, if_false, List.lookup_cons, hother, hname, ih]

theorem sum_addCount (name : String) (n : Int) (counts : List (String × Int)) :
    ((addCount name n counts).map Prod.snd).sum = (counts.map Prod.snd).sum + n := by
  induction counts with
  | nil => simp [addCount]
  | cons entry rest ih =>
    obtain ⟨first, m⟩ := entry
    by_cases hfirst : first = name
    · simp only [addCount, hfirst, if_true, List.map_cons, List.sum_cons]
      omega
    · simp only [addCount, hfirst, if_false, List.map_cons, List.sum_cons, ih]
      omega

/-- The lines of the files whose extension stands for a language. -/
def linesIn (language : String) (files : List SourceFile) : Nat :=
  ((files.filter fun f => Language.displayName? f.path = some language).map SourceFile.lines).sum

/-- The lines of the files whose extension stands for some language. -/
def linesInAny (files : List SourceFile) : Nat :=
  ((files.filter fun f => (Language.displayName? f.path).isSome).map SourceFile.lines).sum

theorem linesInAny_le (files : List SourceFile) :
    linesInAny files ≤ (files.map SourceFile.lines).sum := by
  have hsublist : (files.filter fun f => (Language.displayName? f.path).isSome).Sublist files :=
    List.filter_sublist
  exact (hsublist.map SourceFile.lines).sum_le_sum fun _ _ => Nat.zero_le _

theorem languagesOf_concat (files : List SourceFile) (f : SourceFile) :
    Tally.languagesOf (files ++ [f]) =
      (Tally.languagesOf files).addTo (Language.displayName? f.path) f.lines := by
  rw [Tally.languagesOf, List.foldl_append, List.foldl_cons, List.foldl_nil, ← Tally.languagesOf]

theorem linesIn_concat (language : String) (files : List SourceFile) (f : SourceFile) :
    linesIn language (files ++ [f]) = linesIn language files +
      if Language.displayName? f.path = some language then f.lines else 0 := by
  rw [linesIn, List.filter_append, List.map_append, List.sum_append, ← linesIn]
  by_cases h : Language.displayName? f.path = some language
  · simp [h]
  · simp [h]

theorem linesInAny_concat (files : List SourceFile) (f : SourceFile) :
    linesInAny (files ++ [f]) = linesInAny files +
      if (Language.displayName? f.path).isSome then f.lines else 0 := by
  rw [linesInAny, List.filter_append, List.map_append, List.sum_append, ← linesInAny]
  by_cases h : (Language.displayName? f.path).isSome
  · simp [h]
  · simp [h]

/-- Some file's extension stands for a language. -/
def Mentions (files : List SourceFile) (language : String) : Prop :=
  ∃ f ∈ files, Language.displayName? f.path = some language

theorem mentions_concat (files : List SourceFile) (f : SourceFile) (language : String) :
    Mentions (files ++ [f]) language ↔
      Mentions files language ∨ Language.displayName? f.path = some language := by
  simp only [Mentions, List.mem_append, List.mem_singleton, or_and_right, exists_or, exists_eq_left]

theorem linesIn_of_not_mentions {files : List SourceFile} {language : String}
    (h : ¬ Mentions files language) : linesIn language files = 0 := by
  have hempty : (files.filter fun f => Language.displayName? f.path = some language) = [] := by
    rw [List.filter_eq_nil_iff]
    intro f hf hmapped
    exact h ⟨f, hf, of_decide_eq_true hmapped⟩
  rw [linesIn, hempty]
  rfl

open Classical in
/-- The count of a language is the sum over its files, and a language without files has none. -/
theorem lookup_languagesOf (files : List SourceFile) (language : String) :
    (Tally.languagesOf files).counts.lookup language =
      if Mentions files language then some (linesIn language files : Int) else none := by
  induction files using List.reverseRecOn with
  | nil =>
    rw [if_neg (by simp [Mentions])]
    rfl
  | append_singleton files f ih =>
    rw [languagesOf_concat, linesIn_concat]
    have hmentions := mentions_concat files f language
    generalize Language.displayName? f.path = name? at hmentions ⊢
    cases name? with
    | none =>
      have hsame : Mentions (files ++ [f]) language ↔ Mentions files language := by
        simpa using hmentions
      have hnone : ¬ none = some language := Option.some_ne_none language ∘ Eq.symm
      rw [Histogram.addTo, ih, if_neg hnone, Nat.add_zero]
      exact if_congr hsame.symm rfl rfl
    | some name =>
      change (addCount name f.lines (Tally.languagesOf files).counts).lookup language = _
      rw [lookup_addCount]
      by_cases h : language = name
      · subst h
        rw [if_pos rfl, if_pos (hmentions.mpr (.inr rfl)), if_pos rfl, ih]
        by_cases hold : Mentions files language
        · rw [if_pos hold, Option.getD_some, Nat.cast_add]
        · rw [if_neg hold, Option.getD_none, linesIn_of_not_mentions hold, Nat.zero_add, Int.zero_add]
      · have hne : ¬ some name = some language := fun e => h (Option.some.inj e).symm
        have hsame : Mentions (files ++ [f]) language ↔ Mentions files language := by
          simpa [hne] using hmentions
        rw [if_neg h, ih, if_neg hne, Nat.add_zero]
        exact if_congr hsame.symm rfl rfl

theorem sum_languagesOf (files : List SourceFile) :
    ((Tally.languagesOf files).counts.map Prod.snd).sum = (linesInAny files : Int) := by
  induction files using List.reverseRecOn with
  | nil => rfl
  | append_singleton files f ih =>
    rw [languagesOf_concat, linesInAny_concat]
    generalize Language.displayName? f.path = name?
    cases name? with
    | none => exact ih
    | some name =>
      change ((addCount name f.lines (Tally.languagesOf files).counts).map Prod.snd).sum = _
      rw [sum_addCount, ih]
      rfl

/-! ## In the order of first mention -/

theorem eraseDups_concat {α : Type} [BEq α] [LawfulBEq α] (l : List α) (a : α) :
    (l ++ [a]).eraseDups = if a ∈ l then l.eraseDups else l.eraseDups ++ [a] := by
  rw [List.eraseDups_append]
  by_cases h : a ∈ l
  · simp [h, List.removeAll]
  · have hnew : [a].removeAll l = [a] := by simp [h, List.removeAll]
    rw [hnew, if_neg h]
    rfl

theorem eraseDups_sublist {α : Type} [BEq α] [LawfulBEq α] (l : List α) : l.eraseDups.Sublist l := by
  induction l using List.reverseRecOn with
  | nil => exact .slnil
  | append_singleton l a ih =>
    rw [eraseDups_concat]
    split
    · exact ih.trans (List.sublist_append_left ..)
    · exact ih.append_right [a]

theorem nodup_eraseDups {α : Type} [BEq α] [LawfulBEq α] (l : List α) : l.eraseDups.Nodup := by
  induction l using List.reverseRecOn with
  | nil => exact List.nodup_nil
  | append_singleton l a ih =>
    rw [eraseDups_concat]
    split
    · exact ih
    · rename_i hnew
      rw [← List.concat_eq_append]
      exact ih.concat fun hmem => hnew (List.mem_eraseDups.mp hmem)

namespace Directory

theorem ofEntries_concat (entries : List Entry) (e : Entry) :
    ofEntries (entries ++ [e]) =
      if e.kind ≠ .dir ∨ e.path ∈ (ofEntries entries).map Directory.path then ofEntries entries
      else ofEntries entries ++ [ofEntry e] := by
  rw [ofEntries, List.foldl_append, List.foldl_cons, List.foldl_nil, addEntry]
  have hcondition : (e.kind != .dir || (entries.foldl addEntry []).any fun d => d.path == e.path) =
      true ↔ e.kind ≠ .dir ∨ e.path ∈ (ofEntries entries).map Directory.path := by
    simp [ofEntries]
  by_cases h : e.kind ≠ .dir ∨ e.path ∈ (ofEntries entries).map Directory.path
  · rw [if_pos (hcondition.mpr h), if_pos h, ofEntries]
  · rw [if_neg fun h' => h (hcondition.mp h'), if_neg h, List.reverse_cons, ofEntries]

/-- Each path of a directory comes once, where it is listed first. -/
theorem map_path_ofEntries (entries : List Entry) :
    (ofEntries entries).map Directory.path =
      ((entries.filter fun e => e.kind = .dir).map Entry.path).eraseDups := by
  induction entries using List.reverseRecOn with
  | nil => rfl
  | append_singleton entries e ih =>
    rw [ofEntries_concat, List.filter_append, List.map_append]
    by_cases hkind : e.kind = .dir
    · have hfilter : ([e].filter fun e => e.kind = .dir).map Entry.path = [e.path] := by simp [hkind]
      have hmem : e.path ∈ (ofEntries entries).map Directory.path ↔
          e.path ∈ (entries.filter fun e => e.kind = .dir).map Entry.path := by
        rw [ih, List.mem_eraseDups]
      rw [hfilter, eraseDups_concat, ← ih]
      by_cases hseen : e.path ∈ (ofEntries entries).map Directory.path
      · rw [if_pos (.inr hseen), if_pos (hmem.mp hseen)]
      · have hnot : ¬ (e.kind ≠ .dir ∨ e.path ∈ (ofEntries entries).map Directory.path) := by
          simp [hkind, hseen]
        rw [if_neg hnot, if_neg fun h => hseen (hmem.mpr h), List.map_append]
        rfl
    · have hfilter : ([e].filter fun e => e.kind = .dir).map Entry.path = [] := by simp [hkind]
      rw [if_pos (.inl hkind), hfilter, List.append_nil]
      exact ih

/-- What is told of a directory is told by the first entry that lists it. -/
theorem find?_of_mem_ofEntries {entries : List Entry} {d : Directory} (h : d ∈ ofEntries entries) :
    ∃ e, entries.find? (fun e => e.kind = .dir ∧ e.path = d.path) = some e ∧ d = ofEntry e := by
  induction entries using List.reverseRecOn with
  | nil => exact absurd h List.not_mem_nil
  | append_singleton entries e ih =>
    rw [List.find?_append]
    rw [ofEntries_concat] at h
    split at h
    · obtain ⟨first, hfirst, hd⟩ := ih h
      exact ⟨first, by rw [hfirst]; rfl, hd⟩
    · rename_i hnew
      rcases List.mem_append.mp h with hold | hd
      · obtain ⟨first, hfirst, hd⟩ := ih hold
        exact ⟨first, by rw [hfirst]; rfl, hd⟩
      · obtain rfl := List.mem_singleton.mp hd
        push Not at hnew
        have hnone : entries.find? (fun e' => e'.kind = .dir ∧ e'.path = (ofEntry e).path) = none := by
          rw [List.find?_eq_none]
          intro e' he' hsame
          have hsame' : e'.kind = .dir ∧ e'.path = e.path := of_decide_eq_true hsame
          refine hnew.2 ?_
          rw [map_path_ofEntries, List.mem_eraseDups]
          exact List.mem_map.mpr ⟨e', List.mem_filter.mpr ⟨he', by simpa using hsame'.1⟩, hsame'.2⟩
        refine ⟨e, ?_, rfl⟩
        rw [hnone, Option.none_or, List.find?_singleton, if_pos]
        exact decide_eq_true ⟨hnew.1, rfl⟩

end Directory

namespace Census

theorem setDependencies_eq_assign (path : String) (names : List String) (found : List (String × List String)) :
    setDependencies path names found = Lax.assign path names found := by
  induction found with
  | nil => rfl
  | cons entry rest ih => rw [setDependencies, Lax.assign, ih]

theorem dependenciesOf_concat (files : List SourceFile) (f : SourceFile) :
    dependenciesOf (files ++ [f]) =
      match f.manifest with
      | none => dependenciesOf files
      | some m => setDependencies f.path (m.dependencies ++ m.devDependencies) (dependenciesOf files) := by
  rw [dependenciesOf, List.foldl_append]
  rfl

/-- The paths of the files that carry a manifest, each once. -/
theorem keys_dependenciesOf (files : List SourceFile) :
    (dependenciesOf files).map Prod.fst =
      ((files.filter fun f => f.manifest.isSome).map SourceFile.path).eraseDups := by
  induction files using List.reverseRecOn with
  | nil => rfl
  | append_singleton files f ih =>
    rw [dependenciesOf_concat, List.filter_append, List.map_append]
    cases hmanifest : f.manifest with
    | none =>
      have hfilter : ([f].filter fun f => f.manifest.isSome).map SourceFile.path = [] := by
        simp [hmanifest]
      rw [hfilter, List.append_nil]
      exact ih
    | some m =>
      have hfilter : ([f].filter fun f => f.manifest.isSome).map SourceFile.path = [f.path] := by
        simp [hmanifest]
      rw [hfilter, eraseDups_concat, ← ih]
      change (setDependencies f.path _ (dependenciesOf files)).map Prod.fst = _
      rw [setDependencies_eq_assign, Lax.keys_assign, ih]
      simp only [List.mem_eraseDups]

theorem exists_of_mem_dependenciesOf {files : List SourceFile} {entry : String × List String}
    (h : entry ∈ dependenciesOf files) :
    ∃ f ∈ files, ∃ m, f.path = entry.1 ∧ f.manifest = some m ∧
      entry.2 = m.dependencies ++ m.devDependencies := by
  induction files using List.reverseRecOn with
  | nil => exact absurd h List.not_mem_nil
  | append_singleton files f ih =>
    have hearlier (h : entry ∈ dependenciesOf files) : ∃ g ∈ files ++ [f], ∃ m,
        g.path = entry.1 ∧ g.manifest = some m ∧ entry.2 = m.dependencies ++ m.devDependencies := by
      obtain ⟨g, hg, hentry⟩ := ih h
      exact ⟨g, List.mem_append_left _ hg, hentry⟩
    rw [dependenciesOf_concat] at h
    split at h
    · exact hearlier h
    · rename_i m hmanifest
      rw [setDependencies_eq_assign] at h
      rcases Lax.mem_assign h with rfl | h
      · exact ⟨f, List.mem_append_right _ List.mem_cons_self, m, rfl, hmanifest, rfl⟩
      · exact hearlier h

/-! ## The whole census -/

/-- A census says of its own files and of a listing what they come to. -/
structure Balances (c : Census) (entries : List Entry) : Prop where
  totalFiles : c.totalFiles = c.files.length
  totalLines : c.totalLines = (c.files.map SourceFile.lines).sum
  languages : (c.languages.map Prod.fst).Nodup ∧ ∀ language,
    (Mentions c.files language →
      c.languages.lookup language = some (linesIn language c.files : Int)) ∧
    (¬ Mentions c.files language → c.languages.lookup language = none)
  languages_sum : (c.languages.map Prod.snd).sum = linesInAny c.files ∧
    (c.languages.map Prod.snd).sum ≤ c.totalLines
  complexities : c.complexity.files = c.files.map fun f => ⟨f.path, f.complexity⟩
  complexity : c.complexity.Describes ((c.files.map SourceFile.complexity).filter (0 < ·))
  testCoverage : c.testCoverage ≤ 100 ∧
    coveragePercent? (c.files.filter fun f => isTestPath f.path).length c.files.length =
      some (c.testCoverage : Int)
  issues : c.issues = c.files.flatMap Issue.ofFile
  dependencies : c.dependencies.map Prod.fst =
      ((c.files.filter fun f => f.manifest.isSome).map SourceFile.path).eraseDups ∧
    ∀ entry ∈ c.dependencies, ∃ f ∈ c.files, ∃ m, f.path = entry.1 ∧ f.manifest = some m ∧
      entry.2 = m.dependencies ++ m.devDependencies
  directories : c.directories.map Directory.path =
      ((entries.filter fun e => e.kind = .dir).map Entry.path).eraseDups ∧
    ∀ d ∈ c.directories, ∃ e,
      entries.find? (fun e => e.kind = .dir ∧ e.path = d.path) = some e ∧ d = .ofEntry e

/-- The census of any files and any listing balances. -/
theorem balances_ofTally (files : List SourceFile) (entries : List Entry) :
    (ofTally (.ofFiles files) entries).Balances entries where
  totalFiles := rfl
  totalLines := rfl
  languages := by
    refine ⟨?_, fun language => ?_⟩
    · exact (Tally.languagesOf files).distinct
    · have hlookup := lookup_languagesOf files language
      constructor
      · exact fun h => hlookup.trans (if_pos h)
      · exact fun h => hlookup.trans (if_neg h)
  languages_sum := by
    have hsum : ((ofTally (.ofFiles files) entries).languages.map Prod.snd).sum =
        (linesInAny files : Int) := sum_languagesOf files
    refine ⟨hsum, ?_⟩
    have htotal : (ofTally (.ofFiles files) entries).totalLines =
        ((files.map SourceFile.lines).sum : Nat) := rfl
    rw [hsum, htotal]
    exact_mod_cast linesInAny_le files
  complexities := rfl
  complexity := complexityOf_describes files
  testCoverage := by
    obtain ⟨n, hn, hle⟩ := exists_coveragePercent?
      (List.length_filter_le (fun f => isTestPath f.path) files)
    have hcoverage : (ofTally (.ofFiles files) entries).testCoverage = n := by
      change ((coveragePercent? _ _).getD 0).toNat = n
      rw [Tally.ofFiles]
      dsimp only
      rw [hn]
      rfl
    rw [hcoverage]
    exact ⟨hle, hn⟩
  issues := rfl
  dependencies := ⟨keys_dependenciesOf files, fun _ => exists_of_mem_dependenciesOf⟩
  directories := ⟨Directory.map_path_ofEntries entries, fun _ => Directory.find?_of_mem_ofEntries⟩

end Census

end CodeCensus
