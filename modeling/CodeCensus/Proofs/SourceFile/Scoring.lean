import CodeCensus.Proofs.Declaration.Bodies
import CodeCensus.Proofs.SourceFile.Outcome
import Mathlib.Data.Nat.Basic

/-! The functions of a file score no higher than the file, whatever languages are registered with
the branch sets and function extractors of the library. -/

namespace CodeCensus

open Pattern

/-- A set that comes with the library, or several of them together. -/
def BranchSet.IsStock (b : BranchSet) : Prop :=
  ∃ sets : List BranchSet, sets ≠ [] ∧ (∀ s ∈ sets, s ∈ BranchSet.all) ∧
    b.patterns = sets.flatMap BranchSet.patterns

structure Support.IsStock (s : Support) : Prop where
  branches : ∀ b, s.branches = some b → b.IsStock
  functions : ∀ extract, s.functions = some extract → ∃ named ∈ Registry.functionExtractors,
    extract = fun score text => Registry.madeAll (named.2 score text)

/-- All languages of a registry are put together from what comes with the library. -/
def Registry.IsStock (r : Registry) : Prop := ∀ entry ∈ r.entries, entry.2.IsStock

namespace BranchSet

theorem isStock_of_mem {b : BranchSet} (h : b ∈ all) : b.IsStock :=
  ⟨[b], by simp, by simpa using h, by simp⟩

variable {b : BranchSet}

theorem IsStock.lossless (h : b.IsStock) : ∀ p ∈ b.patterns, p.Lossless := by
  obtain ⟨sets, -, hsets, hpatterns⟩ := h
  rw [hpatterns]
  intro p hp
  obtain ⟨s, hs, hps⟩ := List.mem_flatMap.mp hp
  exact lossless_of_mem (hsets s hs) p hps

theorem IsStock.ternaryMark_mem (h : b.IsStock) : ternaryMark ∈ b.patterns := by
  obtain ⟨sets, hne, hsets, hpatterns⟩ := h
  obtain ⟨s, rest, rfl⟩ := List.exists_cons_of_ne_nil hne
  rw [hpatterns]
  exact List.mem_flatMap.mpr ⟨s, List.mem_cons_self,
    BranchSet.ternaryMark_mem (hsets s List.mem_cons_self)⟩

end BranchSet

namespace Support.IsStock

variable {s : Support}

theorem branchSet (h : s.IsStock) : s.branchSet.IsStock := by
  rw [Support.branchSet]
  cases hb : s.branches with
  | none => exact BranchSet.isStock_of_mem List.mem_cons_self
  | some b => exact h.branches b hb

theorem of_nothing : ({} : Support).IsStock where
  branches _ h := absurd h (by simp)
  functions _ h := absurd h (by simp)

theorem of_branches {b : BranchSet} (hb : b ∈ BranchSet.all) :
    ({ branches := some b } : Support).IsStock where
  branches b' h := by
    obtain rfl : b = b' := Option.some.inj h
    exact BranchSet.isStock_of_mem hb
  functions _ h := absurd h (by simp)

theorem supportNamed {b : BranchSet} (hb : b ∈ BranchSet.all) (extractors : String) :
    (Registry.supportNamed b extractors).IsStock where
  branches b' h := by
    obtain rfl : b = b' := Option.some.inj h
    exact BranchSet.isStock_of_mem hb
  functions extract h := by
    obtain ⟨f, hf, rfl⟩ := Option.map_eq_some_iff.mp h
    obtain ⟨before, after, hlist, -⟩ := List.lookup_eq_some_iff.mp hf
    exact ⟨(extractors, f), by simp [hlist], rfl⟩

end Support.IsStock

namespace Registry

variable {r : Registry}

theorem IsStock.supportFor (h : r.IsStock) (language : String) :
    (r.supportFor language).IsStock := by
  rw [Registry.supportFor]
  cases hlookup : r.entries.lookup (Language.base language) with
  | none => exact Support.IsStock.of_nothing
  | some s =>
    obtain ⟨before, after, hlist, -⟩ := List.lookup_eq_some_iff.mp hlookup
    exact h (Language.base language, s) (by simp [hlist])

theorem IsStock.register (h : r.IsStock) {s : Support} (hs : s.IsStock) (language : String) :
    (r.register language s).IsStock := by
  intro entry hentry
  rcases List.mem_cons.mp hentry with rfl | hentry
  · exact hs
  · exact h entry (List.mem_of_mem_filter hentry)

theorem isStock_standard : standard.IsStock := by
  have hbrace : BranchSet.brace ∈ BranchSet.all := by simp [BranchSet.all]
  have hpython : BranchSet.python ∈ BranchSet.all := by simp [BranchSet.all]
  have hgo : BranchSet.go ∈ BranchSet.all := by simp [BranchSet.all]
  have hrust : BranchSet.rust ∈ BranchSet.all := by simp [BranchSet.all]
  have hruby : BranchSet.ruby ∈ BranchSet.all := by simp [BranchSet.all]
  simp only [IsStock, standard, List.forall_mem_cons]
  exact ⟨.supportNamed hbrace _, .supportNamed hbrace _, .supportNamed hbrace _,
    .supportNamed hbrace _, .supportNamed hpython _, .supportNamed hbrace _, .supportNamed hbrace _,
    .supportNamed hgo _, .supportNamed hrust _, .supportNamed hbrace _, .supportNamed hruby _,
    .of_branches hbrace, .of_branches hbrace, .of_branches hbrace, .of_branches hbrace,
    .of_branches hbrace, .of_branches hbrace, by simp⟩

theorem isStock_foldl_register {changes : List (String × Support)} (h : ∀ c ∈ changes, c.2.IsStock)
    (hr : r.IsStock) : (changes.foldl (fun r c => r.register c.1 c.2) r).IsStock := by
  induction changes generalizing r with
  | nil => exact hr
  | cons c changes ih =>
    exact ih (fun c' hc' => h c' (List.mem_cons_of_mem c hc'))
      (hr.register (h c List.mem_cons_self) c.1)

end Registry

namespace Functions

variable {score : Scorer} {text : List Char} {f : Function}

theorem scoredIn_of_mem {named : String × (Scorer → List Char → List Function)}
    (hnamed : named ∈ Registry.functionExtractors) (h : f ∈ named.2 score text) :
    ScoredIn score text f := by
  simp only [Registry.functionExtractors, List.mem_cons, List.not_mem_nil, or_false] at hnamed
  rcases hnamed with rfl | rfl | rfl | rfl | rfl | rfl | rfl | rfl
  · exact scoredIn_script h
  · exact scoredIn_python h
  · exact scoredIn_typed h
  · exact scoredIn_typed h
  · exact scoredIn_go h
  · exact scoredIn_rust h
  · exact scoredIn_php h
  · exact scoredIn_ruby h

end Functions

namespace SourceFile

variable {r : Registry} {maxChars : Int} {path content : String}

/-- An excerpt scored for a language scores no higher than the file. -/
theorem score_le_fileComplexity (hr : r.IsStock) (language : String) {text b : List Char}
    (h : Excerpt text b) : (r.supportFor language).score b ≤ fileComplexity r language text := by
  rw [fileComplexity, Support.score]
  -- a language without branches is scored by ternaries alone, which every set of the library counts
  split
  · exact branchScore_le fun p hp =>
      ((hr.supportFor language).branchSet.lossless p hp).count_excerpt_le h
  · rename_i hbranches
    have hternary : (r.supportFor language).branchSet = .ternary := by
      rw [Support.branchSet, Option.not_isSome_iff_eq_none.mp hbranches]
      rfl
    rw [hternary, Support.score]
    exact branchScore_singleton_le (hr.supportFor _).branchSet.ternaryMark_mem
      (BranchSet.lossless_ternaryMark.count_excerpt_le h)

theorem scoredIn_of_analyse (hr : r.IsStock) {file : SourceFile}
    (h : analyse r path content = .ok file) {f : Function} (hf : f ∈ file.functions) :
    Functions.ScoredIn (r.supportFor (Language.ofPath path)).score content.toList f := by
  obtain ⟨⟨found, hfound, hrecords⟩, -⟩ := analyse_eq_ok h
  cases hextract : (r.supportFor (Language.ofPath path)).functions with
  | none =>
    rw [hextract] at hfound
    obtain rfl : [] = found := by simpa [extracted] using hfound
    obtain hnil : [] = file.functions := by simpa [Found.records] using hrecords
    exact absurd (hnil ▸ hf) List.not_mem_nil
  | some extract =>
    obtain ⟨named, hnamed, rfl⟩ := (hr.supportFor _).functions extract hextract
    rw [hextract] at hfound
    obtain rfl := Except.ok.inj (show Except.ok _ = Except.ok found from hfound)
    rw [Found.records_map_made] at hrecords
    exact Functions.scoredIn_of_mem hnamed (Except.ok.inj hrecords ▸ hf)

/-- No function scores below one or above its file, however the branch sets and function extractors
of the library have been registered. -/
theorem complexity_mem_functions_le (changes : List (String × Support))
    (h : ∀ c ∈ changes, c.2.IsStock) (maxChars : Int) (path content : String) :
    ∀ f ∈ (parse (changes.foldl (fun r c => r.register c.1 c.2) .standard) maxChars
        path content).1.functions,
      1 ≤ f.complexity ∧ f.complexity ≤
        (parse (changes.foldl (fun r c => r.register c.1 c.2) .standard) maxChars
          path content).1.complexity := by
  intro f hf
  have hr := Registry.isStock_foldl_register h Registry.isStock_standard
  by_cases hskip : IsSkipped maxChars path content
  · rw [parse_of_isSkipped hskip] at hf
    exact absurd hf List.not_mem_nil
  · rw [parse_of_not_isSkipped hskip] at hf ⊢
    cases hanalyse :
      analyse (changes.foldl (fun r c => r.register c.1 c.2) .standard) path content with
    | error e =>
      rw [hanalyse] at hf
      exact absurd hf List.not_mem_nil
    | ok file =>
      rw [hanalyse] at hf
      obtain ⟨b, hb, hscore⟩ := scoredIn_of_analyse hr hanalyse hf
      obtain ⟨-, -, -, -, -, -, -, -, -, hcomplexity⟩ := analyse_eq_ok hanalyse
      rw [hscore]
      refine ⟨one_le_branchScore _ b, ?_⟩
      change _ ≤ file.complexity
      rw [hcomplexity]
      exact score_le_fileComplexity hr _ hb

theorem complexity_mem_functions_le_mixed :
    (parse ([("python", Registry.supportNamed .ruby "javascript")].foldl
        (fun r c => r.register c.1 c.2) .standard) 100 "a.py"
        "function f() \x7b if (x && y) \x7b\x7d \x7d").1.functions.map (fun f => f.complexity) = [3] ∧
    ∀ f ∈ (parse ([("python", Registry.supportNamed .ruby "javascript")].foldl
        (fun r c => r.register c.1 c.2) .standard) 100 "a.py"
        "function f() \x7b if (x && y) \x7b\x7d \x7d").1.functions,
      1 ≤ f.complexity ∧ f.complexity ≤
        (parse ([("python", Registry.supportNamed .ruby "javascript")].foldl
          (fun r c => r.register c.1 c.2) .standard) 100 "a.py"
          "function f() \x7b if (x && y) \x7b\x7d \x7d").1.complexity := by
  have hruby : BranchSet.ruby ∈ BranchSet.all := by simp [BranchSet.all]
  refine ⟨by decide +kernel, complexity_mem_functions_le _ (fun c hc => ?_) 100 "a.py" _⟩
  obtain rfl := List.mem_singleton.mp hc
  exact .supportNamed hruby "javascript"

end SourceFile

/-! ## How large a complexity can get

No pattern has more matches than there are places in a text. -/

namespace Pattern

theorem length_allFrom_le (p : Pattern) (o : Opening) (times : Nat) (c : Cursor)
    (found : List Match) : (p.allFrom o times c found).length ≤ found.length + times := by
  induction times generalizing c found with
  | zero =>
    rw [allFrom, List.length_reverse]
    exact Nat.le_refl _
  | succ times ih =>
    rw [allFrom]
    split
    · rw [List.length_reverse]
      exact Nat.le_add_right _ _
    · rename_i m _
      split
      · rw [List.length_reverse, List.length_cons]
        omega
      · rename_i c' _
        have hrest := ih c' (m :: found)
        rw [List.length_cons] at hrest
        omega

theorem count_le_length (p : Pattern) (text : List Char) : p.count text ≤ text.length + 1 := by
  have hle := p.length_allFrom_le p.opening (text.length + 1) (Cursor.start text) []
  rwa [List.length_nil, Nat.zero_add] at hle

end Pattern

theorem branchScore_le_length (patterns : List Pattern) (text : List Char) :
    branchScore patterns text ≤ 1 + patterns.length * (text.length + 1) := by
  rw [branchScore_eq]
  refine Nat.add_le_add_left ?_ 1
  induction patterns with
  | nil => exact Nat.zero_le _
  | cons p patterns ih =>
    have hp := p.count_le_length text
    have hsplit : totalCount (p :: patterns) text = p.count text + totalCount patterns text := rfl
    rw [hsplit, List.length_cons, Nat.succ_mul]
    omega

/-- Every language of a registry is scored by at most so many patterns. -/
def Registry.ScoresBy (r : Registry) (n : Nat) : Prop :=
  ∀ language, (r.supportFor language).branchSet.patterns.length ≤ n

namespace Registry

theorem scoresBy_of_entries {r : Registry} {n : Nat} (hn : 1 ≤ n)
    (h : ∀ entry ∈ r.entries, entry.2.branchSet.patterns.length ≤ n) : r.ScoresBy n := by
  intro language
  rw [supportFor]
  cases hlookup : r.entries.lookup (Language.base language) with
  | none => exact hn
  | some support =>
    obtain ⟨before, after, hlist, -⟩ := List.lookup_eq_some_iff.mp hlookup
    exact h (Language.base language, support) (by simp [hlist])

theorem ScoresBy.mono {r : Registry} {n n' : Nat} (h : r.ScoresBy n) (hle : n ≤ n') : r.ScoresBy n' :=
  fun language => (h language).trans hle

/-- No branch set of the library has more than nine patterns. -/
theorem scoresBy_standard : standard.ScoresBy 9 :=
  scoresBy_of_entries (by decide) (by decide)

end Registry

namespace SourceFile

variable {r : Registry} {n : Nat}

theorem fileComplexity_le (hr : r.ScoresBy n) (language : String) (text : List Char) :
    fileComplexity r language text ≤ 1 + n * (text.length + 1) := by
  have hscore (language : String) :
      (r.supportFor language).score text ≤ 1 + n * (text.length + 1) := by
    have hle := branchScore_le_length (r.supportFor language).branchSet.patterns text
    have hpatterns := Nat.mul_le_mul_right (text.length + 1) (hr language)
    exact hle.trans (Nat.add_le_add_left hpatterns 1)
  rw [fileComplexity]
  split
  · exact hscore language
  · exact hscore _

theorem complexity_parse_le (hr : r.ScoresBy n) (maxChars : Int) (path content : String) :
    (parse r maxChars path content).1.complexity ≤ 1 + n * (content.length + 1) := by
  by_cases hskip : IsSkipped maxChars path content
  · rw [parse_of_isSkipped hskip]
    exact Nat.zero_le _
  · rw [parse_of_not_isSkipped hskip]
    cases hanalyse : analyse r path content with
    | error e => exact Nat.zero_le _
    | ok file =>
      obtain ⟨-, -, -, -, -, -, -, -, -, hcomplexity⟩ := analyse_eq_ok hanalyse
      have hle := fileComplexity_le hr (Language.ofPath path) content.toList
      rw [String.length_toList] at hle
      exact hcomplexity.trans_le hle

end SourceFile

end CodeCensus
