import CodeCensus.Proofs.Declaration.LineEnds
import CodeCensus.Proofs.SourceFile.Scoring

/-! The functions of a file and the style of its line ends. The branches that score code are told alike with and
without carriage returns, and so are all heads of functions but those that are divided in certain ways by the end
of a line. In Ruby every head is, that the end of the text does not end: the rest of its line may hold spaces, and a
carriage return is none. -/

namespace CodeCensus

open Text Pattern

/-! ## Scores -/

theorem BranchSet.ignoresReturns_of_mem {b : BranchSet} (hb : b ∈ all) {p : Pattern} (hp : p ∈ b.patterns) :
    p.opening.mayBeEmpty = false ∧ p.ignoresReturns [] false = true := by
  have hall : (all.all fun b => b.patterns.all fun p => !p.opening.mayBeEmpty && p.ignoresReturns [] false) = true := by
    decide
  have hpattern := List.all_eq_true.mp (List.all_eq_true.mp hall b hb) p hp
  rwa [Bool.and_eq_true, Bool.not_eq_true'] at hpattern

theorem Support.IsStock.ignoresReturns {s : Support} (h : s.IsStock) : IgnoresReturns s.score := by
  intro body hr
  obtain ⟨sets, -, hsets, hpatterns⟩ := h.branchSet
  have hcount (p : Pattern) (hp : p ∈ s.branchSet.patterns) : p.count (bare body) = p.count body := by
    rw [hpatterns] at hp
    obtain ⟨b, hb, hp⟩ := List.mem_flatMap.mp hp
    obtain ⟨hempty, hignores⟩ := BranchSet.ignoresReturns_of_mem (hsets b hb) hp
    exact count_bare_of_ignoresReturns hr hempty hignores
  exact Nat.le_antisymm (branchScore_le fun p hp => (hcount p hp).le) (branchScore_le fun p hp => (hcount p hp).ge)

/-! ## Heads that line ends divide -/

namespace Functions

def javaModifiers : List String :=
  ["public", "private", "protected", "static", "final", "abstract", "synchronized", "native", "default"]

def csharpModifiers : List String :=
  ["public", "private", "protected", "internal", "static", "virtual", "override", "abstract", "sealed", "async",
    "extern", "unsafe", "partial", "new"]

/-- Heads that a base language reads otherwise where its lines end with a carriage return. -/
def dividedHeads : String → List Pattern
  | "javascript" | "typescript" | "vue" | "svelte" => [methodWithoutResult, arrowWithoutResult]
  | "java" => [throwsNothing javaModifiers]
  | "csharp" => [throwsNothing csharpModifiers]
  | "ruby" => [headBeforeFeed]
  | _ => []

variable {score : Scorer} {content : List Char}

theorem not_spans_of_foundIn {p : Pattern} (hempty : p.opening.mayBeEmpty = false) (h : p.foundIn content = false) :
    ∀ i j, ¬ p.Spans content i j :=
  fun i j hspans => Bool.eq_false_iff.mp h ((foundIn_iff hempty).mpr ⟨i, j, hspans⟩)

/-- An extractor of the library finds the same functions with and without carriage returns, if no head is divided. -/
theorem keys_of_named {named : String × (Scorer → List Char → List Function)}
    (hnamed : named ∈ Registry.functionExtractors) (hscore : IgnoresReturns score) (hreturns : '\r' ∉ content)
    (hdivided : ∀ p ∈ dividedHeads named.1, p.foundIn content = false) :
    (named.2 score (withReturns content)).map Function.key = (named.2 score content).map Function.key := by
  have hr := returnsEndLines_withReturns hreturns
  have hbare := bare_withReturns hreturns
  have hnone {p : Pattern} (hempty : p.opening.mayBeEmpty = false) (hp : p ∈ dividedHeads named.1) :
      ∀ i j, ¬ p.Spans (bare (withReturns content)) i j := by
    rw [hbare]
    exact not_spans_of_foundIn hempty (hdivided p hp)
  suffices hkeys : (named.2 score (bare (withReturns content))).map Function.key =
      (named.2 score (withReturns content)).map Function.key by
    rw [← hkeys, hbare]
  simp only [Registry.functionExtractors, List.mem_cons, List.not_mem_nil, or_false] at hnamed
  rcases hnamed with rfl | rfl | rfl | rfl | rfl | rfl | rfl | rfl
  · exact keys_script hr hscore (hnone (by decide) (.tail _ (.head _))) (hnone (by decide) (.head _))
  · exact keys_python hr hscore
  · exact keys_typed hr hscore (corresponds_typedMethod hr (by decide) (hnone (by decide) (.head _))) (by decide)
  · exact keys_typed hr hscore (corresponds_typedMethod hr (by decide) (hnone (by decide) (.head _))) (by decide)
  · exact keys_go hr hscore
  · exact keys_rust hr hscore
  · exact keys_php hr hscore
  · refine keys_ruby hr hscore (corresponds_rubyHead hreturns fun i j => ?_)
    exact not_spans_of_foundIn (by decide) (hdivided headBeforeFeed (.head _)) i j

end Functions

namespace Registry

open Functions

/-- A language of the library has an extractor of the library for its functions, or none. -/
theorem functions_of_mem_standard : ∀ entry ∈ standard.entries, entry.2.functions = none ∨
    ∃ named ∈ functionExtractors, dividedHeads named.1 = dividedHeads entry.1 ∧
      entry.2.functions = some fun score text => madeAll (named.2 score text) := by
  simp only [standard, List.forall_mem_cons]
  have hscript : ("javascript", script) ∈ functionExtractors := .head _
  exact ⟨.inr ⟨_, hscript, rfl, rfl⟩, .inr ⟨_, hscript, rfl, rfl⟩, .inr ⟨_, hscript, rfl, rfl⟩,
    .inr ⟨_, hscript, rfl, rfl⟩, .inr ⟨("python", python), by simp [functionExtractors], rfl, rfl⟩,
    .inr ⟨("java", java), by simp [functionExtractors], rfl, rfl⟩,
    .inr ⟨("csharp", csharp), by simp [functionExtractors], rfl, rfl⟩,
    .inr ⟨("go", go), by simp [functionExtractors], rfl, rfl⟩,
    .inr ⟨("rust", rust), by simp [functionExtractors], rfl, rfl⟩,
    .inr ⟨("php", php), by simp [functionExtractors], rfl, rfl⟩,
    .inr ⟨("ruby", ruby), by simp [functionExtractors], rfl, rfl⟩, .inl trivial, .inl trivial, .inl trivial,
    .inl trivial, .inl trivial, .inl trivial, List.forall_mem_nil _⟩

/-- The functions that a language of the library finds in a text are those that it finds in the text with carriage
returns, by their names, lines and scores, if no head of a function is divided by the end of a line. -/
theorem keys_withReturns {language : String} {extract : Scorer → List Char → Except Fault (List (Found Function))}
    (hextract : (standard.supportFor language).functions = some extract) {content : List Char}
    (hreturns : '\r' ∉ content)
    (hdivided : ∀ p ∈ dividedHeads (Language.base language), p.foundIn content = false) :
    ∃ found found', extract (standard.supportFor language).score content = madeAll found ∧
      extract (standard.supportFor language).score (withReturns content) = madeAll found' ∧
      found'.map Function.key = found.map Function.key := by
  have hscore : IgnoresReturns (standard.supportFor language).score :=
    (isStock_standard.supportFor language).ignoresReturns
  cases hlookup : standard.entries.lookup (Language.base language) with
  | none =>
    rw [supportFor, hlookup] at hextract
    cases hextract
  | some s =>
    rcases functions_of_mem_standard _ (mem_of_lookup_eq_some hlookup) with hnone | ⟨named, hnamed, hheads, hfunctions⟩
    · rw [supportFor, hlookup, Option.getD_some, hnone] at hextract
      cases hextract
    · rw [supportFor, hlookup, Option.getD_some, hfunctions] at hextract
      obtain rfl := Option.some.inj hextract
      exact ⟨_, _, rfl, rfl, keys_of_named hnamed hscore hreturns (hheads ▸ hdivided)⟩

/-- A method in Java whose exceptions stand on a line of their own. -/
def throwingMethod : List Char := "int f(int a)\n    throws E \x7b\n  if (a > 0) return a;\n\x7d\n".toList

theorem keys_withReturns_throwingMethod :
    (standard.supportFor "java-backend").functions = some (fun score text => madeAll (java score text)) ∧
    '\r' ∉ throwingMethod ∧
    (∀ p ∈ dividedHeads (Language.base "java-backend"), p.foundIn throwingMethod = false) ∧
    (java (standard.supportFor "java-backend").score throwingMethod).map Function.key = [("f", 1, 2)] ∧
    ∃ found found', madeAll (java (standard.supportFor "java-backend").score throwingMethod) = madeAll found ∧
      madeAll (java (standard.supportFor "java-backend").score (withReturns throwingMethod)) = madeAll found' ∧
      found'.map Function.key = found.map Function.key := by
  have hbase : Language.base "java-backend" = "java" := by decide +kernel
  have hsupport : standard.supportFor "java-backend" = supportNamed .brace "java" := by
    rw [supportFor, hbase]
    rfl
  have hfunctions : (standard.supportFor "java-backend").functions =
      some fun score text => madeAll (java score text) := by
    rw [hsupport]
    rfl
  have hreturns : '\r' ∉ throwingMethod := by decide +kernel
  have hdivided : ∀ p ∈ dividedHeads (Language.base "java-backend"), p.foundIn throwingMethod = false := by
    rw [hbase]
    exact List.forall_mem_singleton.mpr (by decide +kernel)
  refine ⟨hfunctions, hreturns, hdivided, ?_, keys_withReturns hfunctions hreturns hdivided⟩
  rw [hsupport]
  decide +kernel

theorem madeAll_injective {α : Type} {found found' : List α} (h : madeAll found = madeAll found') : found = found' := by
  refine List.map_injective_iff.mpr (fun _ _ hmade => ?_) (Except.ok.inj h)
  exact Found.made.inj hmade

theorem keys_ne_withReturns : ¬ ∀ (language : String) (content : List Char)
    (extract : Scorer → List Char → Except Fault (List (Found Function))),
    (standard.supportFor language).functions = some extract → '\r' ∉ content →
      ∃ found found', extract (standard.supportFor language).score content = madeAll found ∧
        extract (standard.supportFor language).score (withReturns content) = madeAll found' ∧
        found'.map Function.key = found.map Function.key := by
  intro h
  have hbase : Language.base "ruby" = "ruby" := by decide +kernel
  have hsupport : standard.supportFor "ruby" = supportNamed .ruby "ruby" := by
    rw [supportFor, hbase]
    rfl
  obtain ⟨found, found', hfound, hfound', hkeys⟩ := h "ruby" "def foo\nend\n".toList
    (fun score text => madeAll (ruby score text)) (by rw [hsupport]; rfl) (by decide +kernel)
  rw [← madeAll_injective hfound, ← madeAll_injective hfound', hsupport] at hkeys
  exact absurd hkeys (by decide +kernel)

end Registry

end CodeCensus
