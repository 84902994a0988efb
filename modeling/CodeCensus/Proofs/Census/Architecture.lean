import CodeCensus.Census.Architecture
import CodeCensus.Proofs.Census.Selection
import Mathlib.Data.List.Perm.Subperm

/-! The architecture that paths suggest. A rule that fits some paths fits them in any order, in any case of their
letters and beside any other paths. So patterns are only gained where paths are, and the architecture rises with them:
it is the highest one among those whose patterns are met. -/

namespace CodeCensus.Architecture

open Text

variable {paths more other : List String} {a b : Architecture}

/-! ## What a rule asks of paths -/

/-- A path has a word in it, letter case aside. -/
def Mentions (path word : String) : Prop := word.toList <:+: lower path.toList

/-- What a rule asks of paths. How many of them mention a word is told by those that do, each as often as it stands
there. -/
def Rule.Fits (paths : List String) : Rule → Prop
  | .all words => ∀ word ∈ words, ∃ path ∈ paths, Mentions path word
  | .any words => ∃ word ∈ words, ∃ path ∈ paths, Mentions path word
  | .moreThan count word =>
    ∃ found : List String, found.Subperm paths ∧ (∀ path ∈ found, Mentions path word) ∧ count < found.length

theorem mentions_lowercase_iff {path word : String} : Path.mentions (lowercase path) word = true ↔ Mentions path word := by
  rw [Path.mentions, occurs_iff_infix, lowercase, String.toList_ofList, Mentions]

theorem mentioned_iff {word : String} :
    mentioned (paths.map lowercase) word = true ↔ ∃ path ∈ paths, Mentions path word := by
  rw [mentioned, List.any_map, List.any_eq_true]
  refine exists_congr fun path => and_congr_right fun _ => ?_
  rw [Function.comp_apply, mentions_lowercase_iff]

theorem Rule.holds_iff {rule : Rule} : rule.holds (paths.map lowercase) = true ↔ rule.Fits paths := by
  cases rule with
  | all words =>
    rw [holds, List.all_eq_true]
    exact forall₂_congr fun word _ => mentioned_iff
  | any words =>
    rw [holds, List.any_eq_true]
    exact exists_congr fun word => and_congr_right fun _ => mentioned_iff
  | moreThan count word =>
    let mentions (path : String) : Bool := Path.mentions (lowercase path) word
    have hlength : ((paths.map lowercase).filter fun path => Path.mentions path word).length =
        (paths.filter mentions).length := by
      simp only [List.filter_map, List.length_map, Function.comp_def, mentions]
    rw [holds, decide_eq_true_iff, hlength]
    constructor
    · intro hcount
      refine ⟨paths.filter mentions, List.filter_sublist.subperm, fun path hpath => ?_, hcount⟩
      exact mentions_lowercase_iff.mp (List.mem_filter.mp hpath).2
    · rintro ⟨found, hfound, hmention, hcount⟩
      have hall : found.filter mentions = found :=
        List.filter_eq_self.mpr fun path hpath => mentions_lowercase_iff.mpr (hmention path hpath)
      have hle := (hfound.filter mentions).length_le
      rw [hall] at hle
      exact hcount.trans_le hle

instance (paths : List String) (rule : Rule) : Decidable (rule.Fits paths) := decidable_of_iff _ Rule.holds_iff

/-- A rule that fits some paths fits any in which these are found again, wherever they stand. -/
theorem Rule.Fits.mono {rule : Rule} (hrule : rule.Fits paths) (h : paths.Subperm more) : rule.Fits more := by
  have hword {word : String} : (∃ path ∈ paths, Mentions path word) → ∃ path ∈ more, Mentions path word :=
    fun ⟨path, hpath, hmention⟩ => ⟨path, h.subset hpath, hmention⟩
  cases rule with
  | all words => exact fun word hmem => hword (hrule word hmem)
  | any words =>
    obtain ⟨word, hmem, hpath⟩ := hrule
    exact ⟨word, hmem, hword hpath⟩
  | moreThan count word =>
    obtain ⟨found, hfound, hmention, hcount⟩ := hrule
    exact ⟨found, hfound.trans h, hmention, hcount⟩

/-! ## The rules that are met -/

def met (paths : List String) : List (Rule × String × Option Architecture) :=
  rules.filter fun entry => entry.1.Fits paths

/-- The architectures that the rules met stand for, in their order. -/
def standing (paths : List String) : List Architecture := (met paths).filterMap fun entry => entry.2.2

theorem detect_eq (paths : List String) :
    detect paths = ((standing paths).getLast?.getD .unknown, (met paths).map fun entry => entry.2.1) := by
  have hmet : (rules.filter fun entry => entry.1.holds (paths.map lowercase)) = met paths := by
    refine List.filter_congr fun entry _ => ?_
    rw [Bool.eq_iff_iff, Rule.holds_iff, decide_eq_true_iff]
  rw [detect, standing, ← hmet]

theorem met_sublist (h : paths.Subperm more) : (met paths).Sublist (met more) := by
  refine List.monotone_filter_right rules fun entry hentry => ?_
  rw [decide_eq_true_iff] at hentry ⊢
  exact hentry.mono h

theorem detect_perm (h : paths.Perm other) : detect other = detect paths := by
  have hmet : met other = met paths := (met_sublist h.symm.subperm).antisymm (met_sublist h.subperm)
  rw [detect_eq, detect_eq, standing, standing, hmet]

theorem detect_congr (h : List.Forall₂ Path.SameLetters paths other) : detect other = detect paths := by
  have hlowered : other.map lowercase = paths.map lowercase := by
    induction h with
    | nil => rfl
    | cons hpath _ ih =>
      rw [List.map_cons, List.map_cons, ih]
      exact congrArg (· :: _) (congrArg String.ofList (lower_congr hpath).symm)
  rw [detect, detect, hlowered]

/-! ## Architectures and their patterns -/

/-- The architectures from the lowest to the highest. -/
def ascending : List Architecture := [.unknown, .componentBased, .mvc, .clean]

def rank (a : Architecture) : Nat := ascending.idxOf a

theorem mem_ascending (a : Architecture) : a ∈ ascending := by
  cases a <;> decide

theorem rank_injective (h : a.rank = b.rank) : a = b := (List.idxOf_inj (mem_ascending a)).mp h

theorem label_injective (h : a.label = b.label) : a = b := by
  have htable : ∀ a ∈ ascending, ∀ b ∈ ascending, a.label = b.label → a = b := by decide
  exact htable a (mem_ascending a) b (mem_ascending b) h

/-- The pattern by which an architecture is recognised. -/
def pattern? : Architecture → Option String
  | .unknown => none
  | .componentBased => some "Component Architecture"
  | .mvc => some "Model-View-Controller"
  | .clean => some "Clean Architecture"

theorem standsFor_iff {entry : Rule × String × Option Architecture} (h : entry ∈ rules) :
    entry.2.2 = some a ↔ a.pattern? = some entry.2.1 := by
  have htable : ∀ entry ∈ rules, ∀ a ∈ ascending, entry.2.2 = some a ↔ a.pattern? = some entry.2.1 := by decide
  exact htable entry h a (mem_ascending a)

theorem mem_standing_iff {tag : String} (htag : a.pattern? = some tag) : a ∈ standing paths ↔ tag ∈ (detect paths).2 := by
  rw [detect_eq, standing, List.mem_filterMap, List.mem_map]
  refine exists_congr fun entry => and_congr_right fun hentry => ?_
  rw [standsFor_iff (List.mem_filter.mp hentry).1, htag, Option.some_inj, eq_comm]

theorem standing_ascends (paths : List String) : (standing paths).Pairwise fun a b => a.rank < b.rank := by
  have htable : (rules.filterMap fun entry => entry.2.2).Pairwise fun a b => a.rank < b.rank := by decide
  exact htable.sublist (List.filter_sublist.filterMap _)

/-- The architecture is the last one that a rule met stands for, and so the highest. -/
theorem detect_fst_cases (paths : List String) : (standing paths = [] ∧ (detect paths).1 = .unknown) ∨
    ((detect paths).1 ∈ standing paths ∧ ∀ a ∈ standing paths, a.rank ≤ (detect paths).1.rank) := by
  have hdetect : (detect paths).1 = (standing paths).getLast?.getD .unknown := congrArg Prod.fst (detect_eq paths)
  rcases List.eq_nil_or_concat' (standing paths) with hnil | ⟨front, last, hstanding⟩
  · rw [hnil] at hdetect
    exact .inl ⟨hnil, hdetect⟩
  · have hlast : (detect paths).1 = last := by
      rw [hdetect, hstanding, List.getLast?_concat, Option.getD_some]
    have hascends := standing_ascends paths
    rw [hstanding, List.pairwise_append] at hascends
    refine .inr ⟨?_, fun a ha => ?_⟩
    · rw [hlast, hstanding]
      exact List.mem_append_right _ List.mem_cons_self
    · rw [hlast]
      rw [hstanding] at ha
      rcases List.mem_append.mp ha with hfront | hmem
      · exact Nat.le_of_lt (hascends.2.2 a hfront last List.mem_cons_self)
      · rw [List.mem_singleton.mp hmem]

theorem rank_le_of_mem_standing (h : a ∈ standing paths) : a.rank ≤ (detect paths).1.rank := by
  rcases detect_fst_cases paths with ⟨hnil, -⟩ | ⟨-, hmax⟩
  · rw [hnil] at h
    cases h
  · exact hmax a h

theorem detect_fst_eq_iff (ha : a ≠ .unknown) :
    (detect paths).1 = a ↔ a ∈ standing paths ∧ ∀ b ∈ standing paths, b.rank ≤ a.rank := by
  constructor
  · rintro rfl
    exact (detect_fst_cases paths).resolve_left fun h => ha h.2
  · rintro ⟨hmem, hmax⟩
    rcases detect_fst_cases paths with ⟨hnil, -⟩ | ⟨hdetect, -⟩
    · rw [hnil] at hmem
      cases hmem
    · exact rank_injective (Nat.le_antisymm (hmax _ hdetect) (rank_le_of_mem_standing hmem))

theorem rank_detect_le (h : paths.Subperm more) : (detect paths).1.rank ≤ (detect more).1.rank := by
  rcases detect_fst_cases paths with ⟨-, hunknown⟩ | ⟨hmem, -⟩
  · rw [hunknown]
    exact Nat.zero_le _
  · exact rank_le_of_mem_standing (((met_sublist h).filterMap _).subset hmem)

/-- An architecture other than the unknown one is given exactly if it is the highest of those that rules met stand for. -/
theorem label_detect_eq_iff (ha : a ≠ .unknown) :
    (detect paths).1.label = a.label ↔ a ∈ standing paths ∧ ∀ b ∈ standing paths, b.rank ≤ a.rank :=
  (⟨label_injective, congrArg label⟩ : _ ↔ _).trans (detect_fst_eq_iff ha)

/-- The patterns are those whose rules fit the paths, in the order of the rules. Neither the order of the paths nor the
case of their letters makes a difference, with more paths no pattern is lost and the architecture falls no lower, and its
label is that of the highest architecture whose pattern is met. -/
theorem detect_ascends (paths : List String) :
    (detect paths).2 = ((rules.filter fun entry => entry.1.Fits paths).map fun entry => entry.2.1) ∧
    (∀ other, paths.Perm other → detect other = detect paths) ∧
    (∀ other, List.Forall₂ Path.SameLetters paths other → detect other = detect paths) ∧
    (∀ more, paths.Sublist more →
      (detect paths).2.Sublist (detect more).2 ∧ (detect paths).1.rank ≤ (detect more).1.rank) ∧
    ((detect paths).1.label = "Clean Architecture" ↔ "Clean Architecture" ∈ (detect paths).2) ∧
    ((detect paths).1.label = "MVC" ↔
      "Model-View-Controller" ∈ (detect paths).2 ∧ "Clean Architecture" ∉ (detect paths).2) ∧
    ((detect paths).1.label = "Component-Based" ↔ "Component Architecture" ∈ (detect paths).2 ∧
      "Model-View-Controller" ∉ (detect paths).2 ∧ "Clean Architecture" ∉ (detect paths).2) := by
  have hclean : .clean ∈ standing paths ↔ "Clean Architecture" ∈ (detect paths).2 := mem_standing_iff rfl
  have hmvc : .mvc ∈ standing paths ↔ "Model-View-Controller" ∈ (detect paths).2 := mem_standing_iff rfl
  have hcomponent : .componentBased ∈ standing paths ↔ "Component Architecture" ∈ (detect paths).2 := mem_standing_iff rfl
  refine ⟨congrArg Prod.snd (detect_eq paths), fun other h => detect_perm h, fun other h => detect_congr h,
    fun more h => ⟨?_, rank_detect_le h.subperm⟩, ?_, ?_, ?_⟩
  · rw [detect_eq, detect_eq]
    exact (met_sublist h.subperm).map _
  · refine (label_detect_eq_iff (show clean ≠ unknown by decide)).trans ?_
    rw [← hclean, and_iff_left_iff_imp]
    exact fun _ b _ => by cases b <;> decide
  · refine (label_detect_eq_iff (show mvc ≠ unknown by decide)).trans ?_
    rw [← hclean, ← hmvc]
    refine and_congr_right fun _ => ⟨fun hmax hmem => absurd (hmax _ hmem) (by decide), fun hno b hb => ?_⟩
    cases b with
    | clean => exact absurd hb hno
    | _ => decide
  · refine (label_detect_eq_iff (show componentBased ≠ unknown by decide)).trans ?_
    rw [← hclean, ← hmvc, ← hcomponent]
    refine and_congr_right fun _ => ⟨fun hmax => ⟨fun hmem => ?_, fun hmem => ?_⟩, fun hno b hb => ?_⟩
    · exact absurd (hmax _ hmem) (by decide)
    · exact absurd (hmax _ hmem) (by decide)
    · cases b with
      | clean => exact absurd hb hno.2
      | mvc => exact absurd hb hno.1
      | _ => decide

def componentPaths : List String := ["src/Components/A.tsx", "src/pages/services.tsx"]

def layeredPaths : List String :=
  ["lib/Domain/order.ts", "src/Components/A.tsx", "lib/infrastructure/db.ts", "src/pages/services.tsx", "application/use.ts"]

theorem detect_ascends_layered :
    componentPaths.Perm ["src/pages/services.tsx", "src/Components/A.tsx"] ∧
    detect ["src/pages/services.tsx", "src/Components/A.tsx"] = detect componentPaths ∧
    List.Forall₂ Path.SameLetters componentPaths ["SRC/components/a.tsx", "src/Pages/Services.TSX"] ∧
    detect ["SRC/components/a.tsx", "src/Pages/Services.TSX"] = detect componentPaths ∧
    componentPaths.Sublist layeredPaths ∧
    detect componentPaths = (.componentBased, ["Component Architecture", "Service Layer Pattern"]) ∧
    detect layeredPaths = (.clean, ["Component Architecture", "Service Layer Pattern", "Clean Architecture"]) ∧
    (detect componentPaths).2.Sublist (detect layeredPaths).2 ∧
    (detect componentPaths).1.rank ≤ (detect layeredPaths).1.rank := by
  have hperm : componentPaths.Perm ["src/pages/services.tsx", "src/Components/A.tsx"] := .swap ..
  have hletters : List.Forall₂ Path.SameLetters componentPaths ["SRC/components/a.tsx", "src/Pages/Services.TSX"] :=
    .cons (by unfold Path.SameLetters; decide) (.cons (by unfold Path.SameLetters; decide) .nil)
  have hmore : componentPaths.Sublist layeredPaths := .cons _ (.cons_cons _ (.cons _ (.cons_cons _ (.cons _ .slnil))))
  obtain ⟨-, horder, hcase, hrise, -⟩ := detect_ascends componentPaths
  obtain ⟨hpatterns, hrank⟩ := hrise _ hmore
  exact ⟨hperm, horder _ hperm, hletters, hcase _ hletters, hmore, by decide +kernel, by decide +kernel, hpatterns, hrank⟩

end CodeCensus.Architecture
