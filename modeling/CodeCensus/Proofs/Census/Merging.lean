import CodeCensus.Proofs.Census.Statistics
import CodeCensus.Proofs.Lookup

/-! Tallies may be merged in any grouping. Merging is associative and an empty tally changes nothing, the order of
the names in a histogram included, so what comes of neighbouring tallies depends on their order only and not on
which of them are merged first. The tallies of runs of files come to the tally of all the files. -/

namespace CodeCensus

/-! ## Counts -/

/-- A list of counts added to another and then to a third comes to the sum of all three. -/
theorem addCounts_addCounts (first second third : List (String × Int)) :
    addCounts (addCounts first second) third = addCounts first (addCounts second third) := by
  induction third generalizing second with
  | nil => rfl
  | cons entry third ih =>
    obtain ⟨name, n⟩ := entry
    calc addCounts (addCounts first second) ((name, n) :: third)
        = addCounts (addCount name n (addCounts first second)) third := rfl
      _ = addCounts (addCounts first (addCount name n second)) third := by rw [addCounts_of_addCount]
      _ = addCounts first (addCounts (addCount name n second) third) := ih (addCount name n second)

theorem addCount_of_not_mem {name : String} {counts : List (String × Int)} (h : name ∉ counts.map Prod.fst)
    (n : Int) : addCount name n counts = counts ++ [(name, n)] := by
  induction counts with
  | nil => rfl
  | cons entry counts ih =>
    obtain ⟨other, k⟩ := entry
    rw [List.map_cons, List.mem_cons, not_or] at h
    rw [addCount, if_neg (Ne.symm h.1), ih h.2, List.cons_append]

/-- Counts of names that are all new stay as they are. -/
theorem addCounts_of_nodup {counts added : List (String × Int)}
    (h : ((counts ++ added).map Prod.fst).Nodup) : addCounts counts added = counts ++ added := by
  induction added generalizing counts with
  | nil => exact (List.append_nil counts).symm
  | cons entry added ih =>
    obtain ⟨name, n⟩ := entry
    have hnew : name ∉ counts.map Prod.fst := not_mem_of_nodup_append h
    rw [List.append_cons] at h ⊢
    calc addCounts counts ((name, n) :: added)
        = addCounts (addCount name n counts) added := rfl
      _ = addCounts (counts ++ [(name, n)]) added := by rw [addCount_of_not_mem hnew]
      _ = counts ++ [(name, n)] ++ added := ih h

/-! ## Histograms and tallies -/

namespace Histogram

theorem merge_assoc (first second third : Histogram) :
    (first.merge second).merge third = first.merge (second.merge third) := by
  apply ext
  rw [counts_merge, counts_merge, counts_merge, counts_merge, addCounts_addCounts]

theorem merge_empty (h : Histogram) : h.merge empty = h := rfl

theorem empty_merge (h : Histogram) : empty.merge h = h := by
  apply ext
  rw [counts_merge]
  exact addCounts_of_nodup h.distinct

end Histogram

namespace Tally

theorem merge_assoc (first second third : Tally) :
    (first.merge second).merge third = first.merge (second.merge third) := by
  simp only [merge, mk.injEq]
  exact ⟨List.append_assoc _ _ _, Int.add_assoc _ _ _, Histogram.merge_assoc _ _ _, Int.add_assoc _ _ _⟩

theorem merge_empty (t : Tally) : t.merge empty = t := by
  obtain ⟨files, totalLines, languages, testFiles⟩ := t
  simp only [merge, empty, mk.injEq]
  exact ⟨List.append_nil files, Int.add_zero totalLines, Histogram.merge_empty languages, Int.add_zero testFiles⟩

theorem empty_merge (t : Tally) : empty.merge t = t := by
  obtain ⟨files, totalLines, languages, testFiles⟩ := t
  simp only [merge, empty, mk.injEq]
  exact ⟨List.nil_append files, Int.zero_add totalLines, Histogram.empty_merge languages, Int.zero_add testFiles⟩

instance : Std.Associative merge := ⟨merge_assoc⟩

theorem ofFiles_nil : ofFiles [] = empty := rfl

end Tally

/-! ## Groupings -/

/-- A way to put together what stands in a row, two neighbours at a time. -/
inductive Grouping (α : Type) where
  | part (a : α)
  | join (left right : Grouping α)

namespace Grouping

variable {α β : Type}

/-- The parts from left to right. -/
def parts : Grouping α → List α
  | part a => [a]
  | join left right => left.parts ++ right.parts

def reduce (op : α → α → α) : Grouping α → α
  | part a => a
  | join left right => op (left.reduce op) (right.reduce op)

def map (f : α → β) : Grouping α → Grouping β
  | part a => part (f a)
  | join left right => join (left.map f) (right.map f)

theorem parts_map (f : α → β) (g : Grouping α) : (g.map f).parts = g.parts.map f := by
  induction g with
  | part a => rfl
  | join left right ihLeft ihRight => rw [map, parts, ihLeft, ihRight, parts, List.map_append]

/-- However the parts are grouped, an associative operation makes of them what it makes from left to right. -/
theorem reduce_eq_foldl (op : α → α → α) [Std.Associative op] {unit : α} (hunit : ∀ a, op unit a = a)
    (hunit' : ∀ a, op a unit = a) (g : Grouping α) : g.reduce op = g.parts.foldl op unit := by
  induction g with
  | part a => exact (hunit a).symm
  | join left right ihLeft ihRight =>
    calc op (left.reduce op) (right.reduce op)
        = op (left.parts.foldl op unit) (right.parts.foldl op unit) := by rw [ihLeft, ihRight]
      _ = right.parts.foldl op (op (left.parts.foldl op unit) unit) := List.foldl_assoc.symm
      _ = right.parts.foldl op (left.parts.foldl op unit) := by rw [hunit']
      _ = (left.parts ++ right.parts).foldl op unit := List.foldl_append.symm

end Grouping

namespace Tally

theorem foldl_merge_ofFiles (runs : List (List SourceFile)) (files : List SourceFile) :
    (runs.map ofFiles).foldl merge (ofFiles files) = ofFiles (files ++ runs.flatten) := by
  induction runs generalizing files with
  | nil => rw [List.flatten_nil, List.append_nil]; rfl
  | cons run runs ih =>
    rw [List.map_cons, List.foldl_cons, merge_ofFiles, ih, List.flatten_cons, List.append_assoc]

/-- Merging makes a monoid of all tallies, and the tally of files is a homomorphism into it. So tallies may be
grouped in any way, and the tallies of any runs that files are split into, grouped in any way, come to the tally
of the files. -/
theorem merge_regroups :
    (∀ first second third : Tally, (first.merge second).merge third = first.merge (second.merge third)) ∧
    (∀ t : Tally, empty.merge t = t ∧ t.merge empty = t) ∧
    ofFiles [] = empty ∧
    (∀ xs ys : List SourceFile, ofFiles (xs ++ ys) = (ofFiles xs).merge (ofFiles ys)) ∧
    (∀ g : Grouping Tally, g.reduce merge = g.parts.foldl merge empty) ∧
    ∀ g : Grouping (List SourceFile), (g.map ofFiles).reduce merge = ofFiles g.parts.flatten := by
  have hgrouped := Grouping.reduce_eq_foldl merge empty_merge merge_empty
  refine ⟨merge_assoc, fun t => ⟨empty_merge t, merge_empty t⟩, ofFiles_nil,
    fun xs ys => (merge_ofFiles xs ys).symm, hgrouped, fun g => ?_⟩
  rw [hgrouped, Grouping.parts_map, ← ofFiles_nil, foldl_merge_ofFiles, List.nil_append]

end Tally

end CodeCensus
