import CodeCensus.Number.Double
import CodeCensus.Path
import CodeCensus.SourceFile

/-! What has been counted of a run of files. Tallies of neighbouring runs add up to the tally of both. -/

namespace CodeCensus

/-! ## Counts by name, in the order in which the names first came up -/

def addCount (name : String) (n : Int) : List (String × Int) → List (String × Int)
  -- a new name goes to the end
  | [] => [(name, n)]
  | (other, m) :: rest => if other = name then (other, m + n) :: rest else (other, m) :: addCount name n rest

/-- Adding to a name that is there keeps the names, and a new name goes to the end. -/
theorem names_addCount (name : String) (n : Int) (counts : List (String × Int)) :
    (addCount name n counts).map Prod.fst =
      if name ∈ counts.map Prod.fst then counts.map Prod.fst else counts.map Prod.fst ++ [name] := by
  induction counts with
  | nil => rfl
  | cons entry rest ih =>
    obtain ⟨other, m⟩ := entry
    by_cases h : other = name
    · simp [addCount, h]
    · have h' : ¬ name = other := fun e => h e.symm
      simp only [addCount, h, if_false, List.map_cons, ih, List.mem_cons, h', false_or]
      split <;> simp

theorem nodup_addCount (name : String) (n : Int) {counts : List (String × Int)}
    (h : (counts.map Prod.fst).Nodup) : ((addCount name n counts).map Prod.fst).Nodup := by
  rw [names_addCount]
  split
  · exact h
  · rename_i hn
    rw [List.nodup_append]
    refine ⟨h, by simp, ?_⟩
    intro a ha b hb
    simp only [List.mem_singleton] at hb
    rintro rfl
    exact hn (hb ▸ ha)

structure Histogram where
  counts : List (String × Int)
  distinct : (counts.map Prod.fst).Nodup

namespace Histogram

def empty : Histogram := ⟨[], by simp⟩

def add (h : Histogram) (name : String) (n : Int) : Histogram :=
  ⟨addCount name n h.counts, nodup_addCount name n h.distinct⟩

def addTo (h : Histogram) (name? : Option String) (n : Int) : Histogram :=
  match name? with
  | none => h
  | some name => h.add name n

def merge (h other : Histogram) : Histogram :=
  other.counts.foldl (fun h (name, n) => h.add name n) h

end Histogram

/-! ## Test coverage, guessed from the share of files whose path looks like a test's -/

def testMarks : List String := ["test", "spec", "__tests__", ".test.", ".spec."]

def isTestPath (path : String) : Bool := testMarks.any (Path.mentions path)

/-- The percentage of tests among all files, a half rounded up, and at most a hundred. It is computed with
doubles; there is no answer if the quotient is beyond them. -/
def coveragePercent? (tests total : Int) : Option Int :=
  if total ≤ 0 then some 0
  else (Double.quotient? (100 * tests) total).map fun q => min 100 (q.add .half).truncate

/-! ## Tallies -/

structure Tally where
  files : List SourceFile
  totalLines : Int
  languages : Histogram
  testFiles : Int

namespace Tally

def empty : Tally := ⟨[], 0, .empty, 0⟩

def languagesOf (files : List SourceFile) : Histogram :=
  files.foldl (fun h f => h.addTo (Language.displayName? f.path) f.lines) .empty

def ofFiles (files : List SourceFile) : Tally where
  files := files
  totalLines := ((files.map SourceFile.lines).foldr (· + ·) 0 : Nat)
  languages := languagesOf files
  testFiles := (files.filter fun f => isTestPath f.path).length

def merge (left right : Tally) : Tally where
  files := left.files ++ right.files
  totalLines := left.totalLines + right.totalLines
  languages := left.languages.merge right.languages
  testFiles := left.testFiles + right.testFiles

end Tally

end CodeCensus
