import CodeCensus.Proofs.Declaration.KeywordHeads
import CodeCensus.Proofs.Declaration.TypedHeads

/-! Languages with bodies between braces. Each reports the declarations of a text one by one, as they are written,
except for what its pattern does not take for a part of a head: a word before the type that it does not know, and the
end of a result that reads as a clause. -/

namespace CodeCensus

open Text Pattern Cursor

inductive Dialect where
  | go
  | rust
  | php
  | java
  | csharp
  deriving DecidableEq, Repr

namespace Dialect

def functions : Dialect → Scorer → List Char → List Function
  | go => Functions.go
  | rust => Functions.rust
  | php => Functions.php
  | java => Functions.java
  | csharp => Functions.csharp

/-- The words that a language knows before a type. -/
def known : Dialect → List String
  | java =>
    ["public", "private", "protected", "static", "final", "abstract", "synchronized", "native", "default"]
  | csharp =>
    ["public", "private", "protected", "internal", "static", "virtual", "override", "abstract", "sealed", "async",
      "extern", "unsafe", "partial", "new"]
  | _ => []

def head : Dialect → Declared → List Char
  | go, d => HeadStyle.go.written d
  | rust, d => HeadStyle.rust.written d
  | php, d => HeadStyle.php.written d
  | java, d | csharp, d => d.typedHead

def written (l : Dialect) (d : Declared) : List Char := l.head d ++ d.block

/-- What can be written in a language: without its keyword in the body, or, where it has none, with a type or the words
of a constructor before the name. -/
def Admits : Dialect → Declared → Prop
  | go, d => d.IsProper ∧ ¬ "func".toList <:+: d.body
  | rust, d => d.IsProper ∧ ¬ "fn".toList <:+: d.body
  | php, d => d.IsProper ∧ ¬ "function".toList <:+: d.body
  | java, d | csharp, d => d.IsTyped

/-- What a language reports of a declaration on a line. -/
def found : Dialect → Scorer → Nat → Declared → List Function
  | go, score, line, d | php, score, line, d => [d.function score line d.result]
  | rust, score, line, d => [d.function score line (d.result.map HeadStyle.rust.kept)]
  | java, score, line, d => if d.IsKnown java.known then [d.function score line d.result] else []
  | csharp, score, line, d => if d.IsKnown csharp.known then [d.function score line d.result] else []

/-- A language reports a declaration as it is written. -/
def Keeps : Dialect → Declared → Prop
  | go, _ | php, _ => True
  | rust, d => ∀ type ∈ d.result, "where".toList <:+ type → type = "where".toList
  | java, d => d.IsKnown java.known
  | csharp, d => d.IsKnown csharp.known

/-! ## What is reported -/

variable {score : Scorer} {ds : List Declared} {d : Declared} {m : Match}

theorem text?_go (hgroups : textsOf m.groups =
    (d.result.map fun type => (HeadStyle.go.group, HeadStyle.go.kept type)).toList ++ [(2, d.list), (1, d.name)]) :
    (if (m.groupText 3).isEmpty then m.text? 4 else m.text? 3) = d.result.map HeadStyle.go.kept := by
  rw [Match.groupText, m.text?_eq_lookup, m.text?_eq_lookup, hgroups]
  cases d.result <;> rfl

theorem text?_of_group_three {s : HeadStyle} (hs : s.group = 3) (hgroups : textsOf m.groups =
    (d.result.map fun type => (s.group, s.kept type)).toList ++ [(2, d.list), (1, d.name)]) :
    m.text? 3 = d.result.map s.kept := by
  rw [m.text?_eq_lookup, hgroups, hs]
  cases d.result <;> rfl

theorem go_below (h : ∀ d ∈ ds, go.Admits d) :
    Functions.go score (below go.written ds) = foundFrom go.written (go.found score) 1 ds := by
  rw [Functions.go, ← List.filterMap_eq_map]
  refine filterMap_all_below (by decide) fun d hd => ?_
  have hreads := HeadStyle.go_endsWith.readsOn score _ (h d hd).1 (h d hd).2 fun m hm => congrArg some
    (congrArg (Functions.ofHead score m) (text?_go hm))
  rwa [show HeadStyle.go.kept = id from rfl, Option.map_id] at hreads

theorem rust_below (h : ∀ d ∈ ds, rust.Admits d) :
    Functions.rust score (below rust.written ds) = foundFrom rust.written (rust.found score) 1 ds := by
  rw [Functions.rust, ← List.filterMap_eq_map]
  refine filterMap_all_below (by decide) fun d hd => ?_
  exact HeadStyle.rust_endsWith.readsOn score _ (h d hd).1 (h d hd).2 fun m hm => congrArg some
    (congrArg (Functions.ofHead score m) (text?_of_group_three rfl hm))

theorem filter_map_eq_filterMap {α β : Type} (f : α → β) (p : β → Bool) (l : List α) :
    (l.map f).filter p = l.filterMap fun a => if p (f a) then some (f a) else none := by
  rw [← List.filterMap_eq_filter, ← List.filterMap_eq_map, List.filterMap_filterMap]
  rfl

theorem php_below (h : ∀ d ∈ ds, php.Admits d) :
    Functions.php score (below php.written ds) = foundFrom php.written (php.found score) 1 ds := by
  rw [Functions.php, filter_map_eq_filterMap]
  refine filterMap_all_below (by decide) fun d hd => ?_
  have hname : String.ofList d.name ∉ reservedNames := (h d hd).1.name_not_reserved
  have hreads := HeadStyle.php_endsWith.readsOn score
    (fun m => if !reservedNames.contains (String.ofList (m.groupText 1)) then
      some (Functions.ofHead score m (m.text? 3)) else none) (h d hd).1 (h d hd).2 fun m hm => by
    have htext : m.groupText 1 = d.name := by
      rw [Match.groupText, m.text?_eq_lookup, hm]
      cases d.result <;> rfl
    rw [htext, if_pos (by simpa using hname), text?_of_group_three rfl hm]
  rwa [show HeadStyle.php.kept = id from rfl, Option.map_id] at hreads

theorem areWords_java : AreWords java.known := List.all_eq_true.mp (by decide)

theorem areWords_csharp : AreWords csharp.known := List.all_eq_true.mp (by decide)

theorem java_below (h : ∀ d ∈ ds, java.Admits d) :
    Functions.java score (below java.written ds) = foundFrom java.written (java.found score) 1 ds :=
  filterMap_all_below (by decide) fun d hd => readsOn_typed areWords_java (by decide) score (h d hd)

theorem csharp_below (h : ∀ d ∈ ds, csharp.Admits d) :
    Functions.csharp score (below csharp.written ds) = foundFrom csharp.written (csharp.found score) 1 ds :=
  filterMap_all_below (by decide) fun d hd => readsOn_typed areWords_csharp (by decide) score (h d hd)

theorem functions_below {l : Dialect} (h : ∀ d ∈ ds, l.Admits d) (score : Scorer) :
    l.functions score (below l.written ds) = foundFrom l.written (l.found score) 1 ds := by
  cases l with
  | go => exact go_below h
  | rust => exact rust_below h
  | php => exact php_below h
  | java => exact java_below h
  | csharp => exact csharp_below h

/-! ## Where all is reported as it is written -/

theorem kept_eq_self_iff {type : List Char} :
    HeadStyle.rust.kept type = type ↔ ("where".toList <:+ type → type = "where".toList) := by
  have hkept : HeadStyle.rust.kept type =
    if "where".toList <:+ type ∧ type ≠ "where".toList then type.take (type.length - 5) else type := rfl
  rw [hkept]
  split
  · rename_i hends
    refine iff_of_false (fun heq => ?_) fun h => hends.2 (h hends.1)
    have hlength := congrArg List.length heq
    have hle := hends.1.length_le
    rw [List.length_take] at hlength
    have hfive : "where".toList.length = 5 := rfl
    omega
  · rename_i hends
    exact iff_of_true rfl fun hsuffix => not_not.mp fun hne => hends ⟨hsuffix, hne⟩

theorem function_eq_iff {line : Nat} {result : Option (List Char)} :
    d.function score line result = d.function score line d.result ↔ result = d.result := by
  refine ⟨fun heq => ?_, fun heq => by rw [heq]⟩
  have htype : result.map String.ofList = d.result.map String.ofList := congrArg Function.returnType heq
  exact Option.map_injective (fun _ _ h => String.ofList_injective h) htype

theorem found_eq_iff {l : Dialect} {line : Nat} :
    l.found score line d = [d.function score line d.result] ↔ l.Keeps d := by
  have hknown {words : List String} :
      (if d.IsKnown words then [d.function score line d.result] else []) = [d.function score line d.result] ↔
        d.IsKnown words := by
    split
    · exact iff_of_true rfl ‹_›
    · exact iff_of_false (List.cons_ne_nil _ _).symm ‹_›
  cases l with
  | go => exact iff_of_true rfl trivial
  | php => exact iff_of_true rfl trivial
  | java => exact hknown
  | csharp => exact hknown
  | rust =>
    change [d.function score line (d.result.map HeadStyle.rust.kept)] = [d.function score line d.result] ↔
      ∀ type ∈ d.result, "where".toList <:+ type → type = "where".toList
    rw [List.cons.injEq, and_iff_left rfl, function_eq_iff]
    cases d.result with
    | none => exact iff_of_true rfl (by rintro _ ⟨⟩)
    | some type =>
      rw [Option.map_some, Option.some.injEq, kept_eq_self_iff]
      refine ⟨fun h other hother => ?_, fun h => h type rfl⟩
      obtain rfl := Option.some.inj hother
      exact h

theorem length_found_le {l : Dialect} {line : Nat} : (l.found score line d).length ≤ 1 := by
  have hknown {words : List String} :
      (if d.IsKnown words then [d.function score line d.result] else []).length ≤ 1 := by
    split
    · exact Nat.le_refl 1
    · exact Nat.zero_le 1
  cases l with
  | go => exact Nat.le_refl 1
  | rust => exact Nat.le_refl 1
  | php => exact Nat.le_refl 1
  | java => exact hknown
  | csharp => exact hknown

/-- Of declarations below one another one record each is reported, in their order, except that those with an unknown
word before the type are passed over and that `where` at the end of a longer result is cut off. So they are reported as
they are written exactly if none of them has either. -/
theorem functions_declarations {l : Dialect} (h : ∀ d ∈ ds, l.Admits d) (score : Scorer) :
    l.functions score (below l.written ds) = foundFrom l.written (l.found score) 1 ds ∧
      (l.functions score (below l.written ds) =
        foundFrom l.written (fun line d => [d.function score line d.result]) 1 ds ↔ ∀ d ∈ ds, l.Keeps d) := by
  have hfound := functions_below h score
  refine ⟨hfound, ?_⟩
  rw [hfound]
  have hle (line : Nat) (d : Declared) : (l.found score line d).length ≤ 1 := length_found_le
  have hkeeps (line : Nat) (d : Declared) : l.found score line d = [d.function score line d.result] ↔ l.Keeps d :=
    found_eq_iff
  exact foundFrom_eq_iff hle hkeeps 1

/-- A function whose result ends in `where`. -/
def somewhere : Declared where
  modifiers := []
  name := ['f']
  parameters := [['a'], "b c".toList]
  result := some "Somewhere".toList
  body := " a ".toList

theorem admits_somewhere : rust.Admits somewhere := by
  have hspelled (first : Char) {more : List Char} (hfirst : nameStart first = true) (hmore : more.all isWord = true) :
      IsName (first :: more) := ⟨first, more, rfl, hfirst, List.all_eq_true.mp hmore⟩
  have hplain {p : List Char} (hne : p ≠ []) (htrim : trim p = p) (hall : (p.all fun c => !([',', ':', '=', '(', ')'].contains c)) = true) :
      IsPlainParameter p := ⟨hne, htrim, fun c hc => by simpa using List.all_eq_true.mp hall c hc⟩
  refine ⟨⟨hspelled 'f' rfl rfl, by decide, ?_, ?_, ?_⟩, by decide⟩
  · exact List.forall_mem_cons.mpr ⟨hplain (by decide) (by decide) (by decide),
      List.forall_mem_singleton.mpr (hplain (by decide) (by decide) (by decide))⟩
  · intro type htype
    obtain rfl := Option.some.inj htype
    exact hspelled 'S' rfl rfl
  · exact Body.isBalanced_of_not_mem (by decide) (by decide)

theorem functions_declarations_somewhere : (∀ d ∈ [somewhere], rust.Admits d) ∧
    (rust.functions List.length (below rust.written [somewhere]) =
        foundFrom rust.written (rust.found List.length) 1 [somewhere] ∧
      (rust.functions List.length (below rust.written [somewhere]) =
        foundFrom rust.written (fun line d => [d.function List.length line d.result]) 1 [somewhere] ↔
          ∀ d ∈ [somewhere], rust.Keeps d)) :=
  have hadmits : ∀ d ∈ [somewhere], rust.Admits d := List.forall_mem_singleton.mpr admits_somewhere
  ⟨hadmits, functions_declarations hadmits List.length⟩

/-- The end of a result is taken for a clause. -/
theorem functions_ne_somewhere : ¬ ∀ (l : Dialect) (ds : List Declared) (score : Scorer), (∀ d ∈ ds, l.Admits d) →
    l.functions score (below l.written ds) =
      foundFrom l.written (fun line d => [d.function score line d.result]) 1 ds := by
  intro h
  have hadmits : ∀ d ∈ [somewhere], rust.Admits d := List.forall_mem_singleton.mpr admits_somewhere
  have hwritten := h rust [somewhere] List.length hadmits
  rw [functions_below hadmits] at hwritten
  exact absurd hwritten (by decide +kernel)

end Dialect

end CodeCensus
