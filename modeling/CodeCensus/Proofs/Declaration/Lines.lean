import CodeCensus.Declaration.Exports
import CodeCensus.Proofs.Declaration.Bodies
import CodeCensus.Proofs.Pattern.Captures

/-! The lines of declarations. Each declaration is found at a place in the text that its match covers,
and matches follow one another, so lines are those of the text and come in order. -/

namespace CodeCensus

open Text Pattern Cursor

variable {text : List Char} {p : Pattern} {m : Match} {i j n : Nat}

/-! ## The line of a place -/

theorem line_on (text : List Char) (i : Nat) : (on text i).line = (text.take i).count '\n' + 1 := rfl

theorem line_on_mono (h : i ≤ j) : (on text i).line ≤ (on text j).line := by
  have hsublist : (text.take i).Sublist (text.take j) := by
    rw [← Nat.min_eq_left h, ← List.take_take]
    exact List.take_sublist _ _
  rw [line_on, line_on]
  exact Nat.succ_le_succ (hsublist.count_le '\n')

/-- A last line counts whether or not a line feed ends it, so each character has a line. -/
theorem line_on_le_lineCount (h : i < text.length) : (on text i).line ≤ lineCount text := by
  have hsplit : text.count '\n' = (text.take i).count '\n' + (text.drop i).count '\n' := by
    rw [← List.count_append, List.take_append_drop]
  have hne : text.drop i ≠ [] := by
    intro hnil
    have hlength := List.drop_eq_nil_iff.mp hnil
    omega
  have hlast : text.getLast? = (text.drop i).getLast? := by
    rw [List.getLast?_drop, if_neg (Nat.not_le.mpr h)]
  rw [line_on, lineCount, hlast, List.getLast?_eq_some_getLast hne]
  dsimp only [lineFeeds]
  split
  · rename_i hfeed
    have hmem : '\n' ∈ text.drop i := by
      rw [← eq_of_beq hfeed]
      exact List.getLast_mem hne
    have hpos : 0 < (text.drop i).count '\n' := List.count_pos_iff.mpr hmem
    omega
  · omega

/-- Lines of a text, in order. -/
structure InLines (text : List Char) (lines : List Nat) : Prop where
  bounds : ∀ line ∈ lines, 1 ≤ line ∧ line ≤ lineCount text
  sorted : lines.Pairwise (· ≤ ·)

theorem InLines.sublist {lines lines' : List Nat} (h : InLines text lines)
    (hsublist : lines'.Sublist lines) : InLines text lines' :=
  ⟨fun line hline => h.bounds line (hsublist.subset hline), h.sorted.sublist hsublist⟩

/-! ## Matches one after another -/

theorem Pattern.Scan.pairwise {ms : List Match} (h : Scan p text i ms) :
    (∀ m ∈ ms, i ≤ m.start.pos) ∧ ms.Pairwise fun m m' => m.stop.pos ≤ m'.start.pos := by
  induction h with
  | nil => exact ⟨fun _ hm => absurd hm List.not_mem_nil, .nil⟩
  | @cons i s e m later his hm hlater ih =>
    have hstart : m.start.pos = s := congrArg Cursor.pos hm.2.1
    have hstop : m.stop.pos = e := congrArg Cursor.pos hm.2.2
    have hse := hm.spans.le
    refine ⟨fun m' hm' => ?_, List.pairwise_cons.mpr ⟨fun m' hm' => hstop ▸ ih.1 m' hm', ih.2⟩⟩
    rcases List.mem_cons.mp hm' with rfl | hm'
    · omega
    · have hlast := ih.1 m' hm'
      omega

theorem pairwise_all (p : Pattern) (text : List Char) :
    (p.all text).Pairwise fun m m' => m.stop.pos ≤ m'.start.pos := (p.all_scan text).pairwise.2

/-- A line is that of a character where a match lies. -/
def Match.Locates (m : Match) (text : List Char) (line : Nat) : Prop :=
  ∃ i, m.start.pos ≤ i ∧ i ≤ m.stop.pos ∧ i < text.length ∧ line = (on text i).line

theorem Match.Locates.bounds (h : m.Locates text n) : 1 ≤ n ∧ n ≤ lineCount text := by
  obtain ⟨i, -, -, hi, rfl⟩ := h
  exact ⟨Nat.le_add_left 1 _, line_on_le_lineCount hi⟩

theorem locates_start (hp : p.opening.mayBeEmpty = false) (hm : m ∈ p.all text) :
    m.Locates text m.start.line := by
  obtain ⟨i, j, hfinds⟩ := (p.all_scan text).finds m hm
  have hspans := hfinds.spans
  rw [Match.Locates, hfinds.2.1, hfinds.2.2]
  exact ⟨i, Nat.le_refl i, hspans.le, hspans.lt_length hp, rfl⟩

/-- A group that is always there and never empty tells a line. -/
theorem locates_group (hbinds : p.binds [n] = true) (hfills : p.fills n = true)
    (hm : m ∈ p.all text) : m.Locates text (Functions.lineOfGroup m n) := by
  obtain ⟨i, j, hfinds⟩ := (p.all_scan text).finds m hm
  obtain ⟨n', hn', hsome⟩ := hfinds.exists_group? hbinds
  obtain rfl := List.mem_singleton.mp hn'
  obtain ⟨s, hs⟩ := Option.isSome_iff_exists.mp hsome
  obtain ⟨a, b, rfl, ha, -, hb, hlt⟩ := hfinds.exists_of_group? hs
  have hab := hlt hfills
  have hlength := hfinds.spans.le_length (by omega)
  rw [Match.Locates, hfinds.2.1, hfinds.2.2, Functions.lineOfGroup, hs]
  exact ⟨a, ha, by rw [on_pos]; omega, by omega, rfl⟩

theorem inLines_flatMap {f : Match → List Nat}
    (hlocates : ∀ m ∈ p.all text, ∀ line ∈ f m, m.Locates text line)
    (hsorted : ∀ m ∈ p.all text, (f m).Pairwise (· ≤ ·)) : InLines text ((p.all text).flatMap f) where
  bounds line hline := by
    obtain ⟨m, hm, hline⟩ := List.mem_flatMap.mp hline
    exact (hlocates m hm line hline).bounds
  sorted := by
    refine List.pairwise_flatMap.mpr ⟨hsorted, ?_⟩
    refine (pairwise_all p text).imp_of_mem ?_
    intro m m' hm hm' hbefore line hline line' hline'
    obtain ⟨i, -, hi, -, rfl⟩ := hlocates m hm line hline
    obtain ⟨i', hi', -, -, rfl⟩ := hlocates m' hm' line' hline'
    exact line_on_mono (hi.trans (hbefore.trans hi'))

theorem inLines_map {f : Match → Nat} (hlocates : ∀ m ∈ p.all text, m.Locates text (f m)) :
    InLines text ((p.all text).map f) := by
  rw [List.map_eq_flatMap]
  refine inLines_flatMap (fun m hm line hline => ?_) fun m hm => List.pairwise_singleton _ _
  obtain rfl := List.mem_singleton.mp hline
  exact hlocates m hm

/-- All that one match declares is on the line where it starts. -/
theorem inLines_flatMap_start (hp : p.opening.mayBeEmpty = false) {f : Match → List Nat}
    (hstart : ∀ m, ∀ line ∈ f m, line = m.start.line) : InLines text ((p.all text).flatMap f) := by
  refine inLines_flatMap (fun m hm line hline => ?_) fun m _ => ?_
  · rw [hstart m line hline]
    exact locates_start hp hm
  · rw [List.eq_replicate_of_mem (hstart m)]
    exact List.pairwise_replicate.mpr (.inr (Nat.le_refl _))

theorem sublist_map_filterMap {α β : Type} {f : α → Option β} {line : β → Nat} {place : α → Nat}
    (h : ∀ a b, f a = some b → line b = place a) (l : List α) :
    ((l.filterMap f).map line).Sublist (l.map place) := by
  induction l with
  | nil => exact .slnil
  | cons a l ih =>
    rw [List.map_cons, List.filterMap_cons]
    split
    · exact ih.cons _
    · rename_i b hb
      rw [List.map_cons, h a b hb]
      exact ih.cons_cons _

/-! ## Functions -/

namespace Functions

variable {score : Scorer} {f : Function}

theorem bounds_script (h : f ∈ script score text) : 1 ≤ f.line ∧ f.line ≤ lineCount text := by
  rcases exists_match_of_mem_script h with ⟨m, hm, rfl⟩ | ⟨m, hm, rfl⟩ | ⟨m, hm, rfl⟩
  · exact (locates_start (by decide) hm).bounds
  · exact (locates_start (by decide) hm).bounds
  · have hlocates : m.Locates text (lineOfGroup m 1) := locates_group (by decide) (by decide) hm
    exact hlocates.bounds

theorem inLines_python (score : Scorer) (text : List Char) :
    InLines text ((python score text).map Function.line) := by
  rw [python, List.map_map]
  exact inLines_map fun _ hm => locates_group (by decide) (by decide) hm

theorem inLines_typed {method : Pattern} (hbinds : method.binds [2] = true)
    (hfills : method.fills 2 = true) (score : Scorer) (text : List Char) :
    InLines text ((typed method score text).map Function.line) :=
  (inLines_map fun _ hm => locates_group hbinds hfills hm).sublist
    (sublist_map_filterMap (fun _ _ h => (ofTypedMethod?_eq_some h).1) _)

/-- Languages that take the line of a whole match. -/
theorem inLines_ofHead {head : Pattern} (hhead : head.opening.mayBeEmpty = false) (score : Scorer)
    (text : List Char) (result : Match → Option (List Char)) :
    InLines text (((head.all text).map fun m => ofHead score m (result m)).map Function.line) := by
  rw [List.map_map]
  exact inLines_map fun _ hm => locates_start hhead hm

theorem inLines_php (score : Scorer) (text : List Char) :
    InLines text ((php score text).map Function.line) :=
  (inLines_ofHead (by decide) score text _).sublist (List.filter_sublist.map Function.line)

theorem inLines_ruby (score : Scorer) (text : List Char) :
    InLines text ((ruby score text).map Function.line) := by
  rw [ruby, List.map_map]
  exact inLines_map fun _ hm => locates_start (by decide) hm

end Functions

/-! ## Imports and exports -/

namespace Imports

/-- What is put in the order of the text is in the order of its lines. -/
theorem inLines_inTextOrder {α : Type} {line : α → Nat} {found : List (Nat × α)}
    (h : ∀ item ∈ found, item.1 < text.length ∧ line item.2 = (on text item.1).line) :
    InLines text ((inTextOrder found).map line) where
  bounds n hn := by
    rw [inTextOrder, List.map_map] at hn
    obtain ⟨item, hitem, rfl⟩ := List.mem_map.mp hn
    obtain ⟨hlt, hline⟩ := h item (List.mem_mergeSort.mp hitem)
    change 1 ≤ line item.2 ∧ line item.2 ≤ lineCount text
    rw [hline]
    exact ⟨Nat.le_add_left 1 _, line_on_le_lineCount hlt⟩
  sorted := by
    have hsorted : (found.mergeSort fun a b => a.1 ≤ b.1).Pairwise fun a b => a.1 ≤ b.1 := by
      refine (List.pairwise_mergeSort ?_ ?_ found).imp of_decide_eq_true
      · intro a b c hab hbc
        exact decide_eq_true ((of_decide_eq_true hab).trans (of_decide_eq_true hbc))
      · intro a b
        rw [Bool.or_eq_true, decide_eq_true_iff, decide_eq_true_iff]
        exact Nat.le_total a.1 b.1
    rw [inTextOrder, List.map_map, List.pairwise_map]
    refine hsorted.imp_of_mem ?_
    intro a b ha hb hab
    change line a.2 ≤ line b.2
    rw [(h a (List.mem_mergeSort.mp ha)).2, (h b (List.mem_mergeSort.mp hb)).2]
    exact line_on_mono hab

theorem start_on (hp : p.opening.mayBeEmpty = false) (hm : m ∈ p.all text) :
    m.start.pos < text.length ∧ m.start.line = (on text m.start.pos).line := by
  obtain ⟨i, j, hfinds⟩ := (p.all_scan text).finds m hm
  rw [hfinds.2.1]
  exact ⟨hfinds.spans.lt_length hp, rfl⟩

theorem inLines_script (text : List Char) : InLines text ((script text).map Import.line) := by
  refine inLines_inTextOrder fun item hitem => ?_
  rcases List.mem_append.mp hitem with hitem | hitem
  · rcases List.mem_append.mp hitem with hitem | hitem
    · obtain ⟨m, hm, rfl⟩ := List.mem_map.mp hitem
      exact start_on (by decide) hm
    · obtain ⟨m, hm, rfl⟩ := List.mem_map.mp hitem
      exact start_on (by decide) hm
  · obtain ⟨m, hm, rfl⟩ := List.mem_map.mp hitem
    exact start_on (by decide) hm

theorem inLines_python (text : List Char) : InLines text ((python text).map Import.line) := by
  rw [python, List.map_flatMap]
  refine inLines_flatMap_start (by decide) fun m line hline => ?_
  obtain ⟨imported, himported, rfl⟩ := List.mem_map.mp hline
  dsimp only at himported
  split at himported
  · obtain rfl := List.mem_singleton.mp himported
    rfl
  · obtain ⟨name, -, rfl⟩ := List.mem_map.mp himported
    rfl

theorem inLines_java (text : List Char) : InLines text ((java text).map Import.line) := by
  rw [java, List.map_map]
  exact inLines_map fun _ hm => locates_start (by decide) hm

theorem inLines_csharp (text : List Char) : InLines text ((csharp text).map Import.line) := by
  rw [csharp, List.map_map]
  exact inLines_map fun _ hm => locates_start (by decide) hm

theorem inLines_rust (text : List Char) : InLines text ((rust text).map Import.line) := by
  rw [rust, List.map_map]
  exact inLines_map fun _ hm => locates_start (by decide) hm

/-- A place in a stretch of a text is a place in the text. -/
theorem line_on_stretch {a b c : Nat} (hc : c < ((on text a).upTo (on text b)).length) :
    a + c < b ∧ a + c < text.length ∧
      (on text a).breaks + (on ((on text a).upTo (on text b)) c).line = (on text (a + c)).line := by
  have hstretch : (on text a).upTo (on text b) = (text.drop a).take (b - a) := rfl
  rw [hstretch, List.length_take, List.length_drop] at hc
  refine ⟨by omega, by omega, ?_⟩
  have htake : ((text.drop a).take (b - a)).take c = (text.drop a).take c := by
    rw [List.take_take, Nat.min_eq_left (by omega)]
  have hsplit : text.take (a + c) = text.take a ++ (text.drop a).take c := List.take_add
  rw [hstretch, line_on, line_on, htake, hsplit, List.count_append]
  exact (Nat.add_assoc _ _ _).symm

theorem inLines_go (text : List Char) : InLines text ((go text).map Import.line) := by
  rw [go, List.map_flatMap]
  refine inLines_flatMap ?_ ?_
  · intro m hm line hline
    obtain ⟨i, j, hfinds⟩ := (goImport.all_scan text).finds m hm
    obtain ⟨imported, himported, rfl⟩ := List.mem_map.mp hline
    split at himported
    · obtain rfl := List.mem_singleton.mp himported
      change m.Locates text (0 + m.start.line)
      rw [Nat.zero_add]
      exact locates_start (by decide) hm
    · rename_i block hblock
      obtain ⟨a, b, rfl, ha, -, hb, -⟩ := hfinds.exists_of_group? hblock
      obtain ⟨spec, hspec, rfl⟩ := List.mem_map.mp himported
      obtain ⟨hlt, hstart⟩ := start_on (by decide) hspec
      obtain ⟨hbefore, hlength, hline⟩ := line_on_stretch hlt
      rw [Match.Locates, hfinds.2.1, hfinds.2.2]
      refine ⟨a + spec.start.pos, by rw [on_pos]; omega, by rw [on_pos]; omega, hlength, ?_⟩
      change (on text a).breaks + spec.start.line = _
      rw [hstart]
      exact hline
  · intro m hm
    split
    · exact List.pairwise_singleton _ _
    · rename_i block hblock
      have hspecs : InLines block.text ((goSpec.all block.text).map fun spec => spec.start.line) :=
        inLines_map fun _ hspec => locates_start (by decide) hspec
      rw [List.map_map, List.pairwise_map]
      exact (List.pairwise_map.mp hspecs.sorted).imp fun h => Nat.add_le_add_left h _

end Imports

namespace Exports

theorem inLines_script (text : List Char) : InLines text ((script text).map Export.line) := by
  refine Imports.inLines_inTextOrder fun item hitem => ?_
  rcases List.mem_append.mp hitem with hitem | hitem
  · obtain ⟨m, hm, rfl⟩ := List.mem_map.mp hitem
    exact Imports.start_on (by decide) hm
  · obtain ⟨m, hm, hitem⟩ := List.mem_flatMap.mp hitem
    obtain ⟨name, -, rfl⟩ := List.mem_map.mp hitem
    exact Imports.start_on (by decide) hm

end Exports

end CodeCensus
