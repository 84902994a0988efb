import CodeCensus.Proofs.Declaration.Bodies

/-! Scores of code that grows. When one text is put after another, on lines of its own, no match of
either is lost: a match may reach from the one into the other, but not beyond the first line on which
a match of the other ends. -/

namespace CodeCensus

open Text Cursor Pattern

theorem embeds_above (a b : List Char) :
    Embeds a (a ++ '\n' :: b) a.length (([] : List Char).length + ·) :=
  embeds_between (x := []) (y := '\n' :: b) (fun _ => rfl) fun _ => by simp [wordAt, show isWord '\n' = false by decide]

theorem embeds_below (a b : List Char) :
    Embeds b (a ++ '\n' :: b) b.length ((a ++ ['\n']).length + ·) := by
  have hfeed : wordBefore (a ++ ['\n'] ++ b) (a ++ ['\n']).length = false :=
    wordBefore_append (by simp) (by decide)
  have h : Embeds b (a ++ ['\n'] ++ b ++ []) b.length ((a ++ ['\n']).length + ·) := by
    refine embeds_between (fun _ => ?_) fun _ => rfl
    rw [List.append_nil]
    exact hfeed
  simpa using h

theorem onlyBreaksFrom_length (t : List Char) : OnlyBreaksFrom t t.length := by
  intro k c hk hc
  rw [List.getElem?_eq_none hk] at hc
  exact absurd hc (by simp)

namespace Pattern

variable {p core : Pattern} {lined : Prop}

/-- No match reaches over one in the text above a line feed and one in the text below it. -/
theorem Steady.apart_below (hp : Steady p core lined) {a b : List Char} {m m' : Match}
    {i j i' j' : Nat} (hm : p.Finds a m i j) (hm' : p.Finds b m' i' j') :
    p.Apart (a ++ '\n' :: b) (([] : List Char).length + i) ((a ++ ['\n']).length + i') := by
  have hj : j ≤ a.length := hp.stop_le (onlyBreaksFrom_length a) hm
  have hj' : j' ≤ b.length := hp.stop_le (onlyBreaksFrom_length b) hm'
  have hfeed : (a ++ '\n' :: b)[a.length]? = some '\n' := by simp
  refine hp.apart (hp.tame.spans (embeds_above a b) (hp.spans_of_finds hm) hj)
    (hp.tame.spans (embeds_below a b) (hp.spans_of_finds hm') hj') ?_ fun _ => ?_
  · simp only [List.length_nil, List.length_append, List.length_singleton]
    omega
  · refine ⟨a.length, ?_, ?_, hfeed⟩
    · simpa using hj
    · simp only [List.length_append, List.length_singleton]
      omega

/-- The matches of both texts are a row of places no two of which are within reach of one match. -/
theorem Steady.add_count_le (hp : Steady p core lined) (a b : List Char) :
    p.count a + p.count b ≤ p.count (a ++ '\n' :: b) := by
  have habove := p.all_scan a
  have hbelow := p.all_scan b
  have hna := onlyBreaksFrom_length a
  have hnb := onlyBreaksFrom_length b
  have hspans := List.forall_mem_append.mpr ⟨habove.spans_images hp (embeds_above a b) hna,
    hbelow.spans_images hp (embeds_below a b) hnb⟩
  have hchain := (habove.isChain_images hp (embeds_above a b) hna).append
    (hbelow.isChain_images hp (embeds_below a b) hnb) fun n hn n' hn' => by
      obtain ⟨m, s, e, hm, rfl⟩ := habove.mem_images (List.mem_of_getLast? hn)
      obtain ⟨m', s', e', hm', rfl⟩ := hbelow.mem_images (List.mem_of_head? hn')
      exact hp.apart_below hm hm'
  have hcount := length_le_count hp.consuming hspans hchain
  rwa [List.length_append, List.length_map, List.length_map] at hcount

end Pattern

section score

variable {patterns : List Pattern}

theorem totalCount_add_le (h : ∀ p ∈ patterns, p.Lossless) (a b : List Char) :
    totalCount patterns a + totalCount patterns b ≤ totalCount patterns (a ++ '\n' :: b) := by
  induction patterns with
  | nil => exact Nat.le_refl 0
  | cons p patterns ih =>
    obtain ⟨core, lined, hp⟩ := h p List.mem_cons_self
    have hfirst := hp.add_count_le a b
    have hrest := ih fun q hq => h q (List.mem_cons_of_mem p hq)
    change (p.count a + totalCount patterns a) + (p.count b + totalCount patterns b) ≤
      p.count (a ++ '\n' :: b) + totalCount patterns (a ++ '\n' :: b)
    omega

/-- With the patterns of the library, code that is put together of two parts, each on lines of its
own, scores what both score together, or more. So lines that are added above or below, after a line
feed or after a last line without one, never lower a score. -/
theorem branchScore_add_le {s : BranchSet} (hs : s ∈ BranchSet.all) (a b : List Char) :
    branchScore s.patterns a + branchScore s.patterns b - 1 ≤
        branchScore s.patterns (a ++ '\n' :: b) ∧
      branchScore s.patterns a ≤ branchScore s.patterns (a ++ '\n' :: b) ∧
      branchScore s.patterns (a ++ ['\n']) ≤ branchScore s.patterns (a ++ '\n' :: b) ∧
      branchScore s.patterns b ≤ branchScore s.patterns (a ++ '\n' :: b) := by
  have hlossless := BranchSet.lossless_of_mem hs
  have hjoin := totalCount_add_le hlossless a b
  have hfeed : totalCount s.patterns (a ++ ['\n']) ≤ totalCount s.patterns a :=
    totalCount_le fun p hp => (hlossless p hp).count_lineFeed_le a
  simp only [branchScore_eq]
  omega

/-- The `if` at the end of the first text takes the first match of the second one. -/
theorem branchScore_add_le_danglingIf :
    branchScore BranchSet.python.patterns "if x: if".toList = 2 ∧
    branchScore BranchSet.python.patterns "if y:\nif z:".toList = 3 ∧
    2 + 3 - 1 ≤ branchScore BranchSet.python.patterns "if x: if\nif y:\nif z:".toList := by
  have hpython : BranchSet.python ∈ BranchSet.all := by simp [BranchSet.all]
  have habove : branchScore BranchSet.python.patterns "if x: if".toList = 2 := by decide +kernel
  have hbelow : branchScore BranchSet.python.patterns "if y:\nif z:".toList = 3 := by decide +kernel
  have hjoin := (branchScore_add_le hpython "if x: if".toList "if y:\nif z:".toList).1
  rw [habove, hbelow] at hjoin
  exact ⟨habove, hbelow, hjoin⟩

end score

end CodeCensus
