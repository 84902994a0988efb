import CodeCensus.Declaration.Body
import Mathlib.Data.List.TakeWhile

/-! Blocks between braces. The block that is cut out of a text begins at the first opening brace. It ends where
as many braces have been closed as opened, whatever follows, or runs to the end of the text. -/

namespace CodeCensus.Body

/-- A text falls into what precedes its first block, the block, and what follows it. -/
structure FirstBlock (text before block after : List Char) : Prop where
  text_eq : text = before ++ block ++ after
  not_mem_before : '{' ∉ before
  head?_eq : block.head? = some '{'
  stays_open : ∀ front, front <+: block → front ≠ [] → front ≠ block → front.count '}' < front.count '{'
  closes : block.count '{' = block.count '}' ∨ after = [] ∧ block.count '}' < block.count '{'

/-- What is cut off a text while some blocks are open: one of them stays open within it, and it closes the last, or
nothing follows it. -/
structure Closing (depth : Nat) (cut after : List Char) : Prop where
  stays_open : ∀ front, front <+: cut → front ≠ cut → front.count '}' < depth + front.count '{'
  closes : cut.count '}' = depth + cut.count '{' ∨ after = [] ∧ cut.count '}' < depth + cut.count '{'

theorem count_cons_eq_add (mark c : Char) (l : List Char) :
    (c :: l).count mark = [c].count mark + l.count mark := by
  rw [← List.count_append, List.singleton_append]

/-- One character more, after which another number of blocks is open. -/
theorem Closing.cons {depth next : Nat} {c : Char} {cut after : List Char} (hdepth : 0 < depth)
    (hcount : next + [c].count '}' = depth + [c].count '{') (h : Closing next cut after) :
    Closing depth (c :: cut) after where
  stays_open front hfront hne := by
    rcases List.prefix_cons_iff.mp hfront with rfl | ⟨tail, rfl, htail⟩
    · exact hdepth
    · have hlt := h.stays_open tail htail fun heq => hne (by rw [heq])
      rw [count_cons_eq_add '}' c tail, count_cons_eq_add '{' c tail]
      omega
  closes := by
    rw [count_cons_eq_add '}' c cut, count_cons_eq_add '{' c cut]
    exact h.closes.imp (fun heq => by omega) fun hlt => ⟨hlt.1, by omega⟩

theorem closing_nil {depth : Nat} (hdepth : 0 < depth) : Closing depth [] [] where
  stays_open _ hfront hne := absurd (List.prefix_nil.mp hfront) hne
  closes := .inr ⟨rfl, hdepth⟩

/-- The brace that closes the last block is where the cut ends. -/
theorem closing_brace (after : List Char) : Closing 1 ['}'] after where
  stays_open front hfront hne := by
    rcases List.prefix_cons_iff.mp hfront with rfl | ⟨tail, rfl, htail⟩
    · exact Nat.one_pos
    · exact absurd (by rw [List.prefix_nil.mp htail]) hne
  closes := .inl rfl

/-- What is taken while some blocks are open stops with the brace that closes the last of them. -/
theorem exists_closing_closeFrom {depth : Nat} (hdepth : 0 < depth) (taken rest : List Char) :
    ∃ cut after, rest = cut ++ after ∧ closeFrom depth taken rest = taken.reverse ++ cut ∧
      Closing depth cut after := by
  induction rest generalizing depth taken with
  | nil => exact ⟨[], [], rfl, by rw [closeFrom, List.append_nil], closing_nil hdepth⟩
  | cons c rest ih =>
    have hstep {next : Nat} (hnext : 0 < next) (hcount : next + [c].count '}' = depth + [c].count '{') :
        ∃ cut after, c :: rest = cut ++ after ∧ closeFrom next (c :: taken) rest = taken.reverse ++ cut ∧
          Closing depth cut after := by
      obtain ⟨cut, after, hrest, hclose, hclosing⟩ := ih hnext (c :: taken)
      exact ⟨c :: cut, after, by rw [hrest, List.cons_append], by simp [hclose], hclosing.cons hdepth hcount⟩
    rw [closeFrom]
    split
    · rename_i hc
      obtain rfl : c = '{' := by simpa using hc
      exact hstep (Nat.succ_pos depth) rfl
    · split
      · rename_i hc
        obtain rfl : c = '}' := by simpa using hc
        split
        · obtain rfl : depth = 1 := by omega
          exact ⟨['}'], rest, rfl, List.reverse_cons, closing_brace rest⟩
        · exact hstep (by omega) (Nat.sub_add_cancel hdepth)
      · rename_i hopen hclose
        have ho : [c].count '{' = 0 :=
          List.count_eq_zero.mpr fun hmem => hopen (beq_iff_eq.mpr (List.mem_singleton.mp hmem).symm)
        have hc : [c].count '}' = 0 :=
          List.count_eq_zero.mpr fun hmem => hclose (beq_iff_eq.mpr (List.mem_singleton.mp hmem).symm)
        exact hstep hdepth (by rw [ho, hc])

theorem exists_dropWhile_eq {text : List Char} (h : '{' ∈ text) :
    ∃ rest, text.dropWhile (· != '{') = '{' :: rest := by
  cases hdrop : text.dropWhile (· != '{') with
  | nil => exact absurd (List.dropWhile_eq_nil_iff.mp hdrop _ h) (by simp)
  | cons c rest =>
    have hc : c = '{' := by
      have := List.head?_dropWhile_not (· != '{') text
      simpa [hdrop] using this
    exact ⟨rest, by rw [hc]⟩

theorem exists_firstBlock_braced {text : List Char} (h : '{' ∈ text) :
    ∃ before after, FirstBlock text before (braced text) after := by
  obtain ⟨rest, hdrop⟩ := exists_dropWhile_eq h
  obtain ⟨cut, after, hrest, hclose, hclosing⟩ := exists_closing_closeFrom Nat.one_pos ['{'] rest
  have hbraced : braced text = '{' :: cut := by
    rw [braced, hdrop]
    exact hclose
  refine ⟨text.takeWhile (· != '{'), after, ?_, fun hmem => ?_, by rw [hbraced]; rfl, ?_, ?_⟩
  · rw [hbraced, List.append_assoc, List.cons_append, ← hrest, ← hdrop, List.takeWhile_append_dropWhile]
  · simpa using List.mem_takeWhile_imp hmem
  · intro front hfront hnil hne
    rw [hbraced] at hfront hne
    rcases List.prefix_cons_iff.mp hfront with rfl | ⟨tail, rfl, htail⟩
    · exact absurd rfl hnil
    · have hlt := hclosing.stays_open tail htail fun heq => hne (by rw [heq])
      rw [List.count_cons_self, List.count_cons_of_ne (by decide)]
      omega
  · rw [hbraced, List.count_cons_self, List.count_cons_of_ne (by decide)]
    exact hclosing.closes.imp (fun h => by omega) fun h => ⟨h.1, by omega⟩

theorem braced_eq_nil_iff {text : List Char} : braced text = [] ↔ '{' ∉ text := by
  constructor
  · intro hnil hmem
    obtain ⟨before, after, hblock⟩ := exists_firstBlock_braced hmem
    have := hblock.head?_eq
    rw [hnil] at this
    cases this
  · intro hmem
    have hdrop : text.dropWhile (· != '{') = [] := by
      refine List.dropWhile_eq_nil_iff.mpr fun c hc => ?_
      rw [bne_iff_ne]
      rintro rfl
      exact hmem hc
    rw [braced, hdrop]
    rfl

theorem braced_prefix (rest : List Char) : braced ('{' :: rest) <+: '{' :: rest := by
  obtain ⟨before, after, hblock⟩ := exists_firstBlock_braced (List.mem_cons_self (a := '{') (l := rest))
  have hbefore : before = [] := by
    cases before with
    | nil => rfl
    | cons c before =>
      have htext := hblock.text_eq
      rw [List.cons_append, List.cons_append] at htext
      exact absurd (List.cons.inj htext).1 fun hc => hblock.not_mem_before (hc ▸ List.mem_cons_self)
  exact ⟨after, by rw [← List.nil_append (braced _), ← hbefore]; exact hblock.text_eq.symm⟩

namespace FirstBlock

variable {text before before' block block' after after' : List Char}

/-- A block that ends within another one is that one. -/
theorem eq_of_isPrefix (h : FirstBlock text before block after)
    (heq : block ++ after = block' ++ after') (hwithin : block <+: block')
    (hopen : ∀ front, front <+: block' → front ≠ [] → front ≠ block' → front.count '}' < front.count '{') :
    block = block' := by
  by_contra hne
  have hnil : block ≠ [] := by
    rintro rfl
    cases h.head?_eq
  have hlt := hopen block hwithin hnil hne
  rcases h.closes with hcloses | ⟨rfl, -⟩
  · omega
  · rw [List.append_nil] at heq
    have hlength := congrArg List.length heq
    rw [List.length_append] at hlength
    have hle := hwithin.length_le
    exact hne (hwithin.eq_of_length (by omega))

theorem unique (h : FirstBlock text before block after) (h' : FirstBlock text before' block' after') :
    before = before' ∧ block = block' := by
  have hbefore {before block after : List Char} (h : FirstBlock text before block after) :
      text.takeWhile (· != '{') = before := by
    obtain ⟨tail, htail⟩ : ∃ tail, block = '{' :: tail := List.head?_eq_some_iff.mp h.head?_eq
    rw [h.text_eq, htail, List.append_assoc, List.cons_append, List.takeWhile_append_of_pos,
      List.takeWhile_cons_of_neg (by simp), List.append_nil]
    intro c hc
    rw [bne_iff_ne]
    rintro rfl
    exact h.not_mem_before hc
  obtain rfl : before = before' := (hbefore h).symm.trans (hbefore h')
  have heq : block ++ after = block' ++ after' := by
    have := h.text_eq.symm.trans h'.text_eq
    rwa [List.append_assoc, List.append_assoc, List.append_cancel_left_eq] at this
  refine ⟨rfl, ?_⟩
  rcases List.prefix_or_prefix_of_prefix (List.prefix_append block after) (heq ▸ List.prefix_append block' after')
    with hwithin | hwithin
  · exact h.eq_of_isPrefix heq hwithin h'.stays_open
  · exact (h'.eq_of_isPrefix heq.symm hwithin h.stays_open).symm

theorem braced_eq (h : FirstBlock text before block after) : braced text = block := by
  have hmem : '{' ∈ text := by
    obtain ⟨tail, rfl⟩ := List.head?_eq_some_iff.mp h.head?_eq
    simp [h.text_eq]
  obtain ⟨before', after', hbraced⟩ := exists_firstBlock_braced hmem
  exact (hbraced.unique h).2

end FirstBlock

/-- As many braces are closed as opened, and none before it is opened. -/
structure IsBalanced (body : List Char) : Prop where
  count_eq : body.count '{' = body.count '}'
  count_le : ∀ front, front <+: body → front.count '}' ≤ front.count '{'

theorem isBalanced_of_not_mem {body : List Char} (hopen : '{' ∉ body) (hclose : '}' ∉ body) : IsBalanced body where
  count_eq := by rw [List.count_eq_zero.mpr hopen, List.count_eq_zero.mpr hclose]
  count_le front hfront := by
    rw [List.count_eq_zero.mpr fun hmem => hclose (hfront.subset hmem)]
    exact Nat.zero_le _

namespace IsBalanced

variable {body : List Char}

theorem block_stays_open (h : IsBalanced body) {front : List Char} (hfront : front <+: '{' :: (body ++ ['}']))
    (hnil : front ≠ []) (hne : front ≠ '{' :: (body ++ ['}'])) : front.count '}' < front.count '{' := by
  rcases List.prefix_cons_iff.mp hfront with rfl | ⟨tail, rfl, htail⟩
  · exact absurd rfl hnil
  · have hbody : tail <+: body := by
      rcases List.prefix_concat_iff.mp htail with rfl | hbody
      · exact absurd rfl hne
      · exact hbody
    have hle := h.count_le tail hbody
    rw [List.count_cons_self, List.count_cons_of_ne (by decide)]
    omega

theorem block_count_eq (h : IsBalanced body) :
    ('{' :: (body ++ ['}'])).count '{' = ('{' :: (body ++ ['}'])).count '}' := by
  simp [h.count_eq]

theorem block_count_le (h : IsBalanced body) {front : List Char} (hfront : front <+: '{' :: (body ++ ['}'])) :
    front.count '}' ≤ front.count '{' := by
  rcases eq_or_ne front [] with rfl | hnil
  · exact Nat.le_refl _
  · rcases eq_or_ne front ('{' :: (body ++ ['}'])) with rfl | hne
    · exact Nat.le_of_eq h.block_count_eq.symm
    · exact Nat.le_of_lt (h.block_stays_open hfront hnil hne)

theorem firstBlock (h : IsBalanced body) {before : List Char} (hbefore : '{' ∉ before) (after : List Char) :
    FirstBlock (before ++ '{' :: (body ++ ['}']) ++ after) before ('{' :: (body ++ ['}'])) after where
  text_eq := rfl
  not_mem_before := hbefore
  head?_eq := rfl
  stays_open _ hfront hnil hne := h.block_stays_open hfront hnil hne
  closes := .inl h.block_count_eq

end IsBalanced

/-- What is cut out from a place on is empty if no brace is opened there, and else the one first block there. -/
theorem braced_drop (text : List Char) (start : Nat) :
    (braced (text.drop start) = [] ↔ '{' ∉ text.drop start) ∧
      ('{' ∈ text.drop start →
        ∃ before after, FirstBlock (text.drop start) before (braced (text.drop start)) after) ∧
      ∀ before block after, FirstBlock (text.drop start) before block after →
        block = braced (text.drop start) :=
  ⟨braced_eq_nil_iff, exists_firstBlock_braced, fun _ _ _ h => h.braced_eq.symm⟩

end CodeCensus.Body
