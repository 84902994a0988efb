import CodeCensus.Proofs.Lookup
import CodeCensus.Proofs.Pattern.Counting

/-! The groups of a match. What a match records follows the way in which its pattern covers the text,
so it can be told from the pattern which groups are there and that they are not empty. -/

namespace CodeCensus

namespace Pattern

open Text Cursor

variable {text : List Char} {p : Pattern} {i j n : Nat} {new : Groups}

/-- A match records its groups along the stretch that it covers. -/
theorem Finds.captures {m : Match} (h : p.Finds text m i j) : Captures text p i j m.groups := by
  obtain ⟨j', new, hnew, hm⟩ := p.matchAt_records h.1
  obtain rfl := Option.some.inj hm
  obtain rfl : j' = j := congrArg Cursor.pos h.2.2
  rwa [List.append_nil]

theorem exists_finds_of_find? {m : Match} (h : p.find? text = some m) :
    ∃ i j, p.Finds text m i j := by
  have hfrom : p.findFrom p.opening (on text 0).ahead (on text 0) = some m := h
  obtain ⟨i, j, -, hfinds, -⟩ := findFrom_eq_some hfrom
  exact ⟨i, j, hfinds⟩

/-! ## Groups that are there -/

/-- Whether every match of a pattern records one of some groups. -/
def binds (ns : List Nat) : Pattern → Bool
  | .seq first second => first.binds ns || second.binds ns
  | .alt first second => first.binds ns && second.binds ns
  | .group n body => ns.contains n || body.binds ns
  | _ => false

theorem Captures.exists_mem {ns : List Nat} (h : Captures text p i j new) (hp : p.binds ns = true) :
    ∃ entry ∈ new, entry.1 ∈ ns := by
  induction h with
  | empty | one | edge | run | lazyRun | done | absent => cases hp
  | turn => cases hp
  | seq _ _ ih ih' =>
    rw [binds, Bool.or_eq_true] at hp
    rcases hp with hp | hp
    · obtain ⟨entry, hentry, hn⟩ := ih hp
      exact ⟨entry, List.mem_append_right _ hentry, hn⟩
    · obtain ⟨entry, hentry, hn⟩ := ih' hp
      exact ⟨entry, List.mem_append_left _ hentry, hn⟩
  | left _ ih =>
    rw [binds, Bool.and_eq_true] at hp
    exact ih hp.1
  | right _ ih =>
    rw [binds, Bool.and_eq_true] at hp
    exact ih hp.2
  | @group n body i j new _ ih =>
    rw [binds, Bool.or_eq_true, List.contains_iff_mem] at hp
    rcases hp with hp | hp
    · exact ⟨_, List.mem_cons_self, hp⟩
    · obtain ⟨entry, hentry, hn⟩ := ih hp
      exact ⟨entry, List.mem_cons_of_mem _ hentry, hn⟩

theorem isSome_lookup_of_mem {groups : Groups} {entry : Nat × Stretch} (h : entry ∈ groups) :
    (groups.lookup entry.1).isSome := by
  rw [List.lookup_isSome_iff]
  exact ⟨entry, h, by simp⟩

theorem Finds.exists_group? {ns : List Nat} {m : Match} (h : p.Finds text m i j)
    (hp : p.binds ns = true) : ∃ n ∈ ns, (m.group? n).isSome := by
  obtain ⟨entry, hentry, hn⟩ := h.captures.exists_mem hp
  exact ⟨entry.1, hn, isSome_lookup_of_mem hentry⟩

/-! ## Where groups lie -/

/-- Whether a group of a pattern always holds a character. -/
def fills (n : Nat) : Pattern → Bool
  | .seq first second | .alt first second => first.fills n && second.fills n
  | .many body => body.fills n
  | .group m body => (m != n || !body.opening.mayBeEmpty) && body.fills n
  | _ => true

/-- A group lies within the stretch of its match. -/
theorem Captures.exists_stretch (h : Captures text p i j new) {s : Stretch} (hs : (n, s) ∈ new) :
    ∃ a b, s = ⟨on text a, on text b⟩ ∧ i ≤ a ∧ a ≤ b ∧ b ≤ j ∧ (p.fills n = true → a < b) := by
  induction h with
  | empty | one | edge | run | lazyRun | done | absent => cases hs
  | @seq first second i m j new new' hfirst hsecond ih ih' =>
    have hle := hfirst.spans.le
    have hle' := hsecond.spans.le
    rcases List.mem_append.mp hs with hs | hs
    · obtain ⟨a, b, rfl, ha, hab, hb, hlt⟩ := ih' hs
      exact ⟨a, b, rfl, by omega, hab, hb, fun hp => hlt (Bool.and_eq_true .. ▸ hp).2⟩
    · obtain ⟨a, b, rfl, ha, hab, hb, hlt⟩ := ih hs
      exact ⟨a, b, rfl, ha, hab, by omega, fun hp => hlt (Bool.and_eq_true .. ▸ hp).1⟩
  | left _ ih =>
    obtain ⟨a, b, hab, ha, hle, hb, hlt⟩ := ih hs
    exact ⟨a, b, hab, ha, hle, hb, fun hp => hlt (Bool.and_eq_true .. ▸ hp).1⟩
  | right _ ih =>
    obtain ⟨a, b, hab, ha, hle, hb, hlt⟩ := ih hs
    exact ⟨a, b, hab, ha, hle, hb, fun hp => hlt (Bool.and_eq_true .. ▸ hp).2⟩
  | @turn body i m j new new' him hbody hlater ih ih' =>
    have hle := hlater.spans.le
    rcases List.mem_append.mp hs with hs | hs
    · obtain ⟨a, b, rfl, ha, hab, hb, hlt⟩ := ih' hs
      exact ⟨a, b, rfl, by omega, hab, hb, hlt⟩
    · obtain ⟨a, b, rfl, ha, hab, hb, hlt⟩ := ih hs
      exact ⟨a, b, rfl, ha, hab, by omega, hlt⟩
  | @group m body i j new hbody ih =>
    rcases List.mem_cons.mp hs with hs | hs
    · obtain ⟨rfl, rfl⟩ := Prod.mk.inj hs
      refine ⟨i, j, rfl, Nat.le_refl i, hbody.spans.le, Nat.le_refl j, fun hp => ?_⟩
      rw [fills, Bool.and_eq_true] at hp
      have hsolid : body.opening.mayBeEmpty = false := by simpa using hp.1
      exact hbody.spans.lt hsolid
    · obtain ⟨a, b, hab, ha, hle, hb, hlt⟩ := ih hs
      exact ⟨a, b, hab, ha, hle, hb, fun hp => hlt (Bool.and_eq_true .. ▸ hp).2⟩

theorem Finds.exists_of_group? {m : Match} (h : p.Finds text m i j) {s : Stretch}
    (hs : m.group? n = some s) :
    ∃ a b, s = ⟨on text a, on text b⟩ ∧ i ≤ a ∧ a ≤ b ∧ b ≤ j ∧ (p.fills n = true → a < b) :=
  h.captures.exists_stretch (mem_of_lookup_eq_some hs)

/-! ## Groups between other patterns -/

def groupNumbers : Pattern → List Nat
  | .seq first second | .alt first second => first.groupNumbers ++ second.groupNumbers
  | .many body => body.groupNumbers
  | .group n body => n :: body.groupNumbers
  | _ => []

theorem Captures.mem_groupNumbers (h : Captures text p i j new) : ∀ entry ∈ new, entry.1 ∈ p.groupNumbers := by
  intro entry hentry
  induction h with
  | empty | one | edge | run | lazyRun | done | absent => cases hentry
  | seq _ _ ih ih' =>
    rcases List.mem_append.mp hentry with hentry | hentry
    · exact List.mem_append_right _ (ih' hentry)
    · exact List.mem_append_left _ (ih hentry)
  | left _ ih => exact List.mem_append_left _ (ih hentry)
  | right _ ih => exact List.mem_append_right _ (ih hentry)
  | turn _ _ _ ih ih' => exact (List.mem_append.mp hentry).elim ih' ih
  | group _ ih =>
    rcases List.mem_cons.mp hentry with rfl | hentry
    · exact List.mem_cons_self
    · exact List.mem_cons_of_mem _ (ih hentry)

theorem captures_inOrder_append {ps qs : List Pattern} (h : Captures text (inOrder (ps ++ qs)) i j new) :
    ∃ m first second, Captures text (inOrder ps) i m first ∧ Captures text (inOrder qs) m j second ∧
      new = second ++ first := by
  induction ps generalizing i new with
  | nil => exact ⟨i, [], new, .empty, h, (List.append_nil new).symm⟩
  | cons p ps ih =>
    cases ps with
    | nil =>
      cases qs with
      | nil => exact ⟨j, new, [], h, .empty, rfl⟩
      | cons q qs =>
        cases h with
        | seq hp hqs => exact ⟨_, _, _, hp, hqs, rfl⟩
    | cons p' ps =>
      cases h with
      | seq hp hrest =>
        obtain ⟨m, first, second, hfirst, hsecond, rfl⟩ := ih hrest
        exact ⟨m, _, second, .seq hp hfirst, hsecond, List.append_assoc ..⟩

/-- A group that no later pattern records again holds what its own patterns cover. -/
theorem Finds.exists_kept {before ps after : List Pattern} {m : Match}
    (h : (inOrder (before ++ keep n ps :: after)).Finds text m i j) (hafter : n ∉ (inOrder after).groupNumbers) :
    ∃ a b, (inOrder before).Spans text i a ∧ (inOrder ps).Spans text a b ∧ (inOrder after).Spans text b j ∧
      m.group? n = some ⟨on text a, on text b⟩ := by
  obtain ⟨a, first, rest, hbefore, hrest, hgroups⟩ := captures_inOrder_append h.captures
  have hrest : Captures text (inOrder ([keep n ps] ++ after)) a j rest := hrest
  obtain ⟨b, kept, later, hkept, hlater, rfl⟩ := captures_inOrder_append hrest
  have hnone : later.lookup n = none := List.lookup_eq_none_iff.mpr fun entry hentry => by
    rw [bne_iff_ne]
    exact fun heq => hafter (heq ▸ hlater.mem_groupNumbers entry hentry)
  cases hkept with
  | group hbody =>
    refine ⟨a, b, hbefore.spans, hbody.spans, hlater.spans, ?_⟩
    rw [Match.group?, hgroups, List.lookup_append, List.lookup_append, hnone, Option.none_or, List.lookup_cons_self,
      Option.some_or]

end Pattern

end CodeCensus
