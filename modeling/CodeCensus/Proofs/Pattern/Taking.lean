import CodeCensus.Proofs.Pattern.Search
import CodeCensus.Proofs.Pattern.Shape

/-! What the matcher takes first. Of the stretches that a pattern can cover from a place, the matcher tries the
longest run first (or the shortest, where so said) and the first alternative first. Where that choice lets
the rest match, it is the one that is kept, so a match can be followed along a text step by step. -/

namespace CodeCensus.Pattern

open Text Cursor

variable {text front rest : List Char} {p q : Pattern} {i j m n : Nat} {new new' : Groups}

/-- From one index the matcher takes the text up to another and records groups, if what follows can go on there. -/
def Takes (text : List Char) (p : Pattern) (i j : Nat) (new : Groups) : Prop :=
  ∀ (α : Type) (g : Groups) (k : Cursor → Groups → Option α) (x : α),
    k (on text j) (new ++ g) = some x → p.matchAt (on text i) g k = some x

theorem Takes.here? (h : Takes text p i j new) :
    p.here? (on text i) = some ⟨⟨on text i, on text j⟩, new⟩ := by
  refine h Match [] (fun c g => some ⟨⟨on text i, c⟩, g⟩) _ ?_
  rw [List.append_nil]

theorem Takes.finds (h : Takes text p i j new) : p.Finds text ⟨⟨on text i, on text j⟩, new⟩ i j :=
  ⟨h.here?, rfl, rfl⟩

/-- Where a pattern covers nothing, the matcher gives up. -/
theorem matchAt_eq_none {α : Type} {g : Groups} {k : Cursor → Groups → Option α}
    (h : ∀ e, ¬ p.Spans text i e) : p.matchAt (on text i) g k = none := by
  rw [Option.eq_none_iff_forall_ne_some]
  intro x hx
  obtain ⟨e, g', he, -⟩ := p.matchAt_sound hx
  exact h e he

/-- A pattern that cannot begin with the next character covers nothing. -/
theorem not_spans_of_drop (hp : p.opening.mayBeEmpty = false) {x : Char} (h : text.drop i = x :: rest)
    (hx : p.opening.chars x = false) (e : Nat) : ¬ p.Spans text i e := by
  intro hspans
  rcases hspans.begins with ⟨-, hempty⟩ | ⟨-, c, hc, hopens⟩
  · simp [hp] at hempty
  · rw [← List.head?_drop, h] at hc
    obtain rfl : x = c := Option.some.inj hc
    simp [hx] at hopens

theorem not_spans_of_head? (hp : p.opening.mayBeEmpty = false)
    (h : ∀ c ∈ (text.drop i).head?, p.opening.chars c = false) (e : Nat) : ¬ p.Spans text i e := by
  intro hspans
  have hlt := hspans.lt_length hp
  have hdrop := List.drop_eq_getElem_cons hlt
  rw [hdrop] at h
  exact not_spans_of_drop hp hdrop (h _ rfl) e hspans

/-! ## Places further on -/

theorem drop_add_length (h : text.drop i = front ++ rest) : text.drop (i + front.length) = rest := by
  rw [← List.drop_drop, h, List.drop_left]

theorem drop_succ_of_drop {x : Char} (h : text.drop i = x :: rest) : text.drop (i + 1) = rest := by
  rw [← List.drop_drop, h, List.drop_one, List.tail_cons]

theorem getElem?_of_drop (h : text.drop i = front ++ rest) {k : Nat} (hk : k < front.length) :
    text[i + k]? = front[k]? := by
  rw [← List.getElem?_drop, h, List.getElem?_append_left hk]

theorem throughout_of_drop {c : Char → Bool} (h : text.drop i = front ++ rest)
    (hfront : ∀ x ∈ front, c x = true) : Throughout text c i (i + front.length) := by
  intro k hik hk
  obtain ⟨l, rfl⟩ := Nat.exists_eq_add_of_le hik
  have hl : l < front.length := by omega
  refine ⟨front[l], ?_, hfront _ (List.getElem_mem hl)⟩
  rw [← List.getElem?_drop, h, List.getElem?_append_left hl, List.getElem?_eq_getElem hl]

theorem not_throughout_of_drop {c : Char → Bool} (h : text.drop i = front ++ rest)
    (hrest : ∀ x ∈ rest.head?, c x = false) {e : Nat} (hthrough : Throughout text c i e) :
    e ≤ i + front.length := by
  by_contra hlt
  obtain ⟨x, hx, hcx⟩ := hthrough (i + front.length) (by omega) (by omega)
  have := hrest x (by rw [← drop_add_length h, List.head?_drop, hx]; rfl)
  simp [this] at hcx

theorem text_stretch (h : text.drop i = front ++ rest) :
    Stretch.text ⟨on text i, on text (i + front.length)⟩ = front := by
  change (text.drop i).take (i + front.length - i) = front
  rw [h, Nat.add_sub_cancel_left, List.take_left]

/-! ## One pattern after another -/

theorem takes_empty : Takes text .empty i i [] := fun _ _ _ _ hk => hk

theorem takes_edge {e : Edge} (h : e.holds (on text i) = true) : Takes text (.edge e) i i [] := by
  intro α g k x hk
  rw [matchAt, if_pos h]
  exact hk

theorem takes_one_of_holds {c : Char → Bool} (h : HoldsAt text c i) : Takes text (.one c) i (i + 1) [] := by
  intro α g k x hk
  rw [matchAt, pass?_on_of_holds h]
  exact hk

theorem takes_one {c : Char → Bool} {x : Char} (h : text.drop i = x :: rest) (hx : c x = true) :
    Takes text (.one c) i (i + 1) [] := by
  refine takes_one_of_holds ⟨x, ?_, hx⟩
  rw [← List.head?_drop, h]
  rfl

theorem Takes.seq (h : Takes text p i m new) (h' : Takes text q m j new') :
    Takes text (.seq p q) i j (new' ++ new) := by
  intro α g k x hk
  refine h α g _ x (h' α _ k x ?_)
  rwa [← List.append_assoc]

theorem Takes.after (h : Takes text q i j new) {k : Nat} (hp : Takes text p k i []) : Takes text (.seq p q) k j new := by
  have hseq := hp.seq h
  rwa [List.append_nil] at hseq

theorem Takes.left (h : Takes text p i j new) : Takes text (.alt p q) i j new := by
  intro α g k x hk
  rw [matchAt, h α g k x hk]

theorem Takes.right (h : Takes text q i j new) (hnone : ∀ e, ¬ p.Spans text i e) :
    Takes text (.alt p q) i j new := by
  intro α g k x hk
  rw [matchAt, matchAt_eq_none hnone]
  exact h α g k x hk

theorem takes_opt_none (hnone : ∀ e, ¬ p.Spans text i e) : Takes text (opt p) i i [] :=
  takes_empty.right hnone

theorem Takes.group (h : Takes text p i j new) :
    Takes text (.group n p) i j ((n, ⟨on text i, on text j⟩) :: new) :=
  fun α g _ x hk => h α g _ x hk

theorem forall_mem_head? {P : Char → Prop} {c : Char} (h : P c) : ∀ x ∈ (c :: rest).head?, P x :=
  fun _ hx => Option.some.inj hx ▸ h

/-- A run is taken as far as it goes. -/
theorem takes_run_of_throughout {c : Char → Bool} (hij : i ≤ j) (hrun : Throughout text c i j)
    (hend : ¬ HoldsAt text c j) : Takes text (.run c) i j [] := by
  intro α g k x hk
  have hmem : on text j ∈ (on text i).reach c := mem_reach.mpr ⟨j, hij, hrun, rfl⟩
  cases hfound : ((on text i).reach c).findSome? fun c' => k c' g with
  | none =>
    have hnone := List.findSome?_eq_none_iff.mp hfound _ hmem
    exact absurd (hnone.symm.trans hk) (by simp)
  | some y =>
    obtain ⟨e, -, he, hy, hfar⟩ := findSome?_reach hfound
    rcases Nat.lt_trichotomy e j with hlt | rfl | hlt
    · exact absurd ((hfar j hlt hrun).symm.trans hk) (by simp)
    · rw [matchAt, hfound, ← hy]
      exact hk
    · exact absurd (he j hij hlt) hend

theorem takes_run {c : Char → Bool} (h : text.drop i = front ++ rest) (hfront : ∀ x ∈ front, c x = true)
    (hrest : ∀ x ∈ rest.head?, c x = false) : Takes text (.run c) i (i + front.length) [] := by
  refine takes_run_of_throughout (Nat.le_add_right _ _) (throughout_of_drop h hfront) ?_
  rintro ⟨x, hx, hcx⟩
  have := hrest x (by rw [← drop_add_length h, List.head?_drop, hx]; rfl)
  simp [this] at hcx

theorem takes_run_nil {c : Char → Bool} (h : text.drop i = rest) (hrest : ∀ x ∈ rest.head?, c x = false) :
    Takes text (.run c) i i [] := by
  have hnone : text.drop i = [] ++ rest := h
  exact takes_run hnone (List.forall_mem_nil _) hrest

theorem takes_some1 {c : Char → Bool} {first : Char} (h : text.drop i = first :: front ++ rest)
    (hfront : ∀ x ∈ first :: front, c x = true) (hrest : ∀ x ∈ rest.head?, c x = false) :
    Takes text (some1 c) i (i + (first :: front).length) [] := by
  have hone : Takes text (.one c) i (i + 1) [] := takes_one h (hfront first List.mem_cons_self)
  have hdrop : text.drop (i + 1) = front ++ rest := drop_succ_of_drop h
  have hrun := takes_run hdrop (fun x hx => hfront x (List.mem_cons_of_mem first hx)) hrest
  rw [List.length_cons, Nat.add_comm front.length, ← Nat.add_assoc]
  exact hone.seq hrun

theorem takes_some1_of_ne_nil {c : Char → Bool} (hne : front ≠ []) (h : text.drop i = front ++ rest)
    (hfront : ∀ x ∈ front, c x = true) (hrest : ∀ x ∈ rest.head?, c x = false) :
    Takes text (some1 c) i (i + front.length) [] := by
  obtain ⟨first, front, rfl⟩ := List.exists_cons_of_ne_nil hne
  exact takes_some1 h hfront hrest

theorem takes_chars (cs : List Char) (h : text.drop i = cs ++ rest) :
    Takes text (inOrder (cs.map fun c => .one (· == c))) i (i + cs.length) [] := by
  induction cs generalizing i with
  | nil => exact takes_empty
  | cons c cs ih =>
    have hone : Takes text (.one fun x => x == c) i (i + 1) [] := takes_one h (beq_self_eq_true c)
    have hrest := ih (drop_succ_of_drop h)
    rw [List.length_cons, Nat.add_comm cs.length, ← Nat.add_assoc]
    cases cs with
    | nil => exact hone
    | cons d cs => exact hone.seq hrest

theorem takes_text {s : String} (h : text.drop i = s.toList ++ rest) :
    Takes text (Pattern.text s) i (i + s.toList.length) [] := takes_chars s.toList h

/-! ## Runs taken only as far as they have to go -/

theorem firstReached_eq {α : Type} {c : Char → Bool} {k : Cursor → Option α} {x : α} {steps : Nat}
    (hij : i ≤ j) (hsteps : j ≤ i + steps) (hrun : Throughout text c i j) (hj : k (on text j) = some x)
    (hbefore : ∀ l, i ≤ l → l < j → k (on text l) = none) :
    firstReached c k steps (on text i) = some x := by
  have hsome : (k (on text j)).isSome := by rw [hj]; rfl
  obtain ⟨y, hy⟩ := Option.isSome_iff_exists.mp (isSome_firstReached hij hsteps hrun hsome)
  obtain ⟨e, hie, -, he, hfirst⟩ := firstReached_eq_some hy
  rcases Nat.lt_trichotomy e j with hlt | rfl | hlt
  · rw [hbefore e hie hlt] at he
    cases he
  · rw [hy, ← he, hj]
  · rw [hfirst j hij hlt] at hj
    cases hj

/-- A group that holds a lazy run ends at the first place from which what follows covers something. -/
theorem Takes.keep_lazy1_seq {c : Char → Bool} {e : Nat} (hij : i < j) (hrun : Throughout text c i j)
    (h : Takes text q j e new) (hbefore : ∀ l, i < l → l < j → ∀ e, ¬ q.Spans text l e) :
    Takes text (.seq (keep n [lazy1 c]) q) i e (new ++ [(n, ⟨on text i, on text j⟩)]) := by
  intro α g k x hk
  have hlength := hrun.le_length
  have hone : Takes text (.one c) i (i + 1) [] := takes_one_of_holds (hrun.holds hij)
  have hfirst : firstReached c (fun c' => q.matchAt c' ((n, ⟨on text i, c'⟩) :: g) k)
      (on text (i + 1)).ahead (on text (i + 1)) = some x := by
    refine firstReached_eq hij (by rw [on_ahead]; omega) (hrun.mono (Nat.le_succ i) (Nat.le_refl j)) ?_ ?_
    · refine h α _ k x ?_
      rwa [List.append_assoc] at hk
    · intro l hil hlj
      exact matchAt_eq_none (hbefore l hil hlj)
  exact hone α g (fun c' g' => (Pattern.lazyRun c).matchAt c' g' fun c'' g'' =>
    q.matchAt c'' ((n, ⟨on text i, c''⟩) :: g'') k) x hfirst

/-- Where an option is taken, what follows it goes on from there. -/
theorem Takes.opt_seq (h : Takes text (.seq p q) i j new) : Takes text (.seq (opt p) q) i j new := by
  intro α g k x hk
  have hpq : p.matchAt (on text i) g (fun c' g' => q.matchAt c' g' k) = some x := h α g k x hk
  change (Pattern.alt p .empty).matchAt (on text i) g (fun c' g' => q.matchAt c' g' k) = some x
  rw [matchAt, hpq]

theorem takes_seq_assoc {r : Pattern} :
    Takes text (.seq (.seq p q) r) i j new ↔ Takes text (.seq p (.seq q r)) i j new := Iff.rfl

end CodeCensus.Pattern
