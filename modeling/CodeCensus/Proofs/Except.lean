import Mathlib.Data.List.Basic

/-! Steps that may fail: how one after another comes out, how steps over a list do, and steps that change a state. -/

namespace CodeCensus.Except

variable {ε α β γ : Type}

section

variable {x : Except ε α} {f : α → Except ε β}

theorem bind_eq_ok {b : β} (h : x >>= f = .ok b) : ∃ a, x = .ok a ∧ f a = .ok b := by
  cases x with
  | error e => cases h
  | ok a => exact ⟨a, rfl, h⟩

theorem bind_eq_error {e : ε} (h : x >>= f = .error e) :
    x = .error e ∨ ∃ a, x = .ok a ∧ f a = .error e := by
  cases x with
  | error e' =>
    cases h
    exact .inl rfl
  | ok a => exact .inr ⟨a, rfl, h⟩

theorem map_eq_error {g : α → β} {e : ε} (h : x.map g = .error e) : x = .error e := by
  cases x with
  | error e' =>
    cases h
    rfl
  | ok a => cases h

theorem map_eq_ok {g : α → β} {b : β} (h : x.map g = .ok b) : ∃ a, x = .ok a ∧ g a = b := by
  cases x with
  | error e => cases h
  | ok a => exact ⟨a, rfl, Except.ok.inj h⟩

theorem mapError_eq_ok_iff {ε' : Type} {g : ε → ε'} {a : α} : x.mapError g = .ok a ↔ x = .ok a := by
  constructor
  · intro h
    cases x with
    | error e => cases h
    | ok b => exact congrArg _ (Except.ok.inj h)
  · rintro rfl
    rfl

end

/-! ## Steps over a list -/

theorem mapM_eq_ok [Inhabited β] {f : α → Except ε β} {l : List α} {found : List β} (h : l.mapM f = .ok found) :
    found = l.map (fun a => (f a).toOption.getD default) ∧
      ∀ a ∈ l, f a = .ok ((f a).toOption.getD default) := by
  induction l generalizing found with
  | nil =>
    obtain rfl := Except.ok.inj h
    exact ⟨rfl, by simp⟩
  | cons a l ih =>
    rw [List.mapM_cons] at h
    obtain ⟨b, hb, h⟩ := bind_eq_ok h
    obtain ⟨rest, hrest, h⟩ := bind_eq_ok h
    obtain rfl := Except.ok.inj h
    obtain ⟨hmap, hall⟩ := ih hrest
    refine ⟨?_, List.forall_mem_cons.mpr ⟨?_, hall⟩⟩
    · rw [List.map_cons, hb, ← hmap]
      rfl
    · rw [hb]
      rfl

theorem exists_mapM_eq_ok {f : α → Except ε β} {l : List α} (h : ∀ a ∈ l, ∃ b, f a = .ok b) :
    ∃ found, l.mapM f = .ok found := by
  induction l with
  | nil => exact ⟨[], rfl⟩
  | cons a l ih =>
    obtain ⟨b, hb⟩ := h a List.mem_cons_self
    obtain ⟨rest, hrest⟩ := ih fun a ha => h a (List.mem_cons_of_mem _ ha)
    exact ⟨b :: rest, by rw [List.mapM_cons, hb, hrest]; rfl⟩

theorem exists_mapM_eq_error {f : α → Except ε β} {l : List α} {e : ε} (h : l.mapM f = .error e) :
    ∃ a ∈ l, f a = .error e := by
  induction l with
  | nil => cases h
  | cons a l ih =>
    rw [List.mapM_cons] at h
    rcases bind_eq_error h with ha | ⟨b, -, h⟩
    · exact ⟨a, List.mem_cons_self, ha⟩
    · rcases bind_eq_error h with hrest | ⟨rest, -, h⟩
      · obtain ⟨a', ha', he⟩ := ih hrest
        exact ⟨a', List.mem_cons_of_mem a ha', he⟩
      · cases h

theorem exists_filterMapM_eq_error {f : α → Except ε (Option β)} {l : List α} {e : ε}
    (h : l.filterMapM f = .error e) : ∃ a ∈ l, f a = .error e := by
  induction l with
  | nil => cases h
  | cons a l ih =>
    rw [List.filterMapM_cons] at h
    rcases bind_eq_error h with ha | ⟨b?, -, h⟩
    · exact ⟨a, List.mem_cons_self, ha⟩
    · have hrest : l.filterMapM f = .error e := by
        cases b? with
        | none => exact h
        | some b =>
          rcases bind_eq_error h with hrest | ⟨rest, -, h⟩
          · exact hrest
          · cases h
      obtain ⟨a', ha', he⟩ := ih hrest
      exact ⟨a', List.mem_cons_of_mem a ha', he⟩

theorem ok_of_filterMapM {f : α → Except ε (Option β)} {l : List α} {found : List β}
    (h : l.filterMapM f = .ok found) : ∀ a ∈ l, ∃ b?, f a = .ok b? := by
  induction l generalizing found with
  | nil => exact fun a ha => absurd ha List.not_mem_nil
  | cons a l ih =>
    rw [List.filterMapM_cons] at h
    obtain ⟨b?, hb, h⟩ := bind_eq_ok h
    refine List.forall_mem_cons.mpr ⟨⟨b?, hb⟩, ?_⟩
    cases b? with
    | none => exact ih h
    | some b =>
      obtain ⟨rest, hrest, -⟩ := bind_eq_ok h
      exact ih hrest

theorem mem_of_filterMapM {f : α → Except ε (Option β)} {l : List α} {found : List β}
    (h : l.filterMapM f = .ok found) (b : β) : b ∈ found ↔ ∃ a ∈ l, f a = .ok (some b) := by
  induction l generalizing found with
  | nil =>
    obtain rfl := Except.ok.inj h
    simp
  | cons a l ih =>
    rw [List.filterMapM_cons] at h
    obtain ⟨b?, ha, h⟩ := bind_eq_ok h
    cases b? with
    | none =>
      rw [ih h]
      simp [ha]
    | some b' =>
      obtain ⟨rest, hrest, h⟩ := bind_eq_ok h
      obtain rfl := Except.ok.inj h
      rw [List.mem_cons, ih hrest]
      simp [ha, eq_comm]

/-- What is kept of the items of a list keeps their order. -/
theorem sublist_of_filterMapM {f : α → Except ε (Option β)} {key : α → γ} {key' : β → γ} {l : List α}
    {found : List β} (hkey : ∀ a b, f a = .ok (some b) → key' b = key a)
    (h : l.filterMapM f = .ok found) : (found.map key').Sublist (l.map key) := by
  induction l generalizing found with
  | nil =>
    obtain rfl := Except.ok.inj h
    exact .slnil
  | cons a l ih =>
    rw [List.filterMapM_cons] at h
    obtain ⟨b?, ha, h⟩ := bind_eq_ok h
    cases b? with
    | none => exact .cons _ (ih h)
    | some b =>
      obtain ⟨rest, hrest, h⟩ := bind_eq_ok h
      obtain rfl := Except.ok.inj h
      rw [List.map_cons, List.map_cons, hkey a b ha]
      exact .cons_cons _ (ih hrest)

theorem exists_filterMapM_eq_ok {f : α → Except ε (Option β)} {l : List α}
    (h : ∀ a ∈ l, ∃ b?, f a = .ok b?) : ∃ found, l.filterMapM f = .ok found := by
  induction l with
  | nil => exact ⟨[], rfl⟩
  | cons a l ih =>
    obtain ⟨b?, hb⟩ := h a List.mem_cons_self
    obtain ⟨rest, hrest⟩ := ih fun a ha => h a (List.mem_cons_of_mem _ ha)
    rw [List.filterMapM_cons, hb]
    cases b? with
    | none => exact ⟨rest, hrest⟩
    | some b => exact ⟨b :: rest, by simp only [bind, Except.bind, hrest, pure, Except.pure]⟩

end CodeCensus.Except

/-! ## Steps that change a state -/

namespace CodeCensus

/-- From each state as assumed a step leads to a state as wanted, with what it gives, or fails for a reason that is
due. -/
def Ensures {σ ε α : Type} (before : σ → Prop) (due : ε → Prop) (after : α → σ → Prop)
    (m : StateT σ (Except ε) α) : Prop :=
  ∀ s, before s →
    match m s with
    | .ok (a, s') => after a s'
    | .error e => due e

/-- Steps that lead from states as assumed to such states again. -/
abbrev Keeps {σ ε α : Type} (kept : σ → Prop) (due : ε → Prop) (m : StateT σ (Except ε) α) : Prop :=
  Ensures kept due (fun _ => kept) m

section

variable {σ ε α β : Type} {before before' : σ → Prop} {due : ε → Prop}
  {between after : α → σ → Prop} {done : β → σ → Prop}

namespace Ensures

theorem of_run_eq_ok {x : StateT σ (Except ε) α} {s : σ} {found : α × σ} (hx : Ensures before due after x)
    (hs : before s) (h : x.run s = .ok found) : after found.1 found.2 := by
  have hstep := hx s hs
  rw [show x s = .ok found from h] at hstep
  exact hstep

theorem of_run_eq_error {x : StateT σ (Except ε) α} {s : σ} {e : ε} (hx : Ensures before due after x)
    (hs : before s) (h : x.run s = .error e) : due e := by
  have hstep := hx s hs
  rw [show x s = .error e from h] at hstep
  exact hstep

theorem pure {a : α} (h : ∀ s, before s → after a s) : Ensures before due after (Pure.pure a) :=
  fun s hs => h s hs

theorem throw {e : ε} (h : due e) :
    Ensures before due after (MonadExcept.throw e : StateT σ (Except ε) α) := fun _ _ => h

theorem throw_bind {e : ε} {f : α → StateT σ (Except ε) β} (h : due e) :
    Ensures before due done ((MonadExcept.throw e : StateT σ (Except ε) α) >>= f) := fun _ _ => h

theorem get : Ensures before due (fun a s => a = s ∧ before s) (MonadState.get : StateT σ (Except ε) σ) :=
  fun _ hs => ⟨rfl, hs⟩

theorem modify {f : σ → σ} (h : ∀ s, before s → before' (f s)) :
    Ensures before due (fun _ => before') (modify f : StateT σ (Except ε) PUnit) := h

theorem bind {x : StateT σ (Except ε) α} {f : α → StateT σ (Except ε) β} (hx : Ensures before due between x)
    (hf : ∀ a, Ensures (between a) due done (f a)) : Ensures before due done (x >>= f) := by
  intro s hs
  have hstep := hx s hs
  change match Except.bind (x s) fun found => f found.1 found.2 with
    | .ok (b, s') => done b s'
    | .error e => due e
  cases hrun : x s with
  | error e =>
    rw [hrun] at hstep
    exact hstep
  | ok found =>
    rw [hrun] at hstep
    exact hf found.1 found.2 hstep

theorem map {x : StateT σ (Except ε) α} {f : α → β} (hx : Ensures before due (fun a => done (f a)) x) :
    Ensures before due done (f <$> x) := hx.bind fun _ => pure fun _ hs => hs

theorem weaken {x : StateT σ (Except ε) α} (hx : Ensures before due after x)
    (hbefore : ∀ s, before' s → before s) : Ensures before' due after x := fun s hs => hx s (hbefore s hs)

theorem mono {due' : ε → Prop} {x : StateT σ (Except ε) α} (hx : Ensures before due between x)
    (hdue : ∀ e, due e → due' e) (hafter : ∀ a s, between a s → after a s) : Ensures before due' after x := by
  intro s hs
  have hstep := hx s hs
  cases hrun : x s with
  | error e =>
    rw [hrun] at hstep
    exact hdue e hstep
  | ok found =>
    rw [hrun] at hstep
    exact hafter found.1 found.2 hstep

theorem imp {x : StateT σ (Except ε) α} (hx : Ensures before due between x)
    (hafter : ∀ a s, between a s → after a s) : Ensures before due after x := hx.mono (fun _ he => he) hafter

theorem allow {due' : ε → Prop} {x : StateT σ (Except ε) α} (hx : Ensures before due after x)
    (hdue : ∀ e, due e → due' e) : Ensures before due' after x := hx.mono hdue fun _ _ hs => hs

/-- What all states as assumed have in common may be used. -/
theorem assume {p : Prop} {x : StateT σ (Except ε) α} (hp : ∀ s, before s → p)
    (hx : p → Ensures before due after x) : Ensures before due after x := fun s hs => hx (hp s hs) s hs

theorem lift {x : Except ε α} (hok : ∀ a, x = .ok a → ∀ s, before s → after a s) (herror : ∀ e, x = .error e → due e) :
    Ensures before due after (liftM x : StateT σ (Except ε) α) := by
  intro s hs
  cases x with
  | error e => exact herror e rfl
  | ok a => exact hok a rfl s hs

theorem ite {c : Prop} [Decidable c] {x y : StateT σ (Except ε) α} (hx : c → Ensures before due after x)
    (hy : ¬ c → Ensures before due after y) : Ensures before due after (if c then x else y) := by
  split
  · exact hx ‹_›
  · exact hy ‹_›

/-- Either of two steps, and what comes after both. -/
theorem either {c : Prop} [Decidable c] {x y : StateT σ (Except ε) α} {f : α → StateT σ (Except ε) β}
    (hx : Ensures before due between x) (hy : Ensures before due between y)
    (hf : ∀ a, Ensures (between a) due done (f a)) :
    Ensures before due done (if c then x >>= f else y >>= f) :=
  .ite (fun _ => hx.bind hf) fun _ => hy.bind hf

theorem guard {c : Prop} [Decidable c] {x : StateT σ (Except ε) PUnit} {y : StateT σ (Except ε) α}
    (hx : Keeps before due x) (hy : Ensures before due after y) :
    Ensures before due after (if c then x >>= fun _ => y else y) :=
  .ite (fun _ => hx.bind fun _ => hy) fun _ => hy

end Ensures

theorem Keeps.pure (a : α) : Keeps before due (Pure.pure a : StateT σ (Except ε) α) :=
  Ensures.pure fun _ hs => hs

theorem Keeps.mapM {f : α → StateT σ (Except ε) β} {l : List α} (h : ∀ a ∈ l, Keeps before due (f a)) :
    Keeps before due (l.mapM f) := by
  induction l with
  | nil => exact Keeps.pure []
  | cons a l ih =>
    rw [List.mapM_cons]
    exact (h a List.mem_cons_self).bind fun b =>
      (ih fun a ha => h a (List.mem_cons_of_mem _ ha)).bind fun rest => Keeps.pure (b :: rest)

theorem Keeps.forM {f : α → StateT σ (Except ε) PUnit} {l : List α} (h : ∀ a ∈ l, Keeps before due (f a)) :
    Keeps before due (l.forM f) := by
  induction l with
  | nil => exact Keeps.pure _
  | cons a l ih =>
    rw [List.forM]
    exact (h a List.mem_cons_self).bind fun _ => ih fun a ha => h a (List.mem_cons_of_mem _ ha)

end

end CodeCensus
