import Mathlib.Tactic

namespace VoteCounting.Loop

universe u v

variable {σ : Type u} {α : Type v} {body : σ → α → Option σ} {items : List α} {start final : σ}

/-- An invariant may speak of the items done so far. -/
theorem invariant (Inv : List α → σ → Prop) (initial : Inv [] start)
    (kept : ∀ {done rest : List α} {item : α} {state after : σ}, items = done ++ item :: rest →
      Inv done state → body state item = some after → Inv (done ++ [item]) after)
    (finished : items.foldlM body start = some final) : Inv items final := by
  have loop : ∀ (rest done : List α) (state : σ), items = done ++ rest → Inv done state →
      rest.foldlM body state = some final → Inv items final := by
    intro rest
    induction rest with
    | nil =>
        intro done state whole holds ran
        simp only [List.foldlM_nil, Option.pure_def, Option.some.injEq] at ran
        rw [whole, List.append_nil, ← ran]
        exact holds
    | cons item rest ih =>
        intro done state whole holds ran
        simp only [List.foldlM_cons, Option.bind_eq_bind, Option.bind_eq_some_iff] at ran
        obtain ⟨middle, first, remaining⟩ := ran
        exact ih (done ++ [item]) middle (by simp [whole]) (kept whole holds first) remaining
  exact loop items [] start rfl initial finished

/-- The form of `invariant` for a property of states. -/
theorem keeps (P : σ → Prop) (holds : P start)
    (kept : ∀ {item : α} {state after : σ}, P state → body state item = some after → P after)
    (finished : items.foldlM body start = some final) : P final :=
  invariant (fun _ state => P state) holds (fun _ holds ran => kept holds ran) finished

/-- A loop whose body never fails where the invariant holds does not fail. -/
theorem total (P : σ → Prop) (holds : P start)
    (step : ∀ state, P state → ∀ item ∈ items, ∃ after, body state item = some after ∧ P after) :
    ∃ final, items.foldlM body start = some final ∧ P final := by
  induction items generalizing start with
  | nil => exact ⟨start, rfl, holds⟩
  | cons item rest ih =>
      obtain ⟨middle, first, kept⟩ := step start holds item List.mem_cons_self
      obtain ⟨final, remaining, last⟩ := ih kept fun state holds later member =>
        step state holds later (List.mem_cons_of_mem _ member)
      exact ⟨final, by simp [first, remaining], last⟩

/-- The form of `total` whose invariant speaks of the items done so far. -/
theorem total_invariant (Inv : List α → σ → Prop) (initial : Inv [] start)
    (step : ∀ {done rest : List α} {item : α} {state : σ}, items = done ++ item :: rest →
      Inv done state → ∃ after, body state item = some after ∧ Inv (done ++ [item]) after) :
    ∃ final, items.foldlM body start = some final ∧ Inv items final := by
  have loop : ∀ (rest done : List α) (state : σ), items = done ++ rest → Inv done state →
      ∃ final, rest.foldlM body state = some final ∧ Inv items final := by
    intro rest
    induction rest with
    | nil =>
        intro done state whole holds
        rw [List.append_nil] at whole
        exact ⟨state, rfl, whole ▸ holds⟩
    | cons item rest ih =>
        intro done state whole holds
        obtain ⟨middle, first, kept⟩ := step whole holds
        obtain ⟨final, remaining, last⟩ := ih (done ++ [item]) middle (by simp [whole]) kept
        exact ⟨final, by simp [first, remaining], last⟩
  exact loop items [] start rfl initial

/-- A loop that first computes a value from the item alone. -/
theorem foldlM_map {β : Type*} (value : α → Option β) (next : σ → β → σ) :
    items.foldlM (fun state item => (value item).map (next state)) start =
      (items.mapM value).map (List.foldl next start) := by
  induction items generalizing start with
  | nil => rfl
  | cons item rest ih =>
      cases computed : value item with
      | none => simp [computed]
      | some result =>
          simp only [List.foldlM_cons, List.mapM_cons, computed, Option.map_some, Option.bind_eq_bind,
            Option.bind_some, ih]
          cases rest.mapM value <;> rfl

/-- A loop whose body answers more often answers the same. -/
theorem foldlM_mono {other : σ → α → Option σ}
    (more : ∀ {state item after}, body state item = some after → other state item = some after)
    (finished : items.foldlM body start = some final) : items.foldlM other start = some final := by
  induction items generalizing start with
  | nil => exact finished
  | cons item rest ih =>
      simp only [List.foldlM_cons, Option.bind_eq_bind, Option.bind_eq_some_iff] at finished ⊢
      obtain ⟨middle, first, remaining⟩ := finished
      exact ⟨middle, more first, ih remaining⟩

theorem foldl_shrinks {step : σ → α → σ} {Fits : σ → Prop}
    (shrinks : ∀ state item, Fits (step state item) → Fits state)
    (fits : Fits (items.foldl step start)) :
    Fits start := by
  induction items generalizing start with
  | nil => exact fits
  | cons item rest ih => exact shrinks start item (ih fits)

/-- A loop that stops where its state would not fit.  As states only grow, the last one decides. -/
theorem foldlM_guarded {step : σ → α → σ} {Fits : σ → Prop}
    (shrinks : ∀ state item, Fits (step state item) → Fits state)
    (guarded : ∀ {state item after}, Fits state →
      (body state item = some after ↔ after = step state item ∧ Fits after))
    (fits : Fits start) : items.foldlM body start = some final ↔ final = items.foldl step start ∧
      Fits final := by
  induction items generalizing start with
  | nil =>
      simp only [List.foldlM_nil, Option.pure_def, Option.some.injEq, List.foldl_nil]
      exact ⟨fun same => ⟨same.symm, same ▸ fits⟩, fun ⟨same, _⟩ => same.symm⟩
  | cons item rest ih =>
      simp only [List.foldlM_cons, Option.bind_eq_bind, Option.bind_eq_some_iff, List.foldl_cons]
      constructor
      · rintro ⟨middle, first, remaining⟩
        obtain ⟨rfl, middleFits⟩ := (guarded fits).mp first
        exact (ih middleFits).mp remaining
      · rintro ⟨same, finalFits⟩
        have middleFits : Fits (step start item) := foldl_shrinks shrinks (same ▸ finalFits)
        exact ⟨_, (guarded fits).mpr ⟨rfl, middleFits⟩, (ih middleFits).mpr ⟨same, finalFits⟩⟩

end VoteCounting.Loop
