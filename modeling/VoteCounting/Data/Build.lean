import Mathlib.Tactic

namespace VoteCounting

universe u v w

/-- What each target reads, and the one place it is put.  How it is made is left open. -/
structure Rules (ι : Type u) (κ : Type v) (β : Type w) where
  out : ι → κ
  needs : ι → List κ
  run : (κ → β) → ι → κ → β
  frame : ∀ {store : κ → β} {target : ι} {place : κ}, place ≠ out target →
    run store target place = store place
  reads : ∀ {store other : κ → β} {target : ι}, (∀ need ∈ needs target, store need = other need) →
    store (out target) = other (out target) →
      run store target (out target) = run other target (out target)

namespace Rules

variable {ι : Type u} {κ : Type v} {β : Type w}

/-- A target is as it is made of the needs as they are after, and of what was in its place before. -/
def Made (rules : Rules ι κ β) (before after : κ → β) (target : ι) : Prop :=
  ∀ seen, (∀ need ∈ rules.needs target, seen need = after need) →
    seen (rules.out target) = before (rules.out target) →
      after (rules.out target) = rules.run seen target (rules.out target)

/-- Every target comes after those it needs. -/
structure Ordered (rules : Rules ι κ β) (order : List ι) : Prop where
  apart : ∀ target ∈ order, ∀ other ∈ order, rules.out target = rules.out other → target = other
  once : order.Nodup
  ready : ∀ before target after, order = before ++ target :: after → ∀ need ∈ rules.needs target,
    (∃ earlier ∈ before, need = rules.out earlier) ∨ ∀ other ∈ order, need ≠ rules.out other

variable {rules : Rules ι κ β} {store before : κ → β} {order : List ι} {target other : ι} {place : κ}

/-- A target that reads its needs as they stay has just been made. -/
theorem run_made (unchanged : store (rules.out target) = before (rules.out target))
    (outside : rules.out target ∉ rules.needs target) :
    rules.Made before (rules.run store target) target := by
  intro seen needs place
  refine rules.reads (fun need held => ?_) (unchanged.trans place.symm)
  rw [needs need held, rules.frame fun same => outside (same ▸ held)]

theorem Made.run (made : rules.Made before store other) (apart : rules.out other ≠ rules.out target)
    (unneeded : rules.out target ∉ rules.needs other) :
    rules.Made before (rules.run store target) other := by
  intro seen needs place
  rw [rules.frame apart]
  refine made seen (fun need held => ?_) place
  rw [needs need held, rules.frame fun same => unneeded (same ▸ held)]

theorem foldl_run_other (rules : Rules ι κ β)
    (elsewhere : ∀ target ∈ order, place ≠ rules.out target) :
    order.foldl rules.run store place = store place := by
  induction order generalizing store with
  | nil => rfl
  | cons target rest ih =>
      rw [List.foldl_cons, ih fun other held => elsewhere other (List.mem_cons_of_mem _ held)]
      exact rules.frame (elsewhere target List.mem_cons_self)

theorem Ordered.front {last : ι} (ordered : rules.Ordered (order ++ [last])) : rules.Ordered order where
  apart target held other alsoHeld := ordered.apart target (List.mem_append_left _ held) other
    (List.mem_append_left _ alsoHeld)
  once := (List.nodup_append.mp ordered.once).1
  ready := by
    rintro before target after rfl need held
    rcases ordered.ready before target (after ++ [last]) (by simp) need held with made | unmade
    · exact .inl made
    · exact .inr fun other member => unmade other (List.mem_append_left _ member)

/-- Nothing needs the last target. -/
theorem Ordered.last_unneeded {last : ι} (ordered : rules.Ordered (order ++ [last])) :
    ∀ target ∈ order ++ [last], rules.out last ∉ rules.needs target := by
  have fresh : last ∉ order := fun held =>
    (List.nodup_append.mp ordered.once).2.2 last held last List.mem_cons_self rfl
  have own : last ∈ order ++ [last] := List.mem_append_right _ List.mem_cons_self
  intro target held needed
  obtain ⟨before, after, split⟩ := List.append_of_mem held
  rcases ordered.ready before target after split _ needed with ⟨other, made, same⟩ | unmade
  · have inside : other ∈ order ++ [last] := split ▸ List.mem_append_left _ made
    obtain rfl := ordered.apart last own other inside same
    rcases List.eq_nil_or_concat after with rfl | ⟨front, final, rfl⟩
    · obtain ⟨rfl, _⟩ := List.append_inj' split rfl
      exact fresh made
    · rw [List.concat_eq_append, ← List.cons_append, ← List.append_assoc] at split
      obtain ⟨rfl, _⟩ := List.append_inj' split rfl
      exact fresh (List.mem_append_left _ made)
  · exact unmade last own rfl

/-- Made in such an order, every target is as it is made of what is stored in the end. -/
theorem Ordered.made (ordered : rules.Ordered order) :
    ∀ target ∈ order, rules.Made store (order.foldl rules.run store) target := by
  induction order using List.reverseRecOn with
  | nil => exact fun target held => absurd held List.not_mem_nil
  | append_singleton order last ih =>
      have earlier := ih ordered.front
      have unneeded := ordered.last_unneeded
      have own : last ∈ order ++ [last] := List.mem_append_right _ List.mem_cons_self
      have apart : ∀ target ∈ order, rules.out target ≠ rules.out last := by
        intro target held same
        obtain rfl := ordered.apart target (List.mem_append_left _ held) last own same
        exact (List.nodup_append.mp ordered.once).2.2 target held target List.mem_cons_self rfl
      rw [List.foldl_append, List.foldl_cons, List.foldl_nil]
      intro target held
      rcases List.mem_append.mp held with old | new
      · exact (earlier target old).run (apart target old) (unneeded target held)
      · obtain rfl := List.mem_singleton.mp new
        refine run_made (rules.foldl_run_other fun other member => ?_) (unneeded target held)
        exact (apart other member).symm

end Rules

end VoteCounting
