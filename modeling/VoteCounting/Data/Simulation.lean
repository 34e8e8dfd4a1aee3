import VoteCounting.Data.Run

namespace VoteCounting

universe u v w x

variable {σ τ : Type u} {ι κ : Type v} {ο π : Type w} {φ ψ : Type x}

/-- Each step of the first machine is answered by one step of the second or by none. -/
structure Simulates (low : σ → ι → Except φ (ο × σ)) (high : τ → κ → Except ψ (π × τ))
    (lowOk : σ → ι → Prop) (highOk : τ → κ → Prop) (related : σ → τ → Prop) : Prop where
  step : ∀ {state input output after abstract}, related state abstract → lowOk state input →
    low state input = .ok (output, after) →
      related after abstract ∨ ∃ move answer next, highOk abstract move ∧
        high abstract move = .ok (answer, next) ∧ related after next

/-- Every run of the first machine leads where some run of the second one leads. -/
theorem Simulates.run {low : σ → ι → Except φ (ο × σ)} {high : τ → κ → Except ψ (π × τ)}
    {lowOk : σ → ι → Prop} {highOk : τ → κ → Prop} {related : σ → τ → Prop} {start final : σ}
    {abstract : τ} {history : List (Event σ ι ο)} (simulates : Simulates low high lowOk highOk related)
    (initial : related start abstract) (run : Run low start history final)
    (along : Along (fun _ => lowOk) history) :
    ∃ steps reached, Run high abstract steps reached ∧ Along (fun _ => highOk) steps ∧
      related final reached := by
  induction run with
  | nil => exact ⟨[], abstract, .nil, Run.along_nil, initial⟩
  | snoc _ answered ih =>
      obtain ⟨before, last⟩ := Run.along_snoc.mp along
      obtain ⟨steps, reached, followed, held, together⟩ := ih before
      rcases simulates.step together last answered with same | ⟨move, answer, next, ok, stepped, after⟩
      · exact ⟨steps, reached, followed, held, same⟩
      · exact ⟨_, next, followed.snoc stepped, Run.along_snoc.mpr ⟨held, ok⟩, after⟩

/-- Where each step uses something up on one level or the other, first on the upper one, the first
machine does not run for ever. -/
theorem not_endless {low : σ → ι → Except φ (ο × σ)} {related : σ → τ → Prop} (upper : τ → Nat)
    (lower : σ → Nat) {abstract : τ}
    (step : ∀ {state abstract input output after}, related state abstract →
      low state input = .ok (output, after) → related after abstract ∧ lower after < lower state ∨
        ∃ next, related after next ∧ upper next < upper abstract)
    (states : Nat → σ) (initial : related (states 0) abstract) :
    ¬ ∀ k, ∃ input output, low (states k) input = .ok (output, states (k + 1)) := by
  intro steps
  have founded : WellFounded (Prod.Lex (· < ·) (· < ·) : Nat × Nat → Nat × Nat → Prop) :=
    wellFounded_lt.prod_lex wellFounded_lt
  suffices none : ∀ left k abstract, related (states k) abstract →
      (upper abstract, lower (states k)) = left → False from none _ 0 abstract initial rfl
  intro left
  induction left using founded.induction with
  | _ left ih =>
      rintro k abstract together rfl
      obtain ⟨input, output, answered⟩ := steps k
      rcases step together answered with ⟨after, less⟩ | ⟨next, after, less⟩
      · exact ih _ (.right _ less) (k + 1) abstract after rfl
      · exact ih _ (.left _ _ less) (k + 1) next after rfl

end VoteCounting
