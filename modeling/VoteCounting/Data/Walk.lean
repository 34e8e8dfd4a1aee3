import Mathlib.Logic.Relation
import Mathlib.Order.WellFoundedSet

namespace VoteCounting.Walk

open Relation

universe u

variable {α : Type u} {next other : α → Option α} {x : α} {n : ℕ}

/-- Where the walk is after some steps; `none` once it has ended. -/
def walk (next : α → Option α) : ℕ → α → Option α
  | 0, x => some x
  | n + 1, x => (next x).bind (walk next n)

def Ends (next : α → Option α) (x : α) : Prop := ∃ n, walk next n x = none

def Leads (next : α → Option α) (x y : α) : Prop := next x = some y

theorem ends_of_last (last : next x = none) : Ends next x := ⟨1, by simp [walk, last]⟩

theorem ends_iff : Ends next x ↔ ∀ y, next x = some y → Ends next y := by
  constructor
  · intro ⟨n, ended⟩ y step
    cases n with
    | zero => cases ended
    | succ n => exact ⟨n, by simpa [walk, step] using ended⟩
  · intro later
    cases step : next x with
    | none => exact ends_of_last step
    | some y =>
        obtain ⟨n, ended⟩ := later y step
        exact ⟨n + 1, by simpa [walk, step] using ended⟩

/-- A walk that can always go on where a property holds, and keeps it, never ends. -/
theorem not_ends_of_forever {P : α → Prop} (forever : ∀ x, P x → ∃ y, next x = some y ∧ P y)
    (holds : P x) :
    ¬ Ends next x := by
  intro ⟨n, ended⟩
  induction n generalizing x with
  | zero => cases ended
  | succ n ih =>
      obtain ⟨y, step, kept⟩ := forever x holds
      rw [walk, step] at ended
      exact ih kept ended

theorem not_ends_of_cycle (cycle : TransGen (Leads next) x x) : ¬ Ends next x := by
  refine not_ends_of_forever (P := fun x => TransGen (Leads next) x x) (fun x cycle => ?_) cycle
  obtain ⟨y, step, back⟩ := TransGen.head'_iff.mp cycle
  exact ⟨y, step, TransGen.tail' back step⟩

theorem ends_of_acyclic (finite : {x | next x ≠ none}.Finite)
    (acyclic : ∀ x, ¬ TransGen (Leads next) x x) (x : α) : Ends next x := by
  have order : IsStrictOrder α fun later earlier => TransGen (Leads next) earlier later :=
    { irrefl := acyclic
      trans := fun _ _ _ last first => first.trans last }
  have descending :
      {x | next x ≠ none}.WellFoundedOn fun later earlier => TransGen (Leads next) earlier later :=
    finite.wellFoundedOn
  by_cases last : next x = none
  · exact ends_of_last last
  · refine descending.induction (P := Ends next) last fun y _ ih => ends_iff.mpr fun z step => ?_
    by_cases lastStep : next z = none
    · exact ends_of_last lastStep
    · exact ih z lastStep (TransGen.single step)

/-- Where only finitely many places lead on, all walks end if and only if none comes back to
where it was. -/
theorem ends_iff_acyclic (finite : {x | next x ≠ none}.Finite) :
    (∀ x, Ends next x) ↔ ∀ x, ¬ TransGen (Leads next) x x :=
  ⟨fun ends x cycle => not_ends_of_cycle cycle (ends x), ends_of_acyclic finite⟩

/-- Two functions that agree where the walk goes. -/
theorem ends_congr {P : α → Prop} (same : ∀ x, P x → next x = other x)
    (kept : ∀ x y, P x → next x = some y → P y) (holds : P x) : Ends next x ↔ Ends other x := by
  have walks : ∀ n x, P x → walk next n x = walk other n x := by
    intro n
    induction n with
    | zero => exact fun _ _ => rfl
    | succ n ih =>
        intro x holds
        rw [walk, walk, ← same x holds]
        cases step : next x with
        | none => rfl
        | some y => exact ih y (kept x y holds step)
  exact exists_congr fun n => by rw [walks n x holds]

/-- The places a walk comes to up to its end, in order. -/
inductive Visits (next : α → Option α) : α → List α → Prop
  | last {x : α} (last : next x = none) : Visits next x []
  | step {x y : α} {visited : List α} (step : next x = some y) (later : Visits next y visited) :
      Visits next x (y :: visited)

end VoteCounting.Walk
