import Mathlib.Tactic

namespace VoteCounting

universe u v w x

/-- One answered input, with the state in which it was received. -/
structure Event (σ : Type u) (ι : Type v) (ο : Type w) where
  before : σ
  input : ι
  output : ο

variable {σ : Type u} {ι : Type v} {ο : Type w} {φ : Type x}

/-- The runs from `start`: the answered inputs, oldest first, and the last state. -/
inductive Run (step : σ → ι → Except φ (ο × σ)) (start : σ) : List (Event σ ι ο) → σ → Prop
  | nil : Run step start [] start
  | snoc {past : List (Event σ ι ο)} {state after : σ} {input : ι} {output : ο} :
      Run step start past state → step state input = .ok (output, after) →
      Run step start (past ++ [⟨state, input, output⟩]) after

/-- Every step of the history met a condition on the past, the state and the input. -/
def Along (ok : List (Event σ ι ο) → σ → ι → Prop) (history : List (Event σ ι ο)) : Prop :=
  ∀ past event future, history = past ++ event :: future → ok past event.before event.input

namespace Run

variable {step : σ → ι → Except φ (ο × σ)} {start middle final : σ}
  {ok : List (Event σ ι ο) → σ → ι → Prop} {history past future : List (Event σ ι ο)}
  {event : Event σ ι ο}

theorem along_snoc :
    Along ok (history ++ [event]) ↔ Along ok history ∧ ok history event.before event.input := by
  constructor
  · intro along
    refine ⟨fun past other future same => ?_, along history event [] rfl⟩
    exact along past other (future ++ [event]) (by simp [same])
  · intro ⟨along, last⟩ past other future same
    rcases List.eq_nil_or_concat future with rfl | ⟨front, final, rfl⟩
    · obtain ⟨rfl, rfl⟩ : history = past ∧ event = other := by
        have shape : history ++ [event] = past ++ [other] := same
        simpa using List.append_inj' shape rfl
      exact last
    · have shape : history ++ [event] = (past ++ other :: front) ++ [final] := by
        simpa using same
      obtain ⟨rfl, _⟩ := List.append_inj' shape rfl
      exact along past other front rfl

theorem along_nil : Along ok [] := by
  intro past event future same
  cases past <;> cases same

theorem along_of_forall {met : σ → ι → Prop}
    (each : ∀ event ∈ history, met event.before event.input) : Along (fun _ => met) history := by
  rintro past event future rfl
  exact each event (by simp)

theorem along_cons : Along ok (event :: history) ↔
    ok [] event.before event.input ∧ Along (fun past => ok (event :: past)) history := by
  constructor
  · intro along
    refine ⟨along [] event history rfl, fun past other future same => ?_⟩
    exact along (event :: past) other future (by simp [same])
  · intro ⟨first, along⟩ past other future same
    cases past with
    | nil =>
        cases same
        exact first
    | cons head rest =>
        simp only [List.cons_append, List.cons.injEq] at same
        obtain ⟨rfl, same⟩ := same
        exact along rest other future same

theorem along_prefix_of_append (along : Along ok (past ++ future)) : Along ok past :=
  fun before event after same => along before event (after ++ future) (by simp [same])

/-- What holds at the start and is kept by every step that meets the condition
holds after every run whose steps all meet it. -/
theorem invariant (Inv : List (Event σ ι ο) → σ → Prop) (initial : Inv [] start)
    (kept : ∀ {past state input output after}, Run step start past state → Inv past state →
      ok past state input → step state input = .ok (output, after) →
      Inv (past ++ [⟨state, input, output⟩]) after)
    (run : Run step start history final) (along : Along ok history) : Inv history final := by
  induction run with
  | nil => exact initial
  | snoc run answered ih =>
      obtain ⟨before, last⟩ := along_snoc.mp along
      exact kept run (ih before) last answered

/-- The unconditional form of `invariant`, for a property of states. -/
theorem invariant_state (Inv : σ → Prop) (initial : Inv start)
    (kept : ∀ {state input output after}, Inv state → step state input = .ok (output, after) →
      Inv after)
    (run : Run step start history final) : Inv final := by
  induction run with
  | nil => exact initial
  | snoc _ answered ih => exact kept ih answered

theorem cons {input : ι} {output : ο} (answered : step start input = .ok (output, middle))
    (rest : Run step middle future final) :
    Run step start (⟨start, input, output⟩ :: future) final := by
  induction rest with
  | nil => exact .snoc .nil answered
  | snoc _ last ih => exact .snoc ih last

/-- A run is no longer than what its steps use up. -/
theorem length_le (measure : σ → Nat) (falls : ∀ {state input output after},
      step state input = .ok (output, after) → measure after < measure state)
    (run : Run step start history final) : history.length + measure final ≤ measure start := by
  induction run with
  | nil => simp
  | snoc _ answered ih =>
      have less := falls answered
      rw [List.length_append, List.length_singleton]
      omega

/-- Where every step uses something up, some run comes to a state in which no step is possible. -/
theorem exists_last (measure : σ → Nat) (falls : ∀ {state input output after},
      step state input = .ok (output, after) → measure after < measure state) :
    ∃ history final, Run step start history final ∧ ∀ input result, step final input ≠ .ok result := by
  induction left : measure start using Nat.strong_induction_on generalizing start with
  | _ bound ih =>
      by_cases stuck : ∀ input result, step start input ≠ .ok result
      · exact ⟨[], start, .nil, stuck⟩
      · push Not at stuck
        obtain ⟨input, ⟨output, after⟩, answered⟩ := stuck
        obtain ⟨history, final, run, last⟩ := ih _ (left ▸ falls answered) rfl
        exact ⟨_, final, .cons answered run, last⟩

/-- A run splits at each of its events. -/
theorem split (run : Run step start (past ++ event :: future) final) :
    Run step start past event.before ∧
      ∃ after, step event.before event.input = .ok (event.output, after) ∧
        Run step after future final := by
  generalize whole : past ++ event :: future = history at run
  induction run generalizing future with
  | nil => simp at whole
  | @snoc earlier state after input output run answered ih =>
      rcases List.eq_nil_or_concat future with rfl | ⟨front, last, rfl⟩
      · obtain ⟨rfl, same⟩ := List.append_inj' whole rfl
        simp only [List.cons.injEq, and_true] at same
        subst same
        exact ⟨run, after, answered, .nil⟩
      · have shape : (past ++ event :: front) ++ [last] = earlier ++ [⟨state, input, output⟩] := by
          simpa using whole
        obtain ⟨front_eq, last_eq⟩ := List.append_inj' shape rfl
        simp only [List.cons.injEq, and_true] at last_eq
        obtain ⟨before, next, stepped, rest⟩ := ih front_eq
        subst last_eq
        exact ⟨before, next, stepped, by simpa using rest.snoc answered⟩

end Run

/-- Feed inputs one after another. -/
def execute (step : σ → ι → Except φ (ο × σ)) : σ → List ι → Except φ (List (Event σ ι ο) × σ)
  | state, [] => .ok ([], state)
  | state, input :: rest =>
      match step state input with
      | .error fault => .error fault
      | .ok (output, after) =>
          match execute step after rest with
          | .error fault => .error fault
          | .ok (future, final) => .ok (⟨state, input, output⟩ :: future, final)

theorem Run.of_execute {step : σ → ι → Except φ (ο × σ)} {start final : σ} (inputs : List ι)
    {history : List (Event σ ι ο)} (done : execute step start inputs = .ok (history, final)) :
    Run step start history final := by
  induction inputs generalizing start history with
  | nil =>
      simp only [execute, Except.ok.injEq, Prod.mk.injEq] at done
      obtain ⟨rfl, rfl⟩ := done
      exact .nil
  | cons input rest ih =>
      cases answered : step start input with
      | error fault => simp [execute, answered] at done
      | ok result =>
          obtain ⟨output, after⟩ := result
          cases remaining : execute step after rest with
          | error fault => simp [execute, answered, remaining] at done
          | ok result =>
              obtain ⟨future, last⟩ := result
              simp only [execute, answered, remaining, Except.ok.injEq, Prod.mk.injEq] at done
              obtain ⟨rfl, rfl⟩ := done
              exact .cons answered (ih remaining)

end VoteCounting
