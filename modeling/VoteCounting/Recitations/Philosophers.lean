import VoteCounting.Data.Locks
import VoteCounting.Data.Run

namespace VoteCounting.Recitations.Philosophers

/-- The next call of `threadFun`, and of the `dine` and `eat` in it. -/
inductive Place where
  | asleep
  | test
  | lockLeft
  | tryRight
  | eat
  | chew
  | unlockRight
  | unlockLeft
  | giveUp
  | finished
deriving DecidableEq, Repr

inductive Hand where
  | left
  | right
deriving DecidableEq, Repr

@[simp]
theorem Hand.forall {property : Hand → Prop} :
    (∀ hand, property hand) ↔ property .left ∧ property .right := by
  constructor
  · intro both
    exact ⟨both .left, both .right⟩
  · rintro ⟨left, right⟩ hand
    cases hand
    · exact left
    · exact right

structure Table (n : Nat) where
  food : Fin n → Int
  locked : Locks (Fin n)
  place : Fin n → Place

inductive Halt where
  | blocked
  | finished
deriving DecidableEq, Repr

variable {n : Nat}

/-- `locks[i]` and `locks[(i+1) % NUM_THRD]`. -/
def utensil (p : Fin n) : Hand → Fin n
  | .left => p
  | .right => ⟨(p + 1) % n, Nat.mod_lt _ p.pos⟩

/-- The philosopher whose left utensil is the right one of `p`. -/
def neighbour (p : Fin n) : Fin n := utensil p .right

namespace Table

def goto (table : Table n) (p : Fin n) (next : Place) : Table n :=
  { table with place := Function.update table.place p next }

def lock (table : Table n) (p : Fin n) (hand : Hand) : Table n :=
  { table with locked := table.locked.take (utensil p hand) }

def unlock (table : Table n) (p : Fin n) (hand : Hand) : Table n :=
  { table with locked := table.locked.release (utensil p hand) }

def eat (table : Table n) (p : Fin n) : Table n :=
  { table with food := Function.update table.food p (table.food p - 1) }

end Table

/-- The table before the threads run. -/
def laid (food : Fin n → Int) : Table n := ⟨food, fun _ => false, fun _ => .asleep⟩

/-- One call of one thread. -/
def step (table : Table n) (p : Fin n) : Except Halt (Unit × Table n) :=
  match table.place p with
  | .asleep => .ok ((), table.goto p .test)
  | .test => .ok ((), table.goto p (if 0 < table.food p then .lockLeft else .finished))
  | .lockLeft =>
      if table.locked (utensil p .left) then .error .blocked
      else .ok ((), (table.lock p .left).goto p .tryRight)
  | .tryRight =>
      if table.locked (utensil p .right) then .ok ((), table.goto p .giveUp)
      else .ok ((), (table.lock p .right).goto p .eat)
  | .eat => .ok ((), (table.eat p).goto p .chew)
  | .chew => .ok ((), table.goto p .unlockRight)
  | .unlockRight => .ok ((), (table.unlock p .right).goto p .unlockLeft)
  | .unlockLeft => .ok ((), (table.unlock p .left).goto p .test)
  | .giveUp => .ok ((), (table.unlock p .left).goto p .test)
  | .finished => .error .finished

/-- The locks a philosopher took and has not released where it is in the code. -/
def Place.holding : Place → Hand → Bool
  | .tryRight, .left | .giveUp, .left | .unlockLeft, .left => true
  | .eat, _ | .chew, _ | .unlockRight, _ => true
  | _, _ => false

/-- The food a philosopher has where it is in the code. -/
def Place.Fits (food : Int) : Place → Prop
  | .lockLeft | .tryRight | .eat => 0 < food
  | .finished => food = 0
  | _ => 0 ≤ food

def Holds (table : Table n) (p u : Fin n) : Prop :=
  ∃ hand, (table.place p).holding hand = true ∧ u = utensil p hand

/-- Between the call of `eat` and its return. -/
def Eating (table : Table n) (p : Fin n) : Prop := table.place p = .eat ∨ table.place p = .chew

/-- The number of times a philosopher took food. -/
def meals (p : Fin n) (history : List (Event (Table n) (Fin n) Unit)) : Nat :=
  history.countP fun event => event.input = p ∧ event.before.place p = .eat

/-- What a step does to the locks and the food. -/
inductive Moved (table : Table n) (p : Fin n) : Table n → Prop
  | go {next : Place} (hungry : table.place p ≠ .eat)
      (same : ∀ hand, next.holding hand = (table.place p).holding hand)
      (fits : (table.place p).Fits (table.food p) → next.Fits (table.food p)) :
      Moved table p (table.goto p next)
  | lock {hand : Hand} {next : Place} (hungry : table.place p ≠ .eat)
      (free : table.locked (utensil p hand) = false)
      (grown : ∀ other, next.holding other = true ↔
        (table.place p).holding other = true ∨ other = hand)
      (fits : (table.place p).Fits (table.food p) → next.Fits (table.food p)) :
      Moved table p ((table.lock p hand).goto p next)
  | unlock {hand : Hand} {next : Place} (hungry : table.place p ≠ .eat)
      (mine : (table.place p).holding hand = true)
      (shrunk : ∀ other, next.holding other = true ↔
        (table.place p).holding other = true ∧ other ≠ hand)
      (fits : (table.place p).Fits (table.food p) → next.Fits (table.food p)) :
      Moved table p ((table.unlock p hand).goto p next)
  | eat (seated : table.place p = .eat) : Moved table p ((table.eat p).goto p .chew)

section Steps

variable {table after : Table n} {p q : Fin n} {output : Unit} {halt : Halt}

theorem step_moved (done : step table p = .ok (output, after)) : Moved table p after := by
  cases here : table.place p <;> simp only [step, here] at done
  case asleep =>
    cases done
    apply Moved.go <;> simp [here, Place.holding, Place.Fits]
  case test =>
    cases done
    apply Moved.go
    · simp [here]
    · intro hand
      split <;> simp [here, Place.holding]
    · rw [here]
      intro nonneg
      split
      · assumption
      · exact le_antisymm (not_lt.mp ‹_›) nonneg
  case lockLeft =>
    split at done
    · cases done
    · cases done
      apply Moved.lock (by simp [here]) (Bool.eq_false_iff.mpr ‹_›) <;>
        simp [here, Place.holding, Place.Fits]
  case tryRight =>
    split at done
    · cases done
      apply Moved.go <;> simp [here, Place.holding, Place.Fits]
      exact le_of_lt
    · cases done
      apply Moved.lock (by simp [here]) (Bool.eq_false_iff.mpr ‹_›) <;>
        simp [here, Place.holding, Place.Fits]
  case eat =>
    cases done
    exact .eat here
  case chew =>
    cases done
    apply Moved.go <;> simp [here, Place.holding, Place.Fits]
  case unlockRight =>
    cases done
    apply Moved.unlock <;> simp [here, Place.holding, Place.Fits]
  case unlockLeft =>
    cases done
    apply Moved.unlock <;> simp [here, Place.holding, Place.Fits]
  case giveUp =>
    cases done
    apply Moved.unlock <;> simp [here, Place.holding, Place.Fits]
  case finished => cases done

/-- Only a philosopher that has finished, or whose left utensil is taken, makes no step. -/
theorem step_stopped (stopped : step table p = .error halt) : table.place p = .finished ∨
    table.place p = .lockLeft ∧ table.locked (utensil p .left) = true := by
  cases here : table.place p <;> simp only [step, here] at stopped
  case lockLeft =>
    split at stopped
    · exact .inr ⟨rfl, ‹_›⟩
    · cases stopped
  case tryRight => split at stopped <;> cases stopped
  case finished => exact .inl rfl
  all_goals cases stopped

theorem holds_goto {next : Place} {u : Fin n} : Holds (table.goto p next) q u ↔
    if q = p then ∃ hand, next.holding hand = true ∧ u = utensil p hand else Holds table q u := by
  by_cases same : q = p
  · simp [same, Holds, Table.goto]
  · simp [same, Holds, Table.goto]

theorem holds_own {u : Fin n} : Holds table p u ↔
    ∃ hand, (table.place p).holding hand = true ∧ u = utensil p hand := Iff.rfl

/-- The two utensils of a philosopher at a table for two or more are not the same. -/
theorem utensil_injective (company : 2 ≤ n) : Function.Injective (utensil p) := by
  have apart : p.val ≠ (p.val + 1) % n := by
    rcases Nat.lt_or_ge (p + 1) n with inside | outside
    · rw [Nat.mod_eq_of_lt inside]
      omega
    · have last : p.val + 1 = n := by omega
      rw [last, Nat.mod_self]
      omega
  intro hand other same
  cases hand <;> cases other
  · rfl
  · exact absurd (congrArg Fin.val same) apart
  · exact absurd (congrArg Fin.val same).symm apart
  · rfl

theorem holds_goto_same {next : Place} {u : Fin n}
    (same : ∀ hand, next.holding hand = (table.place p).holding hand) :
    Holds (table.goto p next) q u ↔ Holds table q u := by
  rw [holds_goto]
  split
  · simp only [same, ‹q = p›, Holds]
  · rfl

theorem holds_lock {hand : Hand} {next : Place} {u : Fin n} (grown : ∀ other,
      next.holding other = true ↔ (table.place p).holding other = true ∨ other = hand) :
    Holds ((table.lock p hand).goto p next) q u ↔
      Holds table q u ∨ q = p ∧ u = utensil p hand := by
  rw [holds_goto]
  split
  · subst ‹q = p›
    simp only [grown, holds_own, true_and]
    constructor
    · rintro ⟨other, old | rfl, rfl⟩
      · exact .inl ⟨other, old, rfl⟩
      · exact .inr rfl
    · rintro (⟨other, old, rfl⟩ | rfl)
      · exact ⟨other, .inl old, rfl⟩
      · exact ⟨hand, .inr rfl, rfl⟩
  · simp [‹q ≠ p›, Holds, Table.lock]

theorem holds_unlock {hand : Hand} {next : Place} {u : Fin n} (company : 2 ≤ n)
    (shrunk : ∀ other,
      next.holding other = true ↔ (table.place p).holding other = true ∧ other ≠ hand) :
    Holds ((table.unlock p hand).goto p next) q u ↔
      Holds table q u ∧ ¬ (q = p ∧ u = utensil p hand) := by
  rw [holds_goto]
  split
  · subst ‹q = p›
    simp only [shrunk, holds_own, true_and]
    constructor
    · rintro ⟨other, ⟨old, apart⟩, rfl⟩
      exact ⟨⟨other, old, rfl⟩, fun same => apart (utensil_injective company same)⟩
    · rintro ⟨⟨other, old, rfl⟩, apart⟩
      exact ⟨other, ⟨old, fun same => apart (congrArg _ same)⟩, rfl⟩
  · simp [‹q ≠ p›, Holds, Table.unlock]

namespace Moved

theorem others (moved : Moved table p after) (other : q ≠ p) :
    after.place q = table.place q ∧ after.food q = table.food q := by
  cases moved <;> simp [Table.goto, Table.lock, Table.unlock, Table.eat, other]

/-- A meal takes one portion from the one who eats; no other step changes the food. -/
theorem food_eq (moved : Moved table p after) : after.food =
    if table.place p = .eat then Function.update table.food p (table.food p - 1)
    else table.food := by
  cases moved with
  | go hungry | lock hungry | unlock hungry =>
      rw [if_neg hungry]
      rfl
  | eat seated =>
      rw [if_pos seated]
      rfl

theorem fits (moved : Moved table p after)
    (before : ∀ q, (table.place q).Fits (table.food q)) (q : Fin n) :
    (after.place q).Fits (after.food q) := by
  by_cases own : q = p
  · subst own
    cases moved with
    | go _ _ fits | lock _ _ _ fits | unlock _ _ _ fits =>
        simpa [Table.goto, Table.lock, Table.unlock] using fits (before q)
    | eat seated =>
        have some_food := before q
        rw [seated] at some_food
        simp only [Table.goto, Table.eat, Function.update_self]
        exact Int.sub_nonneg_of_le some_food
  · rw [(moved.others own).1, (moved.others own).2]
    exact before q

theorem held (company : 2 ≤ n) (moved : Moved table p after)
    (before : table.locked.Held (Holds table)) : after.locked.Held (Holds after) := by
  cases moved with
  | go _ same _ => exact before.congr fun q u => holds_goto_same same
  | lock _ free grown _ => exact before.take free fun q u => holds_lock grown
  | @unlock hand _ _ mine shrunk _ =>
      have holding : Holds table p (utensil p hand) := ⟨hand, mine, rfl⟩
      exact before.release holding fun q u => holds_unlock company shrunk
  | eat seated =>
      have same : ∀ hand, Place.holding .chew hand = (table.place p).holding hand := by
        simp [seated, Place.holding]
      have kept : (table.eat p).locked.Held (Holds (table.eat p)) := before
      exact kept.congr fun q u => holds_goto_same same

end Moved

theorem Place.Fits.nonneg {food : Int} {place : Place} (fits : place.Fits food) : 0 ≤ food := by
  cases place with
  | lockLeft | tryRight | eat => exact le_of_lt fits
  | finished => exact le_of_eq (Eq.symm fits)
  | asleep | test | chew | unlockRight | unlockLeft | giveUp => exact fits

theorem Eating.holding (eating : Eating table p) (hand : Hand) :
    Holds table p (utensil p hand) := by
  rcases eating with here | here <;> exact ⟨hand, by rw [here]; rfl, rfl⟩

/-- A philosopher with a utensil in its hand is never stopped: it waits only for the first one. -/
theorem Holds.enabled {u : Fin n} (holding : Holds table p u) :
    ∃ next, step table p = .ok next := by
  obtain ⟨hand, mine, _⟩ := holding
  cases stepped : step table p with
  | ok next => exact ⟨next, rfl⟩
  | error halt =>
      rcases step_stopped stepped with here | ⟨here, _⟩ <;> rw [here] at mine <;> cases mine

end Steps

/-- What holds while the philosophers dine. -/
structure Dining (table : Table n) : Prop where
  held : table.locked.Held (Holds table)
  fits : ∀ p, (table.place p).Fits (table.food p)

section Runs

variable {table : Table n} {food : Fin n → Int} {history : List (Event (Table n) (Fin n) Unit)}

theorem laid_dining (stocked : ∀ p, 0 ≤ food p) : Dining (laid food) where
  held := {
    single := by
      rintro p q u ⟨hand, mine, _⟩
      cases mine
    taken_iff := by
      intro u
      simp [laid, Holds, Place.holding] }
  fits := stocked

theorem run_dining (company : 2 ≤ n) (stocked : ∀ p, 0 ≤ food p)
    (run : Run step (laid food) history table) : Dining table := by
  apply run.invariant_state Dining (laid_dining stocked)
  intro before p output after dining done
  have moved := step_moved done
  exact ⟨moved.held company dining.held, moved.fits dining.fits⟩

theorem run_meals (run : Run step (laid food) history table) (p : Fin n) :
    table.food p = food p - meals p history := by
  induction run with
  | nil => simp [meals, laid]
  | @snoc past before after q output _ done ih =>
      rw [(step_moved done).food_eq]
      by_cases eats : q = p ∧ before.place p = .eat
      · have counted : meals p (past ++ [⟨before, q, output⟩]) = meals p past + 1 := by
          simp [meals, eats]
        rw [counted, eats.1, if_pos eats.2, Function.update_self, ih]
        push_cast
        ring
      · have counted : meals p (past ++ [⟨before, q, output⟩]) = meals p past := by
          simp [meals, eats]
        rw [counted, ← ih]
        split
        · have other : p ≠ q := by
            rintro rfl
            exact eats ⟨rfl, ‹_›⟩
          rw [Function.update_of_ne other]
        · rfl

theorem Dining.apart (company : 2 ≤ n) (dining : Dining table) (p : Fin n) :
    ¬ (Eating table p ∧ Eating table (neighbour p)) := by
  rintro ⟨mine, theirs⟩
  have same : p = neighbour p := dining.held.single (mine.holding .right) (theirs.holding .left)
  have hands : utensil p .left = utensil p .right := same
  cases utensil_injective company hands

theorem Dining.progress (dining : Dining table) (hungry : ∃ p, 0 < table.food p) :
    ∃ p next, step table p = .ok next := by
  obtain ⟨p, some_food⟩ := hungry
  have waiting : ¬ (∃ next, step table p = .ok next) → ∃ u, table.locked u = true := by
    intro stuck
    cases stepped : step table p with
    | ok next => exact absurd ⟨next, stepped⟩ stuck
    | error halt =>
        rcases step_stopped stepped with here | ⟨_, taken⟩
        · have fits := dining.fits p
          rw [here] at fits
          exact absurd fits (ne_of_gt some_food)
        · exact ⟨_, taken⟩
  exact dining.held.progress waiting fun _ _ holding => holding.enabled

/-- Whatever the order of the steps: no utensil has two holders, no neighbours eat at once, the
food is what the meals left of it, and while there is food some philosopher makes a step. -/
theorem dinner (company : 2 ≤ n) (stocked : ∀ p, 0 ≤ food p)
    (run : Run step (laid food) history table) :
    (∀ u p q, Holds table p u → Holds table q u → p = q) ∧
      (∀ u, table.locked u = true ↔ ∃ p, Holds table p u) ∧
      (∀ p, ¬ (Eating table p ∧ Eating table (neighbour p))) ∧
      (∀ p, 0 ≤ table.food p) ∧
      (∀ p output after, step table p = .ok (output, after) → after.food =
        if table.place p = .eat then Function.update table.food p (table.food p - 1)
        else table.food) ∧
      (∀ p, table.food p = food p - meals p history) ∧
      ((∃ p, 0 < table.food p) → ∃ p next, step table p = .ok next) := by
  have dining := run_dining company stocked run
  exact ⟨fun _ _ _ => dining.held.single, fun _ => dining.held.taken_iff, dining.apart company,
    fun p => (dining.fits p).nonneg, fun _ _ _ done => (step_moved done).food_eq, run_meals run,
    dining.progress⟩

/-- The first of two has taken its food, and the other can go on. -/
theorem dinner_of_two : ∃ history, ∃ table : Table 2, Run step (laid fun _ => 1) history table ∧
    Eating table 0 ∧ ¬ Eating table (neighbour 0) ∧ table.food 0 = 1 - meals 0 history ∧
      ∃ p next, step table p = .ok next := by
  have first : ∃ history, ∃ table : Table 2, Run step (laid fun _ => 1) history table ∧
      table.place 0 = .chew ∧ 0 < table.food 1 :=
    ⟨_, _, .of_execute [0, 0, 0, 0, 0] rfl, rfl, by decide⟩
  obtain ⟨history, table, run, here, some_food⟩ := first
  obtain ⟨_, _, apart, _, _, eaten, progress⟩ := dinner (by omega) (fun _ => by omega) run
  exact ⟨history, table, run, .inr here, fun eating => apart 0 ⟨.inr here, eating⟩, eaten 0,
    progress ⟨1, some_food⟩⟩

end Runs

end VoteCounting.Recitations.Philosophers
