import VoteCounting.Data.Locks
import VoteCounting.Data.Run
import Mathlib.Algebra.BigOperators.Fin

namespace VoteCounting.Recitations.Accounts

/-! Bank accounts with a lock each, changed by threads that run side by side.

Amounts are whole numbers, for which sums of type `double` are exact as far as they go.
-/

universe u

/-- One call of `deposit`; a call of `withdraw` has the amount with the other sign. -/
structure Call (α : Type u) where
  account : α
  change : Int
deriving DecidableEq, Repr

variable {α : Type u}

def deposit (act : α) (amt : Int) : List (Call α) := [⟨act, amt⟩]

def withdraw (act : α) (amt : Int) : List (Call α) := [⟨act, -amt⟩]

/-- Neither lock is held between the two calls. -/
def transfer (out into : α) (amt : Int) : List (Call α) := withdraw out amt ++ deposit into amt

inductive Task (α : Type u) where
  | depositTask (into : α) (amt : Int)
  | withdrawTask (out : α) (amt : Int)
  | transferTask (out into : α) (amt : Int)
deriving DecidableEq, Repr

def Task.calls : Task α → List (Call α)
  | depositTask into amt => deposit into amt
  | withdrawTask out amt => withdraw out amt
  | transferTask out into amt => transfer out into amt

/-- The next step of the first call; the balance is loaded and stored in two steps. -/
inductive Phase where
  | lock
  | load
  | store (loaded : Int)
  | unlock
deriving DecidableEq, Repr

structure Thread (α : Type u) where
  calls : List (Call α)
  phase : Phase := .lock
deriving DecidableEq, Repr

structure Bank (α : Type u) (n : Nat) where
  balance : α → Int
  locked : Locks α := fun _ => false
  threads : Fin n → Thread α

inductive Halt where
  | blocked
  | finished
deriving DecidableEq, Repr

variable {n : Nat}

def Bank.goto (bank : Bank α n) (i : Fin n) (thread : Thread α) : Bank α n :=
  { bank with threads := Function.update bank.threads i thread }

/-- The accounts before the threads run. -/
def opened (balance : α → Int) (tasks : Fin n → Task α) : Bank α n where
  balance
  threads i := { calls := (tasks i).calls }

/-- The lock a thread has taken and not released. -/
def Thread.Holds (thread : Thread α) (act : α) : Prop :=
  thread.phase ≠ .lock ∧ ∃ call, thread.calls.head? = some call ∧ call.account = act

section Holders

variable {bank : Bank α n} {i : Fin n} {thread : Thread α} {act : α}

theorem goto_self : (bank.goto i thread).threads i = thread := Function.update_self ..

theorem goto_other {j : Fin n} (other : j ≠ i) : (bank.goto i thread).threads j = bank.threads j :=
  Function.update_of_ne other ..

/-- A thread that stays in its call keeps its lock. -/
theorem holds_same {call : Call α} {rest : List (Call α)} {phase next : Phase}
    (place : bank.threads i = ⟨call :: rest, phase⟩) (inside : phase ≠ .lock)
    (still : next ≠ .lock) (j : Fin n) :
    ((bank.goto i ⟨call :: rest, next⟩).threads j).Holds act ↔ (bank.threads j).Holds act := by
  by_cases own : j = i
  · subst own
    rw [goto_self, place]
    simp [Thread.Holds, inside, still]
  · rw [goto_other own]

theorem holds_lock {call : Call α} {rest : List (Call α)}
    (place : bank.threads i = ⟨call :: rest, .lock⟩) (j : Fin n) :
    ((bank.goto i ⟨call :: rest, .load⟩).threads j).Holds act ↔
      (bank.threads j).Holds act ∨ j = i ∧ act = call.account := by
  by_cases own : j = i
  · subst own
    rw [goto_self, place]
    simp [Thread.Holds, eq_comm]
  · rw [goto_other own]
    simp [own]

theorem holds_unlock {call : Call α} {rest : List (Call α)}
    (place : bank.threads i = ⟨call :: rest, .unlock⟩) (j : Fin n) :
    ((bank.goto i ⟨rest, .lock⟩).threads j).Holds act ↔
      (bank.threads j).Holds act ∧ ¬ (j = i ∧ act = call.account) := by
  by_cases own : j = i
  · subst own
    rw [goto_self, place]
    simp [Thread.Holds, eq_comm]
  · rw [goto_other own]
    simp [own]

theorem sum_update {M : Type} [AddCommGroup M] (f : Thread α → M) :
    ∑ j, f ((bank.goto i thread).threads j) =
      ∑ j, f (bank.threads j) + (f thread - f (bank.threads i)) := by
  have before := Finset.add_sum_erase Finset.univ (fun j => f (bank.threads j)) (Finset.mem_univ i)
  have after := Finset.add_sum_erase Finset.univ
    (fun j => f ((bank.goto i thread).threads j)) (Finset.mem_univ i)
  have others : ∀ j ∈ Finset.univ.erase i, f ((bank.goto i thread).threads j) =
      f (bank.threads j) := fun j member => by rw [goto_other (Finset.ne_of_mem_erase member)]
  rw [Finset.sum_congr rfl others, goto_self] at after
  rw [← before, ← after]
  abel

end Holders

variable [DecidableEq α]

namespace Bank

def lock (bank : Bank α n) (act : α) : Bank α n := { bank with locked := bank.locked.take act }

def unlock (bank : Bank α n) (act : α) : Bank α n := { bank with locked := bank.locked.release act }

def set (bank : Bank α n) (act : α) (balance : Int) : Bank α n :=
  { bank with balance := Function.update bank.balance act balance }

end Bank

/-- One step of one thread. -/
def step (bank : Bank α n) (i : Fin n) : Except Halt (Unit × Bank α n) :=
  match (bank.threads i).calls with
  | [] => .error .finished
  | call :: rest =>
      match (bank.threads i).phase with
      | .lock =>
          if bank.locked call.account then .error .blocked
          else .ok ((), (bank.lock call.account).goto i ⟨call :: rest, .load⟩)
      | .load => .ok ((), bank.goto i ⟨call :: rest, .store (bank.balance call.account)⟩)
      | .store loaded =>
          .ok ((), (bank.set call.account (loaded + call.change)).goto i ⟨call :: rest, .unlock⟩)
      | .unlock => .ok ((), (bank.unlock call.account).goto i ⟨rest, .lock⟩)

/-- What a step does. -/
inductive Moved (bank : Bank α n) (i : Fin n) : Bank α n → Prop
  | lock {call : Call α} {rest : List (Call α)} (place : bank.threads i = ⟨call :: rest, .lock⟩)
      (free : bank.locked call.account = false) :
      Moved bank i ((bank.lock call.account).goto i ⟨call :: rest, .load⟩)
  | load {call : Call α} {rest : List (Call α)} (place : bank.threads i = ⟨call :: rest, .load⟩) :
      Moved bank i (bank.goto i ⟨call :: rest, .store (bank.balance call.account)⟩)
  | store {call : Call α} {rest : List (Call α)} {loaded : Int}
      (place : bank.threads i = ⟨call :: rest, .store loaded⟩) :
      Moved bank i ((bank.set call.account (loaded + call.change)).goto i ⟨call :: rest, .unlock⟩)
  | unlock {call : Call α} {rest : List (Call α)} (place : bank.threads i = ⟨call :: rest, .unlock⟩) :
      Moved bank i ((bank.unlock call.account).goto i ⟨rest, .lock⟩)

/-- The changes of some calls to an account. -/
def changes (calls : List (Call α)) (act : α) : Int :=
  (calls.map fun call => if call.account = act then call.change else 0).sum

/-- What some calls move on an account, in or out. -/
def turnover (calls : List (Call α)) (act : α) : Int :=
  (calls.map fun call => if call.account = act then |call.change| else 0).sum

/-- The calls of a thread that have not stored their balance. -/
def Thread.unbooked (thread : Thread α) : List (Call α) :=
  match thread.phase with
  | .unlock => thread.calls.tail
  | _ => thread.calls

/-- Steps to the end of the thread. -/
def Thread.left (thread : Thread α) : Nat :=
  match thread.phase with
  | .lock => 4 * thread.calls.length
  | .load => 4 * thread.calls.length - 1
  | .store _ => 4 * thread.calls.length - 2
  | .unlock => 4 * thread.calls.length - 3

section Calls

variable {calls booked : List (Call α)} {call : Call α} {act : α}

theorem changes_cons : changes (call :: calls) act =
    (if call.account = act then call.change else 0) + changes calls act := by
  rw [changes, List.map_cons, List.sum_cons, ← changes]

theorem turnover_cons : turnover (call :: calls) act =
    (if call.account = act then |call.change| else 0) + turnover calls act := by
  rw [turnover, List.map_cons, List.sum_cons, ← turnover]

theorem turnover_nonneg : 0 ≤ turnover calls act := by
  induction calls with
  | nil => exact le_refl 0
  | cons call calls ih =>
      rw [turnover_cons]
      split
      · have := abs_nonneg call.change
        omega
      · omega

/-- What has been booked moved no more than the turnover of all calls. -/
theorem abs_booked_le : |changes (booked ++ calls) act - changes calls act| ≤
    turnover (booked ++ calls) act := by
  induction booked with
  | nil =>
      rw [List.nil_append, sub_self, abs_zero]
      exact turnover_nonneg
  | cons call booked ih =>
      rw [List.cons_append, changes_cons, turnover_cons, add_sub_assoc]
      refine (abs_add_le _ _).trans (add_le_add ?_ ih)
      split
      · rfl
      · rw [abs_zero]

end Calls

section Steps

variable {bank after : Bank α n} {i : Fin n} {thread : Thread α} {act : α}

theorem step_moved {output : Unit} (stepped : step bank i = .ok (output, after)) :
    Moved bank i after := by
  obtain ⟨calls, phase, whole⟩ : ∃ calls phase, bank.threads i = ⟨calls, phase⟩ := ⟨_, _, rfl⟩
  rw [step, whole] at stepped
  cases calls with
  | nil => cases stepped
  | cons call rest =>
      cases phase with
      | lock =>
          simp only at stepped
          split at stepped
          · cases stepped
          · rename_i free
            cases stepped
            exact .lock whole (by simpa using free)
      | load =>
          cases stepped
          exact .load whole
      | store loaded =>
          cases stepped
          exact .store whole
      | unlock =>
          cases stepped
          exact .unlock whole

end Steps

/-- Whoever has loaded a balance holds the account, and the books are right up to what is still
to be stored. -/
structure Booked (balance : α → Int) (tasks : Fin n → Task α) (bank : Bank α n) : Prop where
  held : bank.locked.Held fun i => (bank.threads i).Holds
  loaded : ∀ i call rest value, bank.threads i = ⟨call :: rest, .store value⟩ →
    value = bank.balance call.account
  suffix : ∀ i, (bank.threads i).unbooked <:+ (tasks i).calls
  books : ∀ act, bank.balance act + ∑ i, changes (bank.threads i).unbooked act =
    balance act + ∑ i, changes (tasks i).calls act

/-- What a step leaves of a thread. -/
structure Forward (bank : Bank α n) (i : Fin n) (after : Bank α n) (thread : Thread α) : Prop where
  threads : after.threads = (bank.goto i thread).threads
  suffix : thread.unbooked <:+ (bank.threads i).unbooked
  books : ∀ act, after.balance act + changes thread.unbooked act =
    bank.balance act + changes (bank.threads i).unbooked act

section Steps

variable {bank after : Bank α n} {i : Fin n} {balance : α → Int} {tasks : Fin n → Task α}

theorem Moved.forward (moved : Moved bank i after)
    (current : ∀ call rest value, bank.threads i = ⟨call :: rest, .store value⟩ →
      value = bank.balance call.account) :
    ∃ thread, Forward bank i after thread := by
  cases moved with
  | @lock call rest place free =>
      exact ⟨_, rfl, by rw [place]; exact List.suffix_rfl, fun act => by rw [place]; rfl⟩
  | @load call rest place =>
      exact ⟨_, rfl, by rw [place]; exact List.suffix_rfl, fun act => by rw [place]; rfl⟩
  | @store call rest loaded place =>
      refine ⟨_, rfl, ?_, fun act => ?_⟩
      · rw [place]
        exact List.suffix_cons call rest
      · rw [place, current call rest loaded place]
        simp only [Thread.unbooked, List.tail_cons, changes_cons, Bank.goto, Bank.set,
          Function.update_apply, eq_comm]
        split
        · subst act
          ring
        · ring
  | @unlock call rest place =>
      exact ⟨_, rfl, by rw [place]; exact List.suffix_rfl, fun act => by rw [place]; rfl⟩

theorem Booked.opened (balance : α → Int) (tasks : Fin n → Task α) :
    Booked balance tasks (opened balance tasks) where
  held :=
    { single := fun holds _ => absurd rfl holds.1
      taken_iff := by simp [Accounts.opened, Thread.Holds] }
  loaded := by
    intro i call rest value place
    cases congrArg Thread.phase place
  suffix i := List.suffix_rfl
  books _ := rfl

theorem Moved.held (moved : Moved bank i after)
    (before : bank.locked.Held fun i => (bank.threads i).Holds) :
    after.locked.Held fun i => (after.threads i).Holds := by
  cases moved with
  | @lock call rest place free => exact before.take free fun j act => holds_lock place j
  | load place => exact before.congr fun j act => holds_same place (by simp) (by simp) j
  | store place => exact before.congr fun j act => holds_same place (by simp) (by simp) j
  | @unlock call rest place =>
      have mine : (bank.threads i).Holds call.account := by
        rw [place]
        exact ⟨by simp, call, rfl, rfl⟩
      exact before.release mine fun j act => holds_unlock place j

/-- Only the holder of an account changes its balance. -/
theorem Moved.balance_eq (moved : Moved bank i after) {act : α}
    (other : ¬ (bank.threads i).Holds act) : after.balance act = bank.balance act := by
  cases moved with
  | @store call rest loaded place =>
      refine Function.update_of_ne ?_ ..
      rintro rfl
      rw [place] at other
      exact other ⟨by simp, call, rfl, rfl⟩
  | lock | load | unlock => rfl

theorem Booked.step (booked : Booked balance tasks bank) (moved : Moved bank i after) :
    Booked balance tasks after := by
  obtain ⟨thread, forward⟩ := moved.forward (booked.loaded i)
  refine ⟨moved.held booked.held, fun j call rest value place => ?_, fun j => ?_, fun act => ?_⟩
  · by_cases own : j = i
    · subst own
      -- only a thread that has just loaded is about to store
      cases moved with
      | load =>
          cases goto_self.symm.trans place
          rfl
      | lock | store | unlock => cases congrArg Thread.phase (goto_self.symm.trans place)
    · rw [forward.threads, goto_other own] at place
      have theirs : (bank.threads j).Holds call.account := by
        rw [place]
        exact ⟨by simp, call, rfl, rfl⟩
      rw [moved.balance_eq fun mine => own (booked.held.single theirs mine)]
      exact booked.loaded j call rest value place
  · rw [forward.threads]
    by_cases own : j = i
    · subst own
      rw [goto_self]
      exact forward.suffix.trans (booked.suffix j)
    · rw [goto_other own]
      exact booked.suffix j
  · have here := forward.books act
    have whole := booked.books act
    rw [forward.threads, sum_update fun thread => changes thread.unbooked act]
    omega

theorem Moved.falls (moved : Moved bank i after) :
    ∑ j, (after.threads j).left < ∑ j, (bank.threads j).left := by
  have own : (after.threads i).left < (bank.threads i).left := by
    cases moved with
    | lock place | load place | store place | unlock place =>
        rw [goto_self, place]
        simp only [Thread.left, List.length_cons]
        omega
  refine Finset.sum_lt_sum (fun j _ => ?_) ⟨i, Finset.mem_univ i, own⟩
  by_cases same : j = i
  · rw [same]
    exact own.le
  · cases moved with
    | lock | load | store | unlock => exact (congrArg Thread.left (goto_other same)).le

/-- A thread with calls left makes a step, unless it waits for its first lock. -/
theorem step_ready (more : (bank.threads i).calls ≠ [])
    (stuck : ¬ ∃ result, step bank i = .ok result) :
    (bank.threads i).phase = .lock ∧ ∃ act, bank.locked act = true := by
  obtain ⟨calls, phase, whole⟩ : ∃ calls phase, bank.threads i = ⟨calls, phase⟩ := ⟨_, _, rfl⟩
  rw [step, whole] at stuck
  rw [whole] at more ⊢
  cases calls with
  | nil => exact absurd rfl more
  | cons call rest =>
      cases phase with
      | lock =>
          refine ⟨rfl, call.account, ?_⟩
          by_contra free
          exact stuck ⟨_, if_neg free⟩
      | load | store | unlock => exact absurd ⟨_, rfl⟩ stuck

theorem Booked.finished (booked : Booked balance tasks bank)
    (stuck : ∀ i result, Accounts.step bank i ≠ .ok result) : (bank.threads i).calls = [] := by
  by_contra more
  have goes : ∃ j, ∃ result, Accounts.step bank j = .ok result := by
    apply booked.held.progress (fun waits => (step_ready more waits).2)
    rintro j act ⟨inside, call, head, _⟩
    by_contra waits
    refine inside (step_ready ?_ waits).1
    intro nothing
    rw [nothing] at head
    cases head
  obtain ⟨j, result, ready⟩ := goes
  exact stuck j result ready

theorem Booked.abs_le (booked : Booked balance tasks bank) (act : α) :
    |bank.balance act| ≤ |balance act| + ∑ i, turnover (tasks i).calls act := by
  have moved : bank.balance act = balance act +
      ∑ i, (changes (tasks i).calls act - changes (bank.threads i).unbooked act) := by
    rw [Finset.sum_sub_distrib]
    have whole := booked.books act
    omega
  rw [moved]
  refine (abs_add_le _ _).trans (add_le_add le_rfl ?_)
  refine (Finset.abs_sum_le_sum_abs _ _).trans (Finset.sum_le_sum fun i _ => ?_)
  obtain ⟨before, whole⟩ := booked.suffix i
  rw [← whole]
  exact abs_booked_le

theorem Booked.settled (booked : Booked balance tasks bank) (done : ∀ i, (bank.threads i).calls = [])
    (act : α) : bank.balance act = balance act + ∑ i, changes (tasks i).calls act := by
  rw [← booked.books act]
  have nothing : ∀ i, changes (bank.threads i).unbooked act = 0 := by
    intro i
    obtain ⟨calls, phase, whole⟩ : ∃ calls phase, bank.threads i = ⟨calls, phase⟩ := ⟨_, _, rfl⟩
    have empty : calls = [] := by simpa only [whole] using done i
    rw [whole, empty]
    cases phase <;> rfl
  simp [nothing]

end Steps

section Runs

variable {balance : α → Int} {tasks : Fin n → Task α} {bank : Bank α n}
  {history : List (Event (Bank α n) (Fin n) Unit)}

theorem run_booked (run : Run step (opened balance tasks) history bank) :
    Booked balance tasks bank :=
  run.invariant_state (Booked balance tasks) (Booked.opened balance tasks)
    fun booked stepped => booked.step (step_moved stepped)

/-- However the threads run side by side: an account has one thread inside at a time, its balance
is right up to the calls that have not stored theirs, it never leaves the range of all changes
together, and the threads come to an end with every change booked. -/
theorem accounts_settled (run : Run step (opened balance tasks) history bank) :
    (∀ act i j, (bank.threads i).Holds act → (bank.threads j).Holds act → i = j) ∧
      (∀ act, bank.balance act + ∑ i, changes (bank.threads i).unbooked act =
        balance act + ∑ i, changes (tasks i).calls act) ∧
      (∀ act, |bank.balance act| ≤ |balance act| + ∑ i, turnover (tasks i).calls act) ∧
      history.length ≤ 4 * ∑ i, (tasks i).calls.length ∧
      ((∀ i result, step bank i ≠ .ok result) → (∀ i, (bank.threads i).calls = []) ∧
        ∀ act, bank.balance act = balance act + ∑ i, changes (tasks i).calls act) := by
  have booked := run_booked run
  have length : history.length + ∑ i, (bank.threads i).left ≤ ∑ i, 4 * (tasks i).calls.length :=
    run.length_le (fun state => ∑ i, (state.threads i).left) fun stepped =>
      (step_moved stepped).falls
  rw [← Finset.mul_sum] at length
  exact ⟨fun _ _ _ => booked.held.single, booked.books, booked.abs_le, by omega, fun stuck =>
    ⟨fun _ => booked.finished stuck, booked.settled fun _ => booked.finished stuck⟩⟩

/-- A transfer and a deposit, with the deposit between the two halves of the transfer. -/
theorem accounts_settled_of_two : ∃ history, ∃ bank : Bank Bool 2,
    Run step (opened (fun _ => 50) ![.transferTask true false 20, .depositTask true 7])
      history bank ∧ history.length = 12 ∧ bank.balance true = 37 ∧ bank.balance false = 70 := by
  have whole : ∃ history, ∃ bank : Bank Bool 2,
      Run step (opened (fun _ => 50) ![.transferTask true false 20, .depositTask true 7])
        history bank ∧ history.length = 12 ∧ ∀ i, (bank.threads i).calls = [] :=
    ⟨_, _, .of_execute [0, 0, 0, 0, 1, 0, 0, 1, 1, 0, 0, 1] rfl, rfl, by decide⟩
  obtain ⟨history, bank, run, length, done⟩ := whole
  obtain ⟨_, _, _, _, last⟩ := accounts_settled run
  have stuck : ∀ i result, step bank i ≠ .ok result := fun i result => by simp [step, done i]
  exact ⟨history, bank, run, length, (last stuck).2 true, (last stuck).2 false⟩

end Runs

inductive Account where
  | bank1
  | bank2
deriving DecidableEq, Repr

def opening : Account → Int
  | .bank1 => 2500
  | .bank2 => 3000

def pool (i : Fin 1000) : Task Account :=
  if i < 400 then .depositTask (if i.val / 200 ≠ 0 then .bank1 else .bank2) (i * 100)
  else if i < 800 then .withdrawTask (if i.val / 600 ≠ 0 then .bank1 else .bank2) (i * 25)
  else
    .transferTask (if i.val / 900 ≠ 0 then .bank1 else .bank2)
      (if i.val / 900 ≠ 0 then .bank2 else .bank1) i

theorem main_printed {bank : Bank Account 1000} {history : List (Event (Bank Account 1000) _ Unit)}
    (run : Run step (opened opening pool) history bank)
    (joined : ∀ i, (bank.threads i).calls = []) :
    bank.balance .bank1 = 2485000 ∧ bank.balance .bank2 = -494500 := by
  have settled := (run_booked run).settled joined
  exact ⟨(settled .bank1).trans (by decide +kernel), (settled .bank2).trans (by decide +kernel)⟩

end VoteCounting.Recitations.Accounts
