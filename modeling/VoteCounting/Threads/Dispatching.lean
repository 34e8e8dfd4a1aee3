import VoteCounting.Data.Run

namespace VoteCounting.Threads

/-! The loop of `decryptAll` that starts the threads, and the last steps of `runThread`.

Only the main thread takes the mutex of the queue.  A worker decrements `cur_threads` and
then signals, both without the mutex.
-/

/-- Where the main thread is: before the step of this name, or inside `pthread_cond_wait`. -/
inductive MainStep where
  | lock
  | increment
  | test
  | enterWait
  | waiting
  | woken
  | create
  | unlock
  | join
deriving DecidableEq, Repr

/-- What a created worker has done of its last two steps. -/
inductive WorkerState where
  | running
  | decremented
  | signalled
deriving DecidableEq, Repr

structure Dispatch where
  main : MainStep
  /-- The loop variable. -/
  i : Nat := 0
  curThreads : Int := 0
  locked : Bool := false
  workers : List WorkerState := []
deriving DecidableEq, Repr

inductive Turn where
  | main
  | worker (k : Nat)
  | spuriousWakeup
deriving DecidableEq, Repr

/-- The test of the `for` loop. -/
def nextFile (length i : Nat) : MainStep := if i < length then .lock else .join

/-- `none` where the main thread cannot go on. -/
def mainStep (numThreads : Int) (length : Nat) (state : Dispatch) : Option Dispatch :=
  match state.main with
  | .lock => if state.locked then none else some { state with main := .increment, locked := true }
  | .increment => some { state with main := .test, curThreads := state.curThreads + 1 }
  | .test =>
      some { state with main := if numThreads < state.curThreads then .enterWait else .create }
  | .enterWait => some { state with main := .waiting, locked := false }
  | .waiting => none
  | .woken => if state.locked then none else some { state with main := .test, locked := true }
  | .create => some { state with main := .unlock, workers := state.workers ++ [.running] }
  | .unlock =>
      some { state with main := nextFile length (state.i + 1), i := state.i + 1, locked := false }
  | .join => none

/-- A signal wakes the main thread only if it is waiting already. -/
def wake : MainStep → MainStep
  | .waiting => .woken
  | main => main

def workerStep (state : Dispatch) (k : Nat) : Option Dispatch :=
  match state.workers[k]? with
  | some .running =>
      some { state with
        curThreads := state.curThreads - 1
        workers := state.workers.set k .decremented }
  | some .decremented =>
      some { state with main := wake state.main, workers := state.workers.set k .signalled }
  | some .signalled => none
  | none => none

def wakeup (state : Dispatch) : Option Dispatch :=
  if state.main = .waiting then some { state with main := .woken } else none

/-- The step of the thread whose turn it is. -/
def turn (numThreads : Int) (length : Nat) (state : Dispatch) : Turn → Option Dispatch
  | .main => mainStep numThreads length state
  | .worker k => workerStep state k
  | .spuriousWakeup => wakeup state

def dispatchStep (numThreads : Int) (length : Nat) (state : Dispatch) (next : Turn) :
    Except Unit (Unit × Dispatch) :=
  match turn numThreads length state next with
  | some after => .ok ((), after)
  | none => .error ()

def dispatchStart (length : Nat) : Dispatch := { main := nextFile length 0 }

/-- The states of all interleavings. -/
def Dispatched (numThreads : Int) (length : Nat) (state : Dispatch) : Prop :=
  ∃ history, Run (dispatchStep numThreads length) (dispatchStart length) history state

/-- The main thread waits for a signal, and no worker is left to send one. -/
def Abandoned (state : Dispatch) : Prop :=
  state.main = .waiting ∧ ∀ worker ∈ state.workers, worker = .signalled

section Dispatching

variable {numThreads : Int} {length k : Nat} {state after : Dispatch} {next : Turn}

theorem dispatchStep_ok {result : Unit × Dispatch}
    (stepped : dispatchStep numThreads length state next = .ok result) :
    turn numThreads length state next = some result.2 := by
  rw [dispatchStep] at stepped
  cases taken : turn numThreads length state next with
  | none => simp [taken] at stepped
  | some after =>
      simp only [taken, Except.ok.injEq] at stepped
      rw [← stepped]

theorem Dispatched.step (reached : Dispatched numThreads length state) (next : Turn)
    (taken : turn numThreads length state next = some after) : Dispatched numThreads length after := by
  obtain ⟨history, run⟩ := reached
  have stepped : dispatchStep numThreads length state next = .ok ((), after) := by
    rw [dispatchStep, taken]
  exact ⟨_, run.snoc stepped⟩

/-- The threads that count for `cur_threads` while the main thread has not gone round. -/
def counting : MainStep → Int
  | .test | .create | .unlock => 1
  | _ => 0

/-- With no more files than threads the test never fails. -/
structure Unblocked (length : Nat) (state : Dispatch) : Prop where
  bound : state.curThreads ≤ state.i + counting state.main
  file : state.main ≠ .join → state.i < length
  free : state.main ≠ .enterWait ∧ state.main ≠ .waiting ∧ state.main ≠ .woken

theorem Unblocked.start : Unblocked length (dispatchStart length) := by
  rw [dispatchStart, nextFile]
  split
  · rename_i some
    exact ⟨by simp [counting], fun _ => some, by simp⟩
  · exact ⟨by simp [counting], by simp, by simp⟩

theorem Unblocked.main (few : (length : Int) ≤ numThreads) (unblocked : Unblocked length state)
    (taken : mainStep numThreads length state = some after) : Unblocked length after := by
  obtain ⟨bound, file, notEntering, notWaiting, notWoken⟩ := unblocked
  rw [mainStep] at taken
  cases place : state.main with
  | lock =>
      simp only [place] at taken bound file
      split at taken
      · cases taken
      · cases taken
        exact ⟨by simpa [counting] using bound, fun _ => file (by simp), by simp⟩
  | increment =>
      simp only [place, Option.some.injEq] at taken bound file
      subst taken
      exact ⟨by simpa [counting] using bound, fun _ => file (by simp), by simp⟩
  | test =>
      simp only [place, Option.some.injEq] at taken bound file
      subst taken
      have inside := file (by simp)
      have below : ¬ numThreads < state.curThreads := by
        simp only [counting] at bound
        omega
      simp only [if_neg below]
      exact ⟨bound, fun _ => inside, by simp⟩
  | enterWait => exact absurd place notEntering
  | waiting => exact absurd place notWaiting
  | woken => exact absurd place notWoken
  | create =>
      simp only [place, Option.some.injEq] at taken bound file
      subst taken
      exact ⟨bound, fun _ => file (by simp), by simp⟩
  | unlock =>
      simp only [place, Option.some.injEq] at taken bound file
      subst taken
      simp only [counting] at bound
      rw [nextFile]
      split
      · rename_i inside
        exact ⟨by simpa [counting] using bound, fun _ => inside, by simp⟩
      · exact ⟨by simpa [counting] using bound, by simp, by simp⟩
  | join =>
      simp only [place] at taken
      cases taken

theorem wake_of_free (free : state.main ≠ .waiting) : wake state.main = state.main := by
  cases place : state.main with
  | waiting => exact absurd place free
  | lock | increment | test | enterWait | woken | create | unlock | join => rfl

theorem Unblocked.step (few : (length : Int) ≤ numThreads) (unblocked : Unblocked length state)
    (taken : turn numThreads length state next = some after) : Unblocked length after := by
  cases next with
  | main => exact unblocked.main few taken
  | worker k =>
      rw [turn, workerStep] at taken
      split at taken
      · cases taken
        have bound := unblocked.bound
        exact ⟨by simp only; omega, unblocked.file, unblocked.free⟩
      · cases taken
        have same := wake_of_free unblocked.free.2.1
        simp only [same]
        exact ⟨unblocked.bound, unblocked.file, unblocked.free⟩
      · cases taken
      · cases taken
  | spuriousWakeup =>
      rw [turn, wakeup, if_neg unblocked.free.2.1] at taken
      cases taken

/-- The first files are all given to workers that are still running. -/
theorem dispatched_running (k : Nat) (files : k ≤ length) (threads : (k : Int) ≤ numThreads) :
    Dispatched numThreads length
      { main := nextFile length k, i := k, curThreads := k, workers := List.replicate k .running } := by
  induction k with
  | zero => exact ⟨[], .nil⟩
  | succ k ih =>
      have before := ih (by omega) (by omega)
      rw [nextFile, if_pos (by omega)] at before
      have locked := before.step .main rfl
      have incremented := locked.step .main rfl
      have tested := incremented.step .main rfl
      have below : ¬ numThreads < (k : Int) + 1 := by omega
      simp only [if_neg below] at tested
      have created := tested.step .main rfl
      have unlocked := created.step .main rfl
      rw [← List.replicate_succ'] at unlocked
      exact unlocked

theorem workerStep_running {past rest : List WorkerState}
    (workers : state.workers = past ++ .running :: rest) : workerStep state past.length =
      some { state with
        curThreads := state.curThreads - 1
        workers := past ++ .decremented :: rest } := by
  simp [workerStep, workers]

theorem workerStep_decremented {past rest : List WorkerState}
    (workers : state.workers = past ++ .decremented :: rest) : workerStep state past.length =
      some { state with main := wake state.main, workers := past ++ .signalled :: rest } := by
  simp [workerStep, workers]

/-- Running workers finish one after another while the main thread is about to wait. -/
theorem dispatched_finished (past : List WorkerState) (left : Nat) {i : Nat} {curThreads : Int}
    (reached : Dispatched numThreads length
      { main := .enterWait, i, curThreads, locked := true
        workers := past ++ List.replicate left .running }) :
    Dispatched numThreads length
      { main := .enterWait, i, curThreads := curThreads - left, locked := true
        workers := past ++ List.replicate left .signalled } := by
  induction left generalizing past curThreads with
  | zero => simpa using reached
  | succ left ih =>
      have decremented := reached.step (.worker past.length) (workerStep_running rfl)
      have signalled := decremented.step (.worker past.length) (workerStep_decremented rfl)
      have rest := ih (past ++ [.signalled]) (by simpa [wake] using signalled)
      have count : curThreads - 1 - (left : Int) = curThreads - ((left + 1 : Nat) : Int) := by
        push_cast
        ring
      rw [count] at rest
      simpa [List.replicate_succ] using rest

/-- All workers have signalled by the time the main thread begins to wait. -/
theorem dispatched_abandoned (positive : 1 ≤ numThreads) (many : numThreads < length) :
    ∃ state, Dispatched numThreads length state ∧ Abandoned state := by
  obtain ⟨k, rfl⟩ := Int.eq_ofNat_of_zero_le (by omega : 0 ≤ numThreads)
  have before : Dispatched k length
      { main := nextFile length k, i := k, curThreads := k, workers := List.replicate k .running } :=
    dispatched_running k (by omega) (Int.le_refl _)
  rw [nextFile, if_pos (by omega)] at before
  have locked := before.step .main rfl
  have incremented := locked.step .main rfl
  have tested := incremented.step .main rfl
  have above : (k : Int) < (k : Int) + 1 := by omega
  simp only [if_pos above] at tested
  have finished := dispatched_finished [] k tested
  have waiting := finished.step .main rfl
  exact ⟨_, waiting, rfl, fun worker member => List.eq_of_mem_replicate member⟩

end Dispatching

/-- No wake-up is lost exactly where there are no more files than threads. -/
theorem wakeup_not_lost_iff {numThreads : Int} (positive : 1 ≤ numThreads) (length : Nat) :
    (∀ state, Dispatched numThreads length state → ¬ Abandoned state) ↔
    (length : Int) ≤ numThreads := by
  constructor
  · intro never
    by_contra many
    obtain ⟨state, reached, abandoned⟩ := dispatched_abandoned positive (Int.not_le.mp many)
    exact never state reached abandoned
  · intro few state reached abandoned
    obtain ⟨history, run⟩ := reached
    have unblocked : Unblocked length state :=
      Run.invariant_state (Unblocked length) .start
        (fun unblocked stepped => unblocked.step few (dispatchStep_ok stepped)) run
    exact unblocked.free.2.1 abandoned.1

theorem wakeup_not_lost_iff_sample :
    (∀ state, Dispatched 4 3 state → ¬ Abandoned state) ↔ ((3 : Nat) : Int) ≤ 4 :=
  wakeup_not_lost_iff (by decide) 3

/-- One thread and two files: the worker decrements and signals after the main thread has found
one thread too many and before it waits. -/
theorem wakeup_lost : ∃ state, Dispatched 1 2 state ∧ Abandoned state := by
  have reached :
      Dispatched 1 2 { main := .waiting, i := 1, curThreads := 1, workers := [.signalled] } :=
    ⟨_, Run.of_execute (List.replicate 8 .main ++ [.worker 0, .worker 0, .main]) rfl⟩
  exact ⟨_, reached, rfl, by decide⟩

/-- The workers created and not yet past their decrement. -/
def running (state : Dispatch) : Nat := state.workers.count .running

/-- The main thread has counted the worker it is about to create. -/
def announced : MainStep → Int
  | .test | .enterWait | .waiting | .woken | .create => 1
  | .lock | .increment | .unlock | .join => 0

/-- `cur_threads` counts the running workers and the announced one.  It may be too large, but
only while the main thread has not passed the test. -/
structure Capped (numThreads : Int) (state : Dispatch) : Prop where
  counted : state.curThreads = running state + announced state.main
  room : state.main = .create → state.curThreads ≤ numThreads
  cap : (running state : Int) ≤ numThreads

section Running

variable {numThreads : Int} {length k : Nat} {state after : Dispatch} {next : Turn}

theorem announced_nextFile (i : Nat) : announced (nextFile length i) = 0 := by
  rw [nextFile]
  split <;> rfl

theorem nextFile_ne_create (i : Nat) : nextFile length i ≠ .create := by
  rw [nextFile]
  split <;> simp

theorem Capped.start (positive : 1 ≤ numThreads) : Capped numThreads (dispatchStart length) := by
  have nobody : running (dispatchStart length) = 0 := rfl
  refine ⟨?_, fun creating => absurd creating (nextFile_ne_create 0), ?_⟩
  · rw [nobody, dispatchStart, announced_nextFile]
    rfl
  · rw [nobody]
    omega

theorem Capped.main (capped : Capped numThreads state)
    (taken : mainStep numThreads length state = some after) : Capped numThreads after := by
  obtain ⟨counted, room, cap⟩ := capped
  rw [mainStep] at taken
  cases place : state.main with
  | lock =>
      simp only [place] at taken counted
      split at taken
      · cases taken
      · cases taken
        exact ⟨counted, by simp, cap⟩
  | increment =>
      simp only [place, Option.some.injEq] at taken counted
      subst taken
      simp only [announced] at counted
      exact ⟨by simpa [running, announced] using counted, by simp, cap⟩
  | test =>
      simp only [place, Option.some.injEq] at taken counted
      subst taken
      split
      · exact ⟨counted, by simp, cap⟩
      · rename_i below
        exact ⟨counted, fun _ => Int.not_lt.mp below, cap⟩
  | enterWait =>
      simp only [place, Option.some.injEq] at taken counted
      subst taken
      exact ⟨counted, by simp, cap⟩
  | waiting =>
      simp only [place] at taken
      cases taken
  | woken =>
      simp only [place] at taken counted
      split at taken
      · cases taken
      · cases taken
        exact ⟨counted, by simp, cap⟩
  | create =>
      -- The new worker is the one that was announced.
      simp only [place, Option.some.injEq] at taken counted
      subst taken
      have few := room place
      have more : running { state with main := .unlock, workers := state.workers ++ [.running] } =
          running state + 1 := by simp [running]
      simp only [announced] at counted
      refine ⟨?_, by simp, ?_⟩
      · rw [more]
        simp only [announced]
        push_cast
        omega
      · rw [more]
        push_cast
        omega
  | unlock =>
      simp only [place, Option.some.injEq] at taken counted
      subst taken
      refine ⟨?_, fun creating => absurd creating (nextFile_ne_create _), cap⟩
      rw [announced_nextFile]
      exact counted
  | join =>
      simp only [place] at taken
      cases taken

theorem running_set {worker changed : WorkerState} (found : state.workers[k]? = some worker) :
    (state.workers.set k changed).count .running + [worker].count .running =
      running state + [changed].count .running := by
  obtain ⟨inside, rfl⟩ := List.getElem?_eq_some_iff.mp found
  have split :
      state.workers = state.workers.take k ++ state.workers[k] :: state.workers.drop (k + 1) := by
    rw [List.getElem_cons_drop, List.take_append_drop]
  have whole := congrArg (List.count WorkerState.running) split
  rw [List.set_eq_take_append_cons_drop, if_pos inside, running, whole]
  simp only [List.count_append, List.count_cons, List.count_nil]
  omega

theorem announced_wake (main : MainStep) : announced (wake main) = announced main := by
  cases main <;> rfl

theorem wake_eq_create {main : MainStep} (creating : wake main = .create) : main = .create := by
  cases main <;> simp_all [wake]

theorem Capped.worker (capped : Capped numThreads state) (taken : workerStep state k = some after) :
    Capped numThreads after := by
  obtain ⟨counted, room, cap⟩ := capped
  rw [workerStep] at taken
  split at taken
  · rename_i found
    cases taken
    have fewer : (state.workers.set k .decremented).count .running + 1 = running state :=
      running_set found
    refine ⟨?_, fun creating => ?_, ?_⟩
    · simp only [running] at *
      omega
    · have bound := room creating
      simp only
      omega
    · simp only [running] at *
      omega
  · rename_i found
    cases taken
    have same : (state.workers.set k .signalled).count .running = running state := running_set found
    refine ⟨?_, fun creating => room (wake_eq_create creating), ?_⟩
    · rw [announced_wake]
      simp only [running] at *
      omega
    · simp only [running] at *
      omega
  · cases taken
  · cases taken

theorem Capped.step (capped : Capped numThreads state)
    (taken : turn numThreads length state next = some after) : Capped numThreads after := by
  cases next with
  | main => exact capped.main taken
  | worker k => exact capped.worker taken
  | spuriousWakeup =>
      rw [turn, wakeup] at taken
      split at taken
      · rename_i waiting
        cases taken
        have counted := capped.counted
        rw [waiting] at counted
        exact ⟨counted, by simp, capped.cap⟩
      · cases taken

end Running

/-- Never are more workers running than there should be threads. -/
theorem running_le_numThreads {numThreads : Int} (positive : 1 ≤ numThreads) {length : Nat}
    {state : Dispatch}
    (reached : Dispatched numThreads length state) : (running state : Int) ≤ numThreads := by
  obtain ⟨history, run⟩ := reached
  have capped : Capped numThreads state :=
    Run.invariant_state (Capped numThreads) (.start positive)
      (fun capped stepped => capped.step (dispatchStep_ok stepped)) run
  exact capped.cap

/-- Both threads are running and the main thread has found one too many. -/
theorem running_le_numThreads_sample :
    Dispatched 2 3
      { main := .enterWait, i := 2, curThreads := 3, locked := true, workers := [.running, .running] } ∧
      ((running { main := .enterWait, i := 2, curThreads := 3, locked := true
                  workers := [.running, .running] } : Nat) : Int) ≤ 2 := by
  have reached : Dispatched 2 3
      { main := .enterWait, i := 2, curThreads := 3, locked := true, workers := [.running, .running] } :=
    ⟨_, Run.of_execute (List.replicate 13 .main) rfl⟩
  exact ⟨reached, running_le_numThreads (by decide) reached⟩

end VoteCounting.Threads
