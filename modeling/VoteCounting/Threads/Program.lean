import VoteCounting.Threads.Dispatching
import VoteCounting.Threads.Queue
import VoteCounting.Threads.Aggregate
import VoteCounting.Threads.Decryption
import VoteCounting.Data.Simulation

namespace VoteCounting.Threads

open CString

/-! All of `decryptAll` and `runThread`: the threads with their files and their log.

The call of `getNameFromQueue`, the two calls of `writeToLog`, `readInput` and each call of `aggregate`
up to the release of its lock are one step.
-/

/-- What the threads are started with; the queue is sorted. -/
structure Setup (n : Nat) where
  numThreads : Int
  queue : Queue n
  nodes : List DirNode
  /-- The files of the input directory by name. -/
  inputs : CStr → Option (List Char)

/-- Where a worker is in `runThread` up to its decrement, with the place of its file in the queue. -/
inductive Stage (n : Nat) where
  | grab
  | start (j : Fin n)
  | read (j : Fin n)
  | aggregate (j : Fin n) (worker : Worker)
  | finish (j : Fin n)
  | done (j : Fin n)

structure LogLine (n : Nat) where
  file : Fin n
  worker : Nat
  ended : Bool
deriving DecidableEq, Repr

/-- `tids` are the numbers of the threads as they are printed. -/
def LogLine.text {n : Nat} (queue : Queue n) (tids : Nat → CStr) (line : LogLine n) : CStr :=
  queue.dsq.get line.file ++ ':' :: tids line.worker ++
    (if line.ended then ":end\n".toList else ":start\n".toList)

structure Program (n : Nat) where
  dispatch : Dispatch
  /-- One for each worker that was created. -/
  stages : List (Stage n) := []
  currentGrab : Nat := 0
  files : Files := fun _ => none
  log : List (LogLine n) := []

namespace Setup

variable {n : Nat} (setup : Setup n)

def fileName (j : Fin n) : CStr := setup.queue.dsq.get j

/-- A file that is no region has no path, and nothing is opened.  The output is created before the
input is opened. -/
def decryptFile (files : Files) (name : CStr) : Files :=
  match getPath setup.nodes name with
  | none => files
  | some path => Function.update files path (some (((setup.inputs name).map readInput).getD []))

/-- `aggregate` returns at once: at the root, and for a name that is no region. -/
def Returns (worker : Worker) : Prop :=
  AtRoot setup.nodes worker ∨ getPath setup.nodes worker.filename = none

instance (worker : Worker) : Decidable (setup.Returns worker) :=
  inferInstanceAs (Decidable (_ ∨ _))

/-- The next step of worker `k`; `none` where it cannot go on or the program exits. -/
def workerMove (state : Program n) (k : Nat) : Option (Program n) :=
  match state.stages[k]? with
  | none => none
  | some .grab =>
      if inside : state.currentGrab < n then
        some { state with
          currentGrab := state.currentGrab + 1
          stages := state.stages.set k (.start ⟨state.currentGrab, inside⟩) }
      else none
  | some (.start j) =>
      some { state with
        log := state.log ++ [⟨j, k, false⟩]
        stages := state.stages.set k (.read j) }
  | some (.read j) =>
      some { state with
        files := setup.decryptFile state.files (setup.fileName j)
        stages := state.stages.set k (.aggregate j ⟨setup.fileName j, []⟩) }
  | some (.aggregate j worker) =>
      if setup.Returns worker then some { state with stages := state.stages.set k (.finish j) }
      else (Threads.aggregate setup.nodes state.files worker).map fun after => { state with
        files := after.1
        stages := state.stages.set k (.aggregate j after.2) }
  | some (.finish j) =>
      some { state with
        log := state.log ++ [⟨j, k, true⟩]
        stages := state.stages.set k (.done j) }
  | some (.done _) =>
      (workerStep state.dispatch k).map fun dispatch => { state with dispatch }

/-- A worker begins where the main thread creates it. -/
def created (state : Program n) : List (Stage n) :=
  if state.dispatch.main = .create then state.stages ++ [.grab] else state.stages

def move (state : Program n) : Turn → Option (Program n)
  | .main => (mainStep setup.numThreads n state.dispatch).map fun dispatch => { state with
      dispatch
      stages := created state }
  | .worker k => setup.workerMove state k
  | .spuriousWakeup => (wakeup state.dispatch).map fun dispatch => { state with dispatch }

def step (state : Program n) (next : Turn) : Except Unit (Unit × Program n) :=
  match setup.move state next with
  | some after => .ok ((), after)
  | none => .error ()

end Setup

/-- The output directory holds nothing but an empty log. -/
def programStart (n : Nat) : Program n := { dispatch := dispatchStart n }

section Steps

variable {n : Nat} {setup : Setup n} {state after : Program n} {k : Nat} {next : Turn}

/-- What a step of worker `k` does. -/
inductive Moves (setup : Setup n) (state : Program n) (k : Nat) : Program n → Prop
  | grab (place : state.stages[k]? = some .grab) (inside : state.currentGrab < n) :
      Moves setup state k { state with
        currentGrab := state.currentGrab + 1
        stages := state.stages.set k (.start ⟨state.currentGrab, inside⟩) }
  | start {j : Fin n} (place : state.stages[k]? = some (.start j)) :
      Moves setup state k { state with
        log := state.log ++ [⟨j, k, false⟩]
        stages := state.stages.set k (.read j) }
  | read {j : Fin n} (place : state.stages[k]? = some (.read j)) :
      Moves setup state k { state with
        files := setup.decryptFile state.files (setup.fileName j)
        stages := state.stages.set k (.aggregate j ⟨setup.fileName j, []⟩) }
  | returned {j : Fin n} {worker : Worker} (place : state.stages[k]? = some (.aggregate j worker))
      (returns : setup.Returns worker) :
      Moves setup state k { state with stages := state.stages.set k (.finish j) }
  | called {j : Fin n} {worker later : Worker} {files : Files}
      (place : state.stages[k]? = some (.aggregate j worker)) (goesOn : ¬ setup.Returns worker)
      (result : aggregate setup.nodes state.files worker = some (files, later)) :
      Moves setup state k { state with files, stages := state.stages.set k (.aggregate j later) }
  | finish {j : Fin n} (place : state.stages[k]? = some (.finish j)) :
      Moves setup state k { state with
        log := state.log ++ [⟨j, k, true⟩]
        stages := state.stages.set k (.done j) }
  | done {j : Fin n} {dispatch : Dispatch} (place : state.stages[k]? = some (.done j))
      (taken : workerStep state.dispatch k = some dispatch) :
      Moves setup state k { state with dispatch }

theorem workerMove_moves (moved : setup.workerMove state k = some after) :
    Moves setup state k after := by
  rw [Setup.workerMove] at moved
  split at moved
  · cases moved
  · rename_i place
    split at moved
    · rename_i inside
      cases moved
      exact .grab place inside
    · cases moved
  · rename_i j place
    cases moved
    exact .start place
  · rename_i j place
    cases moved
    exact .read place
  · rename_i j worker place
    split at moved
    · rename_i returns
      cases moved
      exact .returned place returns
    · rename_i goesOn
      obtain ⟨⟨files, later⟩, result, rfl⟩ := Option.map_eq_some_iff.mp moved
      exact .called place goesOn result
  · rename_i j place
    cases moved
    exact .finish place
  · rename_i j place
    obtain ⟨dispatch, taken, rfl⟩ := Option.map_eq_some_iff.mp moved
    exact .done place taken

/-- What a step of the program does. -/
inductive Steps (setup : Setup n) (state : Program n) : Program n → Prop
  | main {dispatch : Dispatch} (taken : mainStep setup.numThreads n state.dispatch = some dispatch) :
      Steps setup state { state with dispatch, stages := Setup.created state }
  | worker {k : Nat} {after : Program n} (moves : Moves setup state k after) : Steps setup state after
  | wakeup {dispatch : Dispatch} (taken : wakeup state.dispatch = some dispatch) :
      Steps setup state { state with dispatch }

theorem step_steps {result : Unit × Program n} (stepped : setup.step state next = .ok result) :
    Steps setup state result.2 := by
  rw [Setup.step] at stepped
  split at stepped
  · rename_i after moved
    cases stepped
    cases next with
    | main =>
        obtain ⟨dispatch, taken, rfl⟩ := Option.map_eq_some_iff.mp moved
        exact .main taken
    | worker k => exact .worker (workerMove_moves moved)
    | spuriousWakeup =>
        obtain ⟨dispatch, taken, rfl⟩ := Option.map_eq_some_iff.mp moved
        exact .wakeup taken
  · cases stepped

end Steps

section Dispatched

variable {n : Nat} {setup : Setup n} {state : Program n} {history : List (Event (Program n) Turn Unit)}

theorem Moves.dispatch {after : Program n} {k : Nat} (moves : Moves setup state k after) :
    after.dispatch = state.dispatch ∨ workerStep state.dispatch k = some after.dispatch := by
  cases moves with
  | grab | start | read | returned | called | finish => exact .inl rfl
  | done place taken => exact .inr taken

/-- The steps of the whole program are steps of the dispatcher, or leave it as it is. -/
theorem Steps.dispatch {after : Program n} (steps : Steps setup state after) :
    after.dispatch = state.dispatch ∨
      ∃ next, turn setup.numThreads n state.dispatch next = some after.dispatch := by
  cases steps with
  | main taken => exact .inr ⟨.main, taken⟩
  | worker moves => exact moves.dispatch.imp_right fun taken => ⟨.worker _, taken⟩
  | wakeup taken => exact .inr ⟨.spuriousWakeup, taken⟩

theorem simulates_dispatch : Simulates setup.step (dispatchStep setup.numThreads n)
    (fun _ _ => True) (fun _ _ => True) fun state dispatch => state.dispatch = dispatch where
  step := by
    rintro state next _ after _ rfl _ stepped
    rcases (step_steps stepped).dispatch with same | ⟨taken, moved⟩
    · exact .inl same
    · refine .inr ⟨taken, (), after.dispatch, trivial, ?_, rfl⟩
      rw [dispatchStep, moved]

theorem dispatched_of_run (run : Run setup.step (programStart n) history state) :
    Dispatched setup.numThreads n state.dispatch := by
  obtain ⟨steps, reached, followed, _, rfl⟩ :=
    simulates_dispatch.run rfl run fun _ _ _ _ => trivial
  exact ⟨steps, followed⟩

end Dispatched

end VoteCounting.Threads
