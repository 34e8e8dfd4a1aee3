import VoteCounting.Threads.Program

namespace VoteCounting.Threads

open CString

section Launching

variable {numThreads : Int} {length k : Nat} {dispatch after : Dispatch}

/-- The workers are those of the files before the loop variable, and perhaps the one of the file. -/
structure Launched (length : Nat) (dispatch : Dispatch) : Prop where
  workers : dispatch.workers.length = dispatch.i + if dispatch.main = .unlock then 1 else 0
  inside : dispatch.main ≠ .join → dispatch.i < length
  ended : dispatch.main = .join → dispatch.i = length

theorem Launched.next (i : Nat) (bound : i ≤ length) {curThreads : Int} {locked : Bool}
    {workers : List WorkerState} (count : workers.length = i) :
    Launched length ⟨nextFile length i, i, curThreads, locked, workers⟩ := by
  rw [nextFile]
  split
  · rename_i inside
    exact ⟨by simpa using count, fun _ => inside, by simp⟩
  · rename_i outside
    exact ⟨by simpa using count, fun notJoin => absurd rfl notJoin,
      fun _ => le_antisymm bound (not_lt.mp outside)⟩

theorem Launched.start : Launched length (dispatchStart length) := Launched.next 0 (Nat.zero_le _) rfl

theorem Launched.main (launched : Launched length dispatch)
    (taken : mainStep numThreads length dispatch = some after) : Launched length after := by
  obtain ⟨workers, inside, ended⟩ := launched
  obtain ⟨main, i, curThreads, locked, created⟩ := dispatch
  simp only at workers inside
  cases main with
  | lock | woken =>
      simp only [mainStep] at taken
      split at taken
      · cases taken
      · cases taken
        exact ⟨workers, fun _ => inside (by simp), by simp⟩
  | increment | enterWait =>
      cases taken
      exact ⟨workers, fun _ => inside (by simp), by simp⟩
  | test =>
      cases taken
      split
      · exact ⟨workers, fun _ => inside (by simp), by simp⟩
      · exact ⟨workers, fun _ => inside (by simp), by simp⟩
  | create =>
      cases taken
      exact ⟨by simpa using workers, fun _ => inside (by simp), by simp⟩
  | unlock =>
      cases taken
      exact Launched.next (i + 1) (inside (by simp)) (by simpa using workers)
  | waiting | join => cases taken

/-- What a last step of a worker changes. -/
structure Ends (dispatch after : Dispatch) (k : Nat) : Prop where
  workers : ∃ worker changed, dispatch.workers[k]? = some worker ∧ changed ≠ .running ∧
    after.workers = dispatch.workers.set k changed
  i : after.i = dispatch.i
  main : after.main = dispatch.main ∨ after.main = wake dispatch.main

theorem workerStep_ends (taken : workerStep dispatch k = some after) : Ends dispatch after k := by
  rw [workerStep] at taken
  split at taken
  · rename_i found
    cases taken
    exact ⟨⟨_, .decremented, found, by simp, rfl⟩, rfl, .inl rfl⟩
  · rename_i found
    cases taken
    exact ⟨⟨_, .signalled, found, by simp, rfl⟩, rfl, .inr rfl⟩
  · cases taken
  · cases taken

theorem Launched.congr (launched : Launched length dispatch)
    (workers : after.workers.length = dispatch.workers.length) (i : after.i = dispatch.i)
    (main : after.main = dispatch.main ∨ after.main = wake dispatch.main) : Launched length after := by
  have unlock : after.main = .unlock ↔ dispatch.main = .unlock := by
    rcases main with same | woken
    · rw [same]
    · rw [woken]
      cases dispatch.main <;> simp [wake]
  have join : after.main = .join ↔ dispatch.main = .join := by
    rcases main with same | woken
    · rw [same]
    · rw [woken]
      cases dispatch.main <;> simp [wake]
  refine ⟨?_, fun notJoin => ?_, fun atJoin => ?_⟩
  · rw [workers, i, launched.workers]
    simp only [unlock]
  · exact i ▸ launched.inside fun same => notJoin (join.mpr same)
  · exact i ▸ launched.ended (join.mp atJoin)

theorem Launched.step {next : Turn} (launched : Launched length dispatch)
    (taken : turn numThreads length dispatch next = some after) : Launched length after := by
  cases next with
  | main => exact launched.main taken
  | worker k =>
      obtain ⟨⟨_, _, _, _, workers⟩, i, main⟩ := workerStep_ends taken
      exact launched.congr (by rw [workers, List.length_set]) i main
  | spuriousWakeup =>
      rw [turn, wakeup] at taken
      split at taken
      · rename_i waiting
        cases taken
        exact launched.congr rfl rfl (.inr (by rw [waiting]; rfl))
      · cases taken

theorem Dispatched.launched (reached : Dispatched numThreads length dispatch) :
    Launched length dispatch := by
  obtain ⟨history, run⟩ := reached
  exact Run.invariant_state (Launched length) .start
    (fun launched stepped => launched.step (dispatchStep_ok stepped)) run

theorem Dispatched.capped (positive : 1 ≤ numThreads) (reached : Dispatched numThreads length dispatch) :
    Capped numThreads dispatch := by
  obtain ⟨history, run⟩ := reached
  exact Run.invariant_state (Capped numThreads) (.start positive)
    (fun capped stepped => capped.step (dispatchStep_ok stepped)) run

theorem mainStep_workers (taken : mainStep numThreads length dispatch = some after) :
    after.workers = dispatch.workers ++ if dispatch.main = .create then [.running] else [] := by
  obtain ⟨main, i, curThreads, locked, created⟩ := dispatch
  cases main with
  | lock | woken =>
      simp only [mainStep] at taken
      split at taken
      · cases taken
      · cases taken
        simp
  | increment | test | enterWait | create | unlock =>
      cases taken
      simp
  | waiting | join => cases taken

end Launching

namespace Stage

variable {n : Nat}

def file : Stage n → Option (Fin n)
  | grab => none
  | start j | read j | aggregate j _ | finish j | done j => some j

/-- The lines worker `k` has written. -/
def lines (k : Nat) : Stage n → List (LogLine n)
  | grab | start _ => []
  | read j | aggregate j _ | finish j => [⟨j, k, false⟩]
  | done j => [⟨j, k, false⟩, ⟨j, k, true⟩]

/-- The worker has logged the start of its file and not the end. -/
def opened : Stage n → Bool
  | read _ | aggregate _ _ | finish _ => true
  | grab | start _ | done _ => false

def isDone : Stage n → Bool
  | done _ => true
  | _ => false

end Stage

/-- The lines about a file. -/
def about {n : Nat} (log : List (LogLine n)) (j : Fin n) : List (LogLine n) :=
  log.filter fun line => line.file = j

structure Logging {n : Nat} (state : Program n) : Prop where
  length : state.stages.length = state.dispatch.workers.length
  counted : state.stages.countP (fun stage : Stage n => stage.file.isSome) = state.currentGrab
  taken : ∀ {k : Nat} {stage : Stage n} {j : Fin n}, state.stages[k]? = some stage →
    stage.file = some j → (j : Nat) < state.currentGrab
  alone : ∀ {k l : Nat} {first second : Stage n} {j : Fin n}, state.stages[k]? = some first →
    state.stages[l]? = some second → first.file = some j → second.file = some j → k = l
  own : ∀ {k : Nat} {stage : Stage n} {j : Fin n}, state.stages[k]? = some stage →
    stage.file = some j → about state.log j = stage.lines k
  held : ∀ {j : Fin n}, (j : Nat) < state.currentGrab →
    ∃ (k : Nat) (stage : Stage n), state.stages[k]? = some stage ∧ stage.file = some j
  fresh : ∀ {j : Fin n}, state.currentGrab ≤ j → about state.log j = []
  opened : state.log.countP (fun line => !line.ended) =
    state.log.countP (fun line => line.ended) + state.stages.countP Stage.opened
  left : ∀ {k : Nat} {worker : WorkerState}, state.dispatch.workers[k]? = some worker →
    worker ≠ .running → ∃ stage : Stage n, state.stages[k]? = some stage ∧ stage.isDone

section Invariant

variable {n k l : Nat} {setup : Setup n} {state after : Program n} {stage next : Stage n} {j : Fin n}
  {log added : List (LogLine n)} {stages : List (Stage n)}

theorem about_append (j : Fin n) : about (log ++ added) j = about log j ++ about added j :=
  List.filter_append ..

theorem getElem?_set_place (place : stages[k]? = some stage) :
    (stages.set k next)[l]? = if k = l then some next else stages[l]? := by
  obtain ⟨inside, _⟩ := List.getElem?_eq_some_iff.mp place
  rw [List.getElem?_set]
  simp [inside]

theorem countP_set_place (p : Stage n → Bool) (next : Stage n) (place : stages[k]? = some stage) :
    (stages.set k next).countP p + (if p stage then 1 else 0) =
      stages.countP p + if p next then 1 else 0 := by
  obtain ⟨inside, rfl⟩ := List.getElem?_eq_some_iff.mp place
  have present : p stages[k] → 0 < stages.countP p := fun holds =>
    List.countP_pos_iff.mpr ⟨_, List.getElem_mem inside, holds⟩
  rw [List.countP_set inside]
  split
  · rename_i holds
    have positive := present holds
    omega
  · omega

theorem Logging.start (dispatch : Dispatch) (none : dispatch.workers = []) (files : Files) :
    Logging (n := n) { dispatch, files } where
  length := by simp [none]
  counted := rfl
  taken := by simp
  alone := by simp
  own := by simp
  held := by simp
  fresh := fun _ => rfl
  opened := rfl
  left := by simp [none]

/-- A worker with a file goes on, and may write a line about it. -/
theorem Logging.advance (added : List (LogLine n)) (next : Stage n) (files : Files)
    (logging : Logging state) (place : state.stages[k]? = some stage)
    (file : stage.file = some j) (same : next.file = some j) (notDone : stage.isDone = false)
    (only : ∀ line ∈ added, line.file = j) (lines : next.lines k = stage.lines k ++ added)
    (balance : added.countP (fun line => !line.ended) + (if stage.opened then 1 else 0) =
      added.countP (fun line => line.ended) + if next.opened then 1 else 0) :
    Logging { state with files, log := state.log ++ added, stages := state.stages.set k next } where
  length := by rw [List.length_set]; exact logging.length
  counted := by
    have moved := countP_set_place (fun stage => stage.file.isSome) next place
    simp only [file, same, Option.isSome_some, if_true] at moved
    exact (Nat.add_right_cancel moved).trans logging.counted
  taken := by
    intro l other i found has
    rw [getElem?_set_place place] at found
    split at found
    · cases found
      exact logging.taken place (file.trans (same.symm.trans has))
    · exact logging.taken found has
  alone := by
    intro l m first second i atL atM hasL hasM
    rw [getElem?_set_place place] at atL atM
    split at atL <;> split at atM
    · omega
    · cases atL
      rename_i here _
      exact here ▸ logging.alone place atM (file.trans (same.symm.trans hasL)) hasM
    · cases atM
      rename_i _ here
      exact here ▸ logging.alone atL place hasL (file.trans (same.symm.trans hasM))
    · exact logging.alone atL atM hasL hasM
  own := by
    intro l other i found has
    rw [getElem?_set_place place] at found
    rw [about_append]
    split at found
    · rename_i here
      cases found
      obtain rfl : i = j := Option.some.inj (has.symm.trans same)
      have whole : about added i = added := by simpa [about] using only
      rw [logging.own place file, whole, ← here, lines]
    · rename_i elsewhere
      have different : i ≠ j := by
        rintro rfl
        exact elsewhere (logging.alone place found file has)
      have none : about added i = [] := by
        simp only [about, List.filter_eq_nil_iff, decide_eq_true_eq]
        exact fun line member own => different (own.symm.trans (only line member))
      rw [logging.own found has, none, List.append_nil]
  held := by
    intro i inside
    obtain ⟨l, other, found, has⟩ := logging.held inside
    by_cases here : k = l
    · subst here
      obtain rfl : stage = other := Option.some.inj (place.symm.trans found)
      exact ⟨k, next, by rw [getElem?_set_place place, if_pos rfl], same.trans (file.symm.trans has)⟩
    · exact ⟨l, other, by rw [getElem?_set_place place, if_neg here]; exact found, has⟩
  fresh := by
    intro i outside
    have different : i ≠ j := by
      rintro rfl
      exact absurd (logging.taken place file) (not_lt.mpr outside)
    have none : about added i = [] := by
      simp only [about, List.filter_eq_nil_iff, decide_eq_true_eq]
      exact fun line member own => different (own.symm.trans (only line member))
    rw [about_append, logging.fresh outside, none]
    rfl
  opened := by
    have before := logging.opened
    have moved := countP_set_place Stage.opened next place
    simp only [List.countP_append]
    omega
  left := by
    intro l worker found ended
    obtain ⟨other, held, done⟩ := logging.left found ended
    have elsewhere : k ≠ l := by
      rintro rfl
      obtain rfl : stage = other := Option.some.inj (place.symm.trans held)
      rw [notDone] at done
      cases done
    exact ⟨other, by rw [getElem?_set_place place, if_neg elsewhere]; exact held, done⟩

/-- A worker goes on and writes no line. -/
theorem Logging.quiet (next : Stage n) (files : Files) (logging : Logging state)
    (place : state.stages[k]? = some stage) (file : stage.file = some j) (same : next.file = some j)
    (notDone : stage.isDone = false) (lines : next.lines k = stage.lines k)
    (opened : next.opened = stage.opened) :
    Logging { state with files, stages := state.stages.set k next } := by
  have moved := logging.advance [] next files place file same notDone (by simp) (by simpa using lines)
    (by simp [opened])
  rwa [List.append_nil] at moved

/-- A worker takes the next file of the queue. -/
theorem Logging.grab (logging : Logging state) (place : state.stages[k]? = some .grab)
    (inside : state.currentGrab < n) :
    Logging { state with
      currentGrab := state.currentGrab + 1
      stages := state.stages.set k (.start ⟨state.currentGrab, inside⟩) } where
  length := by rw [List.length_set]; exact logging.length
  counted := by
    have moved : (state.stages.set k (.start ⟨state.currentGrab, inside⟩)).countP
        (fun stage : Stage n => stage.file.isSome) =
        state.stages.countP (fun stage : Stage n => stage.file.isSome) + 1 :=
      countP_set_place (fun stage : Stage n => stage.file.isSome) _ place
    exact moved.trans (congrArg (· + 1) logging.counted)
  taken := by
    intro l other i found has
    rw [getElem?_set_place place] at found
    split at found
    · cases found
      obtain rfl := Option.some.inj has
      exact Nat.lt_succ_self _
    · exact Nat.lt_succ_of_lt (logging.taken found has)
  alone := by
    have new : ∀ {l : Nat} {other : Stage n}, state.stages[l]? = some other →
        other.file ≠ some ⟨state.currentGrab, inside⟩ := fun found has =>
      absurd (logging.taken found has) (lt_irrefl _)
    intro l m first second i atL atM hasL hasM
    rw [getElem?_set_place place] at atL atM
    split at atL <;> split at atM
    · omega
    · cases atL
      exact absurd (hasM.trans hasL.symm) (new atM)
    · cases atM
      exact absurd (hasL.trans hasM.symm) (new atL)
    · exact logging.alone atL atM hasL hasM
  own := by
    intro l other i found has
    rw [getElem?_set_place place] at found
    split at found
    · cases found
      obtain rfl := Option.some.inj has
      exact logging.fresh (le_refl _)
    · exact logging.own found has
  held := by
    intro i bound
    by_cases new : (i : Nat) = state.currentGrab
    · exact ⟨k, .start ⟨state.currentGrab, inside⟩, by rw [getElem?_set_place place, if_pos rfl],
        congrArg some (Fin.ext new.symm)⟩
    · have earlier : (i : Nat) < state.currentGrab := lt_of_le_of_ne (Nat.le_of_lt_succ bound) new
      obtain ⟨l, other, found, has⟩ := logging.held earlier
      have elsewhere : k ≠ l := by
        rintro rfl
        obtain rfl : Stage.grab = other := Option.some.inj (place.symm.trans found)
        cases has
      exact ⟨l, other, by rw [getElem?_set_place place, if_neg elsewhere]; exact found, has⟩
  fresh := fun outside => logging.fresh (Nat.le_of_succ_le outside)
  opened := by
    have before := logging.opened
    have moved := countP_set_place Stage.opened (.start ⟨state.currentGrab, inside⟩) place
    simp only [Stage.opened, Bool.false_eq_true, if_false, add_zero] at moved
    rw [moved, before]
  left := by
    intro l worker found ended
    obtain ⟨other, held, done⟩ := logging.left found ended
    have elsewhere : k ≠ l := by
      rintro rfl
      obtain rfl : Stage.grab = other := Option.some.inj (place.symm.trans held)
      cases done
    exact ⟨other, by rw [getElem?_set_place place, if_neg elsewhere]; exact held, done⟩

theorem Logging.main (logging : Logging state) {dispatch : Dispatch}
    (taken : mainStep setup.numThreads n state.dispatch = some dispatch) :
    Logging { state with dispatch, stages := Setup.created state } := by
  have workers := mainStep_workers taken
  by_cases creating : state.dispatch.main = .create
  · rw [if_pos creating] at workers
    have stages : Setup.created state = state.stages ++ [.grab] := if_pos creating
    rw [stages]
    have old : ∀ {l : Nat} {stage : Stage n} {j : Fin n}, (state.stages ++ [.grab])[l]? = some stage →
        stage.file = some j → state.stages[l]? = some stage := by
      intro l stage j found has
      rcases Nat.lt_trichotomy l state.stages.length with before | here | behind
      · rwa [List.getElem?_append_left before] at found
      · subst here
        rw [List.getElem?_concat_length] at found
        cases found
        cases has
      · rw [List.getElem?_eq_none (by simp; omega)] at found
        cases found
    have kept : ∀ {l : Nat} {stage : Stage n}, state.stages[l]? = some stage →
        (state.stages ++ [.grab])[l]? = some stage := fun found =>
      (List.getElem?_append_left (List.getElem?_eq_some_iff.mp found).1).trans found
    exact {
      length := by simp [workers, logging.length]
      counted := by
        rw [List.countP_append, logging.counted]
        rfl
      taken := fun found has => logging.taken (old found has) has
      alone := fun atL atM hasL hasM => logging.alone (old atL hasL) (old atM hasM) hasL hasM
      own := fun found has => logging.own (old found has) has
      held := by
        intro j inside
        obtain ⟨l, stage, found, has⟩ := logging.held inside
        exact ⟨l, stage, kept found, has⟩
      fresh := logging.fresh
      opened := by
        rw [List.countP_append]
        exact logging.opened
      left := by
        intro l worker found ended
        simp only [workers] at found
        rcases Nat.lt_trichotomy l state.dispatch.workers.length with before | here | behind
        · rw [List.getElem?_append_left before] at found
          obtain ⟨stage, held, done⟩ := logging.left found ended
          exact ⟨stage, kept held, done⟩
        · subst here
          rw [List.getElem?_concat_length] at found
          cases found
          exact absurd rfl ended
        · rw [List.getElem?_eq_none (by simp; omega)] at found
          cases found }
  · rw [if_neg creating, List.append_nil] at workers
    have stages : Setup.created state = state.stages := if_neg creating
    rw [stages]
    exact ⟨workers ▸ logging.length, logging.counted, logging.taken, logging.alone, logging.own,
      logging.held, logging.fresh, logging.opened, fun found => logging.left (workers ▸ found)⟩

theorem Logging.ends (logging : Logging state) (place : state.stages[k]? = some stage)
    (done : stage.isDone) {dispatch : Dispatch} (taken : workerStep state.dispatch k = some dispatch) :
    Logging { state with dispatch } := by
  obtain ⟨⟨worker, changed, found, _, workers⟩, _, _⟩ := workerStep_ends taken
  refine ⟨by rw [workers, List.length_set]; exact logging.length, logging.counted, logging.taken,
    logging.alone, logging.own, logging.held, logging.fresh, logging.opened, ?_⟩
  intro l other at_l ended
  by_cases here : k = l
  · exact here ▸ ⟨stage, place, done⟩
  · simp only [workers, List.getElem?_set_ne here] at at_l
    exact logging.left at_l ended

theorem Logging.moves (logging : Logging state) (moves : Moves setup state k after) :
    Logging after := by
  cases moves with
  | grab place inside => exact logging.grab place inside
  | start place =>
      exact logging.advance [⟨_, k, false⟩] (.read _) state.files place rfl rfl rfl (by simp) rfl rfl
  | read place => exact logging.quiet (.aggregate _ _) _ place rfl rfl rfl rfl rfl
  | returned place returns => exact logging.quiet (.finish _) state.files place rfl rfl rfl rfl rfl
  | called place goesOn result => exact logging.quiet (.aggregate _ _) _ place rfl rfl rfl rfl rfl
  | finish place =>
      exact logging.advance [⟨_, k, true⟩] (.done _) state.files place rfl rfl rfl (by simp) rfl rfl
  | done place taken => exact logging.ends place rfl taken

theorem Logging.step (logging : Logging state) (steps : Steps setup state after) : Logging after := by
  cases steps with
  | main taken => exact logging.main taken
  | worker moves => exact logging.moves moves
  | wakeup taken =>
      rw [wakeup] at taken
      split at taken
      · cases taken
        exact ⟨logging.length, logging.counted, logging.taken, logging.alone, logging.own, logging.held,
          logging.fresh, logging.opened, logging.left⟩
      · cases taken

theorem Logging.of_run {history : List (Event (Program n) Turn Unit)}
    (run : Run setup.step (programStart n) history state) : Logging state :=
  Run.invariant_state Logging (.start (dispatchStart n) rfl _)
    (fun logging stepped => logging.step (step_steps stepped)) run

/-- The lines about a file: none, its start, or its start and its end by the same worker. -/
theorem Logging.brackets (logging : Logging state) (j : Fin n) :
    about state.log j = [] ∨ ∃ k, about state.log j = [⟨j, k, false⟩] ∨
      about state.log j = [⟨j, k, false⟩, ⟨j, k, true⟩] := by
  by_cases grabbed : (j : Nat) < state.currentGrab
  · obtain ⟨k, stage, found, file⟩ := logging.held grabbed
    rw [logging.own found file]
    cases stage with
    | grab => cases file
    | start i => exact .inl rfl
    | read i | aggregate i worker | finish i =>
        cases file
        exact .inr ⟨k, .inl rfl⟩
    | done i =>
        cases file
        exact .inr ⟨k, .inr rfl⟩
  · exact .inl (logging.fresh (not_lt.mp grabbed))

theorem countP_le_count {α β : Type} {xs : List α} {ys : List β} {p : α → Bool} {q : β → Bool}
    (each : ∀ (k : Nat) x, xs[k]? = some x → p x → ∃ y, ys[k]? = some y ∧ q y) :
    xs.countP p ≤ ys.countP q := by
  induction xs generalizing ys with
  | nil => exact Nat.zero_le _
  | cons x xs ih =>
      have first := each 0 x rfl
      cases ys with
      | nil =>
          have none : ∀ other ∈ x :: xs, ¬ p other := by
            intro other member holds
            obtain ⟨k, found⟩ := List.getElem?_of_mem member
            obtain ⟨y, at_k, _⟩ := each k other found holds
            cases at_k
          rw [List.countP_eq_zero.mpr none]
          exact Nat.zero_le _
      | cons y ys =>
          have rest : xs.countP p ≤ ys.countP q :=
            ih fun k other found holds => each (k + 1) other found holds
          rw [List.countP_cons, List.countP_cons]
          by_cases holds : p x
          · obtain ⟨same, at_zero, also⟩ := first holds
            cases at_zero
            rw [if_pos holds, if_pos also]
            omega
          · rw [if_neg holds]
            omega

theorem Logging.opened_le_running (logging : Logging state) :
    state.stages.countP Stage.opened ≤ running state.dispatch := by
  refine countP_le_count fun k stage found isOpen => ?_
  have inside : k < state.dispatch.workers.length :=
    logging.length ▸ (List.getElem?_eq_some_iff.mp found).1
  refine ⟨_, List.getElem?_eq_getElem inside, ?_⟩
  by_contra ended
  obtain ⟨other, same, done⟩ := logging.left (List.getElem?_eq_getElem inside) (by simpa using ended)
  obtain rfl : stage = other := Option.some.inj (found.symm.trans same)
  cases stage <;> cases isOpen <;> cases done

/-- When the loop has ended and all workers have signalled, each has done one of the files. -/
theorem Logging.finished (logging : Logging state) (launched : Launched n state.dispatch)
    (joined : state.dispatch.main = .join)
    (signalled : ∀ worker ∈ state.dispatch.workers, worker = .signalled) :
    (∀ stage ∈ state.stages, stage.isDone) ∧
      ∀ j : Fin n, ∃ (k : Nat) (stage : Stage n), state.stages[k]? = some stage ∧ stage.file = some j := by
  have count : state.stages.length = n := by
    have workers := launched.workers
    rw [joined, if_neg (by simp), launched.ended joined, add_zero] at workers
    rw [logging.length, workers]
  have allDone : ∀ stage ∈ state.stages, stage.isDone := by
    intro stage member
    obtain ⟨k, found⟩ := List.getElem?_of_mem member
    have inside : k < state.dispatch.workers.length :=
      logging.length ▸ (List.getElem?_eq_some_iff.mp found).1
    have ended := signalled _ (List.getElem_mem inside)
    obtain ⟨other, same, done⟩ := logging.left (List.getElem?_eq_getElem inside) (by simp [ended])
    obtain rfl : stage = other := Option.some.inj (found.symm.trans same)
    exact done
  have grabbed : state.currentGrab = n := by
    refine logging.counted.symm.trans (Eq.trans (List.countP_eq_length.mpr ?_) count)
    intro stage member
    have done := allDone stage member
    cases stage <;> first | rfl | cases done
  exact ⟨allDone, fun j => logging.held (by rw [grabbed]; exact j.isLt)⟩

theorem Logging.complete (logging : Logging state) (launched : Launched n state.dispatch)
    (joined : state.dispatch.main = .join)
    (signalled : ∀ worker ∈ state.dispatch.workers, worker = .signalled) (j : Fin n) :
    ∃ k, about state.log j = [⟨j, k, false⟩, ⟨j, k, true⟩] := by
  obtain ⟨allDone, held⟩ := logging.finished launched joined signalled
  obtain ⟨k, stage, found, file⟩ := held j
  have done := allDone stage (List.mem_of_getElem? found)
  refine ⟨k, ?_⟩
  rw [logging.own found file]
  cases stage with
  | done i =>
      cases file
      rfl
  | _ => cases done

end Invariant

section Printing

variable {n : Nat} {queue : Queue n} {tids : Nat → CStr} {log : List (LogLine n)} {line : LogLine n}
  {j : Fin n}

/-- The lines of the log file can be told apart. -/
structure Loggable (queue : Queue n) (tids : Nat → CStr) : Prop where
  distinct : Function.Injective queue.dsq.get
  names : ∀ j, '\n' ∉ queue.dsq.get j ∧ ':' ∉ queue.dsq.get j
  numbers : ∀ k, '\n' ∉ tids k

def LogLine.body (queue : Queue n) (tids : Nat → CStr) (line : LogLine n) : CStr :=
  queue.dsq.get line.file ++ ':' :: tids line.worker ++
    (if line.ended then ":end".toList else ":start".toList)

theorem LogLine.text_eq : line.text queue tids = line.body queue tids ++ ['\n'] := by
  rw [LogLine.text, LogLine.body, List.append_assoc _ _ ['\n']]
  split <;> rfl

theorem Loggable.getlines_text (loggable : Loggable queue tids) :
    getlines (log.flatMap (LogLine.text queue tids)) = log.map (LogLine.text queue tids) := by
  have whole : LogLine.text queue tids = fun line : LogLine n => line.body queue tids ++ ['\n'] :=
    funext fun line => line.text_eq
  rw [whole]
  refine getlines_flatMap _ log fun line _ member => ?_
  rw [LogLine.body, List.mem_append, List.mem_append] at member
  rcases member with (name | number) | stage
  · exact (loggable.names _).1 name
  · exact loggable.numbers _ ((List.mem_cons.mp number).resolve_left (by decide))
  · revert stage
    split <;> decide

theorem takeWhile_colon {name rest : CStr} (free : ':' ∉ name) :
    (name ++ ':' :: rest).takeWhile (· ≠ ':') = name := by
  have letters : ∀ c ∈ name, decide (c ≠ ':') = true := by
    intro c member
    exact decide_eq_true fun same => free (same ▸ member)
  rw [List.takeWhile_append_of_pos letters]
  simp

theorem Loggable.begins_iff (loggable : Loggable queue tids) :
    queue.dsq.get j ++ [':'] <+: line.text queue tids ↔ line.file = j := by
  constructor
  · rintro ⟨rest, same⟩
    rw [LogLine.text, List.append_assoc, List.append_assoc, List.singleton_append, List.cons_append] at same
    have names := congrArg (List.takeWhile (· ≠ ':')) same
    rw [takeWhile_colon (loggable.names j).2, takeWhile_colon (loggable.names _).2] at names
    exact (loggable.distinct names).symm
  · rintro rfl
    exact ⟨_, by rw [LogLine.text, List.append_assoc, List.append_assoc]; rfl⟩

/-- The lines that begin with the name of a file are those about it. -/
theorem Loggable.lines_about (loggable : Loggable queue tids) (j : Fin n) :
    (getlines (log.flatMap (LogLine.text queue tids))).filter
        (fun line => queue.dsq.get j ++ [':'] <+: line) =
      (about log j).map (LogLine.text queue tids) := by
  rw [loggable.getlines_text, List.filter_map, about]
  congr 1
  exact List.filter_congr fun line _ => by simp only [Function.comp, loggable.begins_iff]

end Printing

/-- In the log file, too, each file has at most a start and then an end. -/
theorem log_printed {n : Nat} {setup : Setup n} {tids : Nat → CStr}
    (loggable : Loggable setup.queue tids) {state : Program n}
    {history : List (Event (Program n) Turn Unit)} (run : Run setup.step (programStart n) history state)
    (j : Fin n) :
    let lines := (getlines (state.log.flatMap (LogLine.text setup.queue tids))).filter
      fun line => setup.fileName j ++ [':'] <+: line
    lines = [] ∨ ∃ k, lines = [LogLine.text setup.queue tids ⟨j, k, false⟩] ∨
      lines = [LogLine.text setup.queue tids ⟨j, k, false⟩, LogLine.text setup.queue tids ⟨j, k, true⟩] := by
  rw [Setup.fileName, loggable.lines_about]
  rcases (Logging.of_run run).brackets j with none | ⟨k, started | ended⟩
  · exact .inl (by rw [none]; rfl)
  · exact .inr ⟨k, .inl (by rw [started]; rfl)⟩
  · exact .inr ⟨k, .inr (by rw [ended]; rfl)⟩

/-- What holds of the log in every state: each file starts and then ends at most once, and there are
never more files open than threads. -/
structure LogKept {n : Nat} (numThreads : Int) (state : Program n) : Prop where
  brackets : ∀ j, about state.log j = [] ∨ ∃ k, about state.log j = [⟨j, k, false⟩] ∨
    about state.log j = [⟨j, k, false⟩, ⟨j, k, true⟩]
  cap : (state.log.countP fun line => !line.ended : Int) ≤
    (state.log.countP fun line => line.ended) + numThreads
  complete : state.dispatch.main = .join →
    (∀ worker ∈ state.dispatch.workers, worker = .signalled) →
      ∀ j, ∃ k, about state.log j = [⟨j, k, false⟩, ⟨j, k, true⟩]

theorem log_kept {n : Nat} {setup : Setup n} (positive : 1 ≤ setup.numThreads) {state : Program n}
    {history : List (Event (Program n) Turn Unit)} (run : Run setup.step (programStart n) history state) :
    LogKept setup.numThreads state := by
  have logging := Logging.of_run run
  have reached := dispatched_of_run run
  refine ⟨logging.brackets, ?_, fun joined signalled j =>
    logging.complete reached.launched joined signalled j⟩
  have cap := (reached.capped positive).cap
  have opened := logging.opened
  have bound := logging.opened_le_running
  omega

/-- Two threads for the files of the regions `A` and `B`. -/
def twoFiles (second : List Char) : Setup 2 where
  numThreads := 2
  queue := ⟨#v[['A'], ['B']], #v[2147483647, 2147483647]⟩
  nodes := [⟨['R'], "out/R".toList⟩, ⟨['A'], "out/R/A".toList⟩, ⟨['B'], "out/R/B".toList⟩]
  inputs name := some (if name = ['A'] then "V\nW\n".toList else second)

/-- The thread that was created last takes `A`, and `turns` of both follow. -/
def bothTurns (turns : List Turn) : List Turn :=
  List.replicate 10 .main ++ [.worker 1, .worker 0, .worker 0, .worker 1, .worker 1] ++ turns

theorem log_kept_sample : ∃ history state, Run (twoFiles "V\n".toList).step (programStart 2) history state ∧
    state.log = [⟨1, 0, false⟩, ⟨0, 1, false⟩, ⟨1, 0, true⟩, ⟨0, 1, true⟩] ∧ LogKept 2 state := by
  have run : Run (twoFiles "V\n".toList).step (programStart 2) _ _ :=
    Run.of_execute (bothTurns (List.replicate 6 (.worker 0) ++ List.replicate 5 (.worker 1))) rfl
  exact ⟨_, _, run, by decide, log_kept (by decide) run⟩

end VoteCounting.Threads
