import VoteCounting.Strings
import VoteCounting.Data.ExchangeSort
import VoteCounting.Data.Run
import Mathlib.Logic.Function.Basic

namespace VoteCounting.Threads

open CString

/-- The arrays `DSQ` and `priority` up to `LENGTH`. -/
structure Queue (length : Nat) where
  dsq : Vector CStr length
  priority : Vector Int length
deriving DecidableEq, Repr

/-- A name that ends in `_p_` and a number carries its priority. -/
def priorityOf (name : CStr) : Int :=
  let argvp := makeargv name '_'
  if 2 < argvp.length ∧ argvp[argvp.length - 2]? = some ['p'] then
    (argvp[argvp.length - 1]?).elim 2147483647 atoi
  else 2147483647

def addToQueue {length : Nat} (queue : Queue length) (name : CStr) : Queue (length + 1) :=
  ⟨queue.dsq.push name, queue.priority.push (priorityOf name)⟩

/-- An entry that `readdir` returns. -/
structure DirEnt where
  name : CStr
  directory : Bool
deriving DecidableEq, Repr

/-- `.`, `..` and every other directory. -/
def DirEnt.Skipped (entry : DirEnt) : Prop :=
  entry.name = ".".toList ∨ entry.name = "..".toList ∨ entry.directory

instance : DecidablePred DirEnt.Skipped := fun _ => inferInstanceAs (Decidable (_ ∨ _ ∨ _))

/-- The loop over the input directory. -/
def addAll (entries : List DirEnt) : (length : Nat) × Queue length :=
  entries.foldl
    (fun queue entry => if entry.Skipped then queue else ⟨_, addToQueue queue.2 entry.name⟩)
    ⟨0, #v[], #v[]⟩

/-- The entries that are files. -/
def files (entries : List DirEnt) : List CStr :=
  (entries.filter fun entry => ¬ entry.Skipped).map DirEnt.name

/-- Both arrays are changed in step. -/
def exchange {length : Nat} (queue : Queue length) (i j : Fin length) : Queue length :=
  if queue.priority[i] < queue.priority[j] then ⟨queue.dsq.swap i j, queue.priority.swap i j⟩ else queue

def sortQueue {length : Nat} (queue : Queue length) : Queue length :=
  Fin.foldl length (fun queue i => Fin.foldl length (fun queue j => exchange queue i j) queue) queue

namespace Queue

def pairs {length : Nat} (queue : Queue length) (k : Fin length) : CStr × Int :=
  (queue.dsq[k], queue.priority[k])

end Queue

section Sorting

variable {length : Nat} {queue : Queue length}

theorem pairs_addToQueue (queue : Queue length) (name : CStr) :
    List.ofFn (addToQueue queue name).pairs = List.ofFn queue.pairs ++ [(name, priorityOf name)] := by
  have earlier : (fun k : Fin length => (addToQueue queue name).pairs k.castSucc) = queue.pairs := by
    funext k
    simp [Queue.pairs, addToQueue]
  have last : (addToQueue queue name).pairs (Fin.last length) = (name, priorityOf name) := by
    simp [Queue.pairs, addToQueue]
  rw [List.ofFn_succ', earlier, last, List.concat_eq_append]

theorem addAll_snoc (earlier : List DirEnt) (entry : DirEnt) : addAll (earlier ++ [entry]) =
    if entry.Skipped then addAll earlier else ⟨_, addToQueue (addAll earlier).2 entry.name⟩ := by
  rw [addAll, List.foldl_concat, ← addAll]

/-- The queue holds the files of the directory, each with the priority its name carries. -/
theorem pairs_addAll (entries : List DirEnt) :
    List.ofFn (addAll entries).2.pairs = (files entries).map fun name => (name, priorityOf name) := by
  induction entries using List.reverseRecOn with
  | nil => rfl
  | append_singleton earlier entry ih =>
      rw [addAll_snoc, files, List.filter_append, List.map_append, List.map_append, ← files, ← ih]
      by_cases skipped : entry.Skipped
      · rw [if_pos skipped]
        simp [skipped]
      · rw [if_neg skipped, pairs_addToQueue]
        simp [skipped]

/-- The two arrays are sorted as one array of pairs. -/
theorem pairs_exchange (i j : Fin length) :
    (exchange queue i j).pairs = ExchangeSort.exchange Prod.snd queue.pairs i j := by
  funext k
  rw [exchange, ExchangeSort.exchange]
  by_cases smaller : queue.priority[i] < queue.priority[j]
  · have keys : (queue.pairs i).2 < (queue.pairs j).2 := smaller
    rw [if_pos smaller, if_pos keys, Function.comp_apply, Equiv.swap_apply_def]
    simp only [Queue.pairs, Fin.getElem_fin, Vector.getElem_swap, Fin.ext_iff]
    split
    · rfl
    · split <;> rfl
  · have keys : ¬ (queue.pairs i).2 < (queue.pairs j).2 := smaller
    rw [if_neg smaller, if_neg keys]

theorem pairs_sortQueue (queue : Queue length) :
    (sortQueue queue).pairs = ExchangeSort.sort Prod.snd queue.pairs := by
  rw [sortQueue, ExchangeSort.sort, ExchangeSort.foldl_hom Queue.pairs]
  intro queue i
  rw [ExchangeSort.pass, ExchangeSort.foldl_hom Queue.pairs]
  exact fun queue j => pairs_exchange i j

theorem sortQueue_perm (queue : Queue length) :
    (List.ofFn (sortQueue queue).pairs).Perm (List.ofFn queue.pairs) := by
  rw [pairs_sortQueue]
  exact ExchangeSort.sort_perm Prod.snd queue.pairs

theorem dsq_eq_pairs (queue : Queue length) :
    queue.dsq.toList = (List.ofFn queue.pairs).map Prod.fst := by
  rw [List.map_ofFn]
  apply List.ext_getElem
  · simp
  · intro k _ _
    simp [Queue.pairs]

theorem sortQueue_names (queue : Queue length) :
    (sortQueue queue).dsq.toList.Perm queue.dsq.toList := by
  rw [dsq_eq_pairs, dsq_eq_pairs]
  exact (sortQueue_perm queue).map Prod.fst

theorem sortQueue_ascending (queue : Queue length) {i j : Fin length} (below : i ≤ j) :
    (sortQueue queue).priority[i] ≤ (sortQueue queue).priority[j] := by
  have sorted := ExchangeSort.sort_sorted Prod.snd queue.pairs below
  rw [← pairs_sortQueue] at sorted
  exact sorted

end Sorting

/-- Where a worker is in `getNameFromQueue`: before the step of this name, or behind the call. -/
inductive Grab where
  | lock
  | read
  | increment (name : CStr)
  | unlock (name : CStr)
  | returned (name : CStr)
deriving DecidableEq, Repr

/-- One worker for each entry of the queue. -/
structure Grabbing (length : Nat) where
  currentGrab : Nat := 0
  /-- The state of `queueMutex`. -/
  locked : Bool := false
  workers : Fin length → Grab := fun _ => .lock

variable {length : Nat}

def Grabbing.move (state : Grabbing length) (k : Fin length) (next : Grab) : Fin length → Grab :=
  Function.update state.workers k next

/-- One step of worker `k`, which hands out a name where the call ends; an error where the worker
waits, is done, or reads behind the array. -/
def grabStep (queue : Queue length) (state : Grabbing length) (k : Fin length) :
    Except Unit (Option CStr × Grabbing length) :=
  match state.workers k with
  | .lock =>
      if state.locked then .error ()
      else .ok (none, { state with locked := true, workers := state.move k .read })
  | .read =>
      match queue.dsq[state.currentGrab]? with
      | none => .error ()
      | some name => .ok (none, { state with workers := state.move k (.increment name) })
  | .increment name =>
      .ok (none, { state with
        currentGrab := state.currentGrab + 1
        workers := state.move k (.unlock name) })
  | .unlock name =>
      .ok (some name, { state with locked := false, workers := state.move k (.returned name) })
  | .returned _ => .error ()

/-- What a step of worker `k` does. -/
inductive Grabs (queue : Queue length) (state : Grabbing length) (k : Fin length) :
    Option CStr → Grabbing length → Prop
  | lock (place : state.workers k = .lock) (opened : state.locked = false) :
      Grabs queue state k none { state with locked := true, workers := state.move k .read }
  | read {name : CStr} (place : state.workers k = .read)
      (found : queue.dsq[state.currentGrab]? = some name) :
      Grabs queue state k none { state with workers := state.move k (.increment name) }
  | increment {name : CStr} (place : state.workers k = .increment name) :
      Grabs queue state k none { state with
        currentGrab := state.currentGrab + 1
        workers := state.move k (.unlock name) }
  | unlock {name : CStr} (place : state.workers k = .unlock name) :
      Grabs queue state k (some name)
        { state with locked := false, workers := state.move k (.returned name) }

theorem grabStep_grabs {queue : Queue length} {state after : Grabbing length} {k : Fin length}
    {output : Option CStr} (stepped : grabStep queue state k = .ok (output, after)) :
    Grabs queue state k output after := by
  rw [grabStep] at stepped
  cases place : state.workers k with
  | lock =>
      simp only [place] at stepped
      split at stepped
      · cases stepped
      · rename_i unlocked
        cases stepped
        exact .lock place (Bool.eq_false_of_not_eq_true unlocked)
  | read =>
      simp only [place] at stepped
      split at stepped
      · cases stepped
      · rename_i name found
        cases stepped
        exact .read place found
  | increment name =>
      simp only [place] at stepped
      cases stepped
      exact .increment place
  | unlock name =>
      simp only [place] at stepped
      cases stepped
      exact .unlock place
  | returned name =>
      simp only [place] at stepped
      cases stepped

/-- The names in the order of the calls. -/
def handedOut (history : List (Event (Grabbing length) (Fin length) (Option CStr))) : List CStr :=
  history.filterMap Event.output

/-- Between the lock and its release. -/
def Grab.Inside : Grab → Prop
  | .lock | .returned _ => False
  | .read | .increment _ | .unlock _ => True

def Grab.Returned : Grab → Prop
  | .returned _ => True
  | _ => False

instance : DecidablePred Grab.Returned
  | .returned _ => isTrue trivial
  | .lock | .read | .increment _ | .unlock _ => isFalse id

/-- What a worker inside the call knows after `done` names. -/
def Grab.Knows (queue : Queue length) (done currentGrab : Nat) : Grab → Prop
  | .lock | .returned _ => True
  | .read => currentGrab = done
  | .increment name => currentGrab = done ∧ queue.dsq[done]? = some name
  | .unlock name => currentGrab = done + 1 ∧ queue.dsq[done]? = some name

/-- The names handed out are those at the front of the queue, one for each worker that is done. -/
structure Emptying (queue : Queue length) (names : List CStr) (state : Grabbing length) : Prop where
  front : names = queue.dsq.toList.take names.length
  count : names.length = (Finset.univ.filter fun k => (state.workers k).Returned).card
  free : state.locked = false → state.currentGrab = names.length
  outside : state.locked = false → ∀ k, ¬ (state.workers k).Inside
  held : state.locked = true → ∃ k, (state.workers k).Inside
  alone : ∀ k other, (state.workers k).Inside → (state.workers other).Inside → k = other
  inside : ∀ k, (state.workers k).Knows queue names.length state.currentGrab

section Emptying

variable {queue : Queue length} {names : List CStr} {state after : Grabbing length} {k : Fin length}
  {output : Option CStr} {next : Grab}

theorem Emptying.start (queue : Queue length) : Emptying queue [] {} where
  front := rfl
  count := by
    have nobody : (Finset.univ.filter fun _ : Fin length => Grab.lock.Returned) = ∅ :=
      Finset.filter_false_of_mem fun _ _ => id
    rw [nobody]
    rfl
  free _ := rfl
  outside _ _ := id
  held := by simp
  alone _ _ inside := inside.elim
  inside _ := trivial

theorem Grab.knows_of_outside {grab : Grab} {done currentGrab : Nat} (outside : ¬ grab.Inside) :
    grab.Knows queue done currentGrab := by
  cases grab with
  | lock | returned => trivial
  | read | increment | unlock => exact absurd trivial outside

theorem Grab.not_returned {grab : Grab} (inside : grab.Inside) : ¬ grab.Returned := by
  cases grab with
  | lock | returned => exact inside.elim
  | read | increment | unlock => exact id

theorem Grab.returned_iff (grab : Grab) : grab.Returned ↔ ∃ name, grab = .returned name := by
  cases grab <;> simp [Grab.Returned]

theorem move_self : state.move k next k = next := Function.update_self _ _ _

theorem move_of_ne {other : Fin length} (different : other ≠ k) :
    state.move k next other = state.workers other :=
  Function.update_of_ne different _ _

theorem Emptying.others (emptying : Emptying queue names state) (own : (state.workers k).Inside) :
    ∀ other, other ≠ k → ¬ (state.workers other).Inside :=
  fun other different inside => different (emptying.alone other k inside own)

theorem alone_move (others : ∀ other, other ≠ k → ¬ (state.workers other).Inside)
    (left right : Fin length)
    (leftInside : (state.move k next left).Inside) (rightInside : (state.move k next right).Inside) :
    left = right := by
  have only : ∀ other, (state.move k next other).Inside → other = k := by
    intro other inside
    by_contra different
    rw [move_of_ne different] at inside
    exact others other different inside
  rw [only left leftInside, only right rightInside]

theorem inside_move (own : next.Inside) : (state.move k next k).Inside := by
  rw [move_self]
  exact own

theorem outside_move (others : ∀ other, other ≠ k → ¬ (state.workers other).Inside)
    (own : ¬ next.Inside) (other : Fin length) : ¬ (state.move k next other).Inside := by
  by_cases same : other = k
  · rw [same, move_self]
    exact own
  · rw [move_of_ne same]
    exact others other same

theorem knows_move {done currentGrab : Nat}
    (others : ∀ other, other ≠ k → ¬ (state.workers other).Inside)
    (own : next.Knows queue done currentGrab) (other : Fin length) :
    (state.move k next other).Knows queue done currentGrab := by
  by_cases same : other = k
  · rw [same, move_self]
    exact own
  · rw [move_of_ne same]
    exact Grab.knows_of_outside (others other same)

theorem returned_move (notYet : ¬ next.Returned) (before : ¬ (state.workers k).Returned) :
    (Finset.univ.filter fun other => (state.move k next other).Returned) =
      Finset.univ.filter fun other => (state.workers other).Returned := by
  apply Finset.filter_congr
  intro other _
  by_cases same : other = k
  · subst same
    rw [move_self]
    exact iff_of_false notYet before
  · rw [move_of_ne same]

theorem returned_move_card (done : next.Returned) (before : ¬ (state.workers k).Returned) :
    (Finset.univ.filter fun other => (state.move k next other).Returned).card =
      (Finset.univ.filter fun other => (state.workers other).Returned).card + 1 := by
  have grown : (Finset.univ.filter fun other => (state.move k next other).Returned) =
      insert k (Finset.univ.filter fun other => (state.workers other).Returned) := by
    ext other
    simp only [Finset.mem_filter, Finset.mem_univ, true_and, Finset.mem_insert]
    by_cases same : other = k
    · subst same
      rw [move_self]
      exact iff_of_true done (.inl rfl)
    · rw [move_of_ne same]
      exact ⟨.inr, fun either => either.resolve_left same⟩
  rw [grown, Finset.card_insert_of_notMem (by simp [before])]

/-- The next name in the queue is handed out. -/
theorem take_concat {name : CStr} (front : names = queue.dsq.toList.take names.length)
    (found : queue.dsq[names.length]? = some name) :
    names ++ [name] = queue.dsq.toList.take (names ++ [name]).length := by
  have entry : queue.dsq.toList[names.length]? = some name := by simpa using found
  rw [List.length_append, List.length_singleton, List.take_add_one, entry, ← front]
  rfl

/-- A step inside the call that does not end it. -/
theorem Emptying.continue_inside (emptying : Emptying queue names state)
    (own : (state.workers k).Inside)
    (still : next.Inside) {currentGrab : Nat} (knows : next.Knows queue names.length currentGrab) :
    Emptying queue names { state with currentGrab, workers := state.move k next } where
  front := emptying.front
  count := by rw [emptying.count, returned_move (Grab.not_returned still) (Grab.not_returned own)]
  free opened := absurd own (emptying.outside opened k)
  outside opened := absurd own (emptying.outside opened k)
  held _ := ⟨k, inside_move still⟩
  alone := alone_move (emptying.others own)
  inside := knows_move (emptying.others own) knows

/-- The lock keeps all others out. -/
theorem Emptying.lock (emptying : Emptying queue names state) (place : state.workers k = .lock)
    (opened : state.locked = false) :
    Emptying queue names { state with locked := true, workers := state.move k .read } := by
  have others : ∀ other, other ≠ k → ¬ (state.workers other).Inside :=
    fun other _ => emptying.outside opened other
  have before : ¬ (state.workers k).Returned := by simp [place, Grab.Returned]
  have first : Grab.read.Knows queue names.length state.currentGrab := emptying.free opened
  exact {
    front := emptying.front
    count := by rw [emptying.count, returned_move id before]
    free := by simp
    outside := by simp
    held := fun _ => ⟨k, inside_move (show Grab.read.Inside from trivial)⟩
    alone := alone_move others
    inside := knows_move others first }

/-- The end of a call hands out the next name. -/
theorem Emptying.unlock {name : CStr} (emptying : Emptying queue names state)
    (place : state.workers k = .unlock name) :
    Emptying queue (names ++ [name])
      { state with locked := false, workers := state.move k (.returned name) } := by
  have own : (state.workers k).Inside := by simp [place, Grab.Inside]
  have others := emptying.others own
  have knows : (Grab.unlock name).Knows queue names.length state.currentGrab :=
    place ▸ emptying.inside k
  have done : (Grab.returned name).Returned := trivial
  exact {
    front := take_concat emptying.front knows.2
    count := by
      rw [returned_move_card done (Grab.not_returned own), ← emptying.count]
      simp
    free := fun _ => by simpa using knows.1
    outside := fun _ => outside_move others id
    held := by simp
    alone := alone_move others
    inside := knows_move others trivial }

theorem Emptying.step (emptying : Emptying queue names state)
    (step : Grabs queue state k output after) :
    Emptying queue (names ++ output.toList) after := by
  have knows := emptying.inside k
  cases step with
  | lock place opened => simpa using emptying.lock place opened
  | @read name place found =>
      have own : (state.workers k).Inside := by simp [place, Grab.Inside]
      have current : state.currentGrab = names.length := by
        rw [place] at knows
        exact knows
      have noted : (Grab.increment name).Knows queue names.length state.currentGrab :=
        ⟨current, current ▸ found⟩
      simpa using emptying.continue_inside own (show (Grab.increment name).Inside from trivial) noted
  | @increment name place =>
      have own : (state.workers k).Inside := by simp [place, Grab.Inside]
      obtain ⟨current, noted⟩ : (Grab.increment name).Knows queue names.length state.currentGrab :=
        place ▸ knows
      have grabbed : state.currentGrab + 1 = names.length + 1 := by rw [current]
      simpa using emptying.continue_inside own (show (Grab.unlock name).Inside from trivial)
        ⟨grabbed, noted⟩
  | unlock place => exact emptying.unlock place

theorem handedOut_snoc {history : List (Event (Grabbing length) (Fin length) (Option CStr))} :
    handedOut (history ++ [⟨state, k, output⟩]) = handedOut history ++ output.toList := by
  rw [handedOut, List.filterMap_append, ← handedOut]
  cases output <;> rfl

theorem Emptying.of_run {history : List (Event (Grabbing length) (Fin length) (Option CStr))}
    (run : Run (grabStep queue) {} history state) : Emptying queue (handedOut history) state := by
  induction run with
  | nil => exact .start queue
  | snoc _ stepped ih =>
      rw [handedOut_snoc]
      exact ih.step (grabStep_grabs stepped)

/-- A worker that has the mutex can go on. -/
theorem Emptying.inside_step (emptying : Emptying queue names state) (own : (state.workers k).Inside) :
    ∃ result, grabStep queue state k = .ok result := by
  have knows := emptying.inside k
  have before := Grab.not_returned own
  rw [grabStep]
  cases place : state.workers k with
  | lock => simp [place, Grab.Inside] at own
  | read =>
      simp only [place] at knows ⊢
      -- The worker itself has no name yet.
      have room : names.length < length := by
        rw [emptying.count]
        calc (Finset.univ.filter fun other => (state.workers other).Returned).card
            < (Finset.univ : Finset (Fin length)).card :=
              Finset.card_lt_card (Finset.filter_ssubset.mpr ⟨k, Finset.mem_univ k, before⟩)
          _ = length := by simp
      rw [knows, Vector.getElem?_eq_getElem room]
      exact ⟨_, rfl⟩
  | increment name => exact ⟨_, rfl⟩
  | unlock name => exact ⟨_, rfl⟩
  | returned name => simp [place, Grab.Inside] at own

theorem Emptying.stuck (emptying : Emptying queue names state)
    (stuck : ∀ k, grabStep queue state k = .error ()) (k : Fin length) :
    (state.workers k).Returned := by
  have outside : ∀ other, ¬ (state.workers other).Inside := by
    intro other inside
    obtain ⟨result, moves⟩ := emptying.inside_step inside
    rw [stuck other] at moves
    cases moves
  have opened : state.locked = false := by
    by_contra locked
    obtain ⟨other, inside⟩ := emptying.held (Bool.eq_true_of_not_eq_false locked)
    exact outside other inside
  have waits := stuck k
  rw [grabStep] at waits
  cases place : state.workers k with
  | lock => simp [place, opened] at waits
  | returned name => trivial
  | read | increment | unlock => exact absurd (by simp [place, Grab.Inside]) (outside k)

theorem Emptying.complete (emptying : Emptying queue names state)
    (returned : ∀ k, (state.workers k).Returned) : names = queue.dsq.toList := by
  have all : (Finset.univ.filter fun k => (state.workers k).Returned) = Finset.univ :=
    Finset.filter_true_of_mem fun k _ => returned k
  have many : names.length = length := by rw [emptying.count, all, Finset.card_fin]
  rw [emptying.front, many]
  simp

/-- The steps a worker has before it. -/
def Grab.left : Grab → Nat
  | .lock => 4
  | .read => 3
  | .increment _ => 2
  | .unlock _ => 1
  | .returned _ => 0

theorem Grabs.left (step : Grabs queue state k output after) :
    ∃ next, after.workers = state.move k next ∧ next.left + 1 = (state.workers k).left := by
  cases step with
  | lock place opened => exact ⟨.read, rfl, by rw [place]; rfl⟩
  | @read name place found => exact ⟨.increment name, rfl, by rw [place]; rfl⟩
  | @increment name place => exact ⟨.unlock name, rfl, by rw [place]; rfl⟩
  | @unlock name place => exact ⟨.returned name, rfl, by rw [place]; rfl⟩

theorem sum_left_move (shorter : next.left + 1 = (state.workers k).left) :
    ∑ other, (state.move k next other).left + 1 = ∑ other, (state.workers other).left := by
  have rest :
      ∀ other ∈ Finset.univ.erase k,
        (state.move k next other).left = (state.workers other).left := by
    intro other member
    rw [move_of_ne (Finset.ne_of_mem_erase member)]
  rw [← Finset.add_sum_erase _ _ (Finset.mem_univ k), ← Finset.add_sum_erase _ _ (Finset.mem_univ k),
    Finset.sum_congr rfl rest, move_self]
  omega

theorem run_length {history : List (Event (Grabbing length) (Fin length) (Option CStr))}
    (run : Run (grabStep queue) {} history state) :
    history.length + ∑ k, (state.workers k).left = 4 * length := by
  induction run with
  | nil => simp [Grab.left, mul_comm]
  | snoc _ stepped ih =>
      obtain ⟨next, workers, shorter⟩ := (grabStep_grabs stepped).left
      have sum := sum_left_move shorter
      rw [workers, List.length_append, List.length_singleton]
      omega

end Emptying

/-- The queue is sorted by priority, and every interleaving of the calls ends with all its names
handed out in that order. -/
theorem sorted_queue_handed_out {length : Nat} (queue : Queue length) :
    (List.ofFn (sortQueue queue).pairs).Perm (List.ofFn queue.pairs) ∧
      (∀ i j : Fin length, i ≤ j → (sortQueue queue).priority[i] ≤ (sortQueue queue).priority[j]) ∧
      ∀ history state, Run (grabStep (sortQueue queue)) {} history state →
        history.length ≤ 4 * length ∧
        handedOut history = (sortQueue queue).dsq.toList.take (handedOut history).length ∧
        ((∀ k, grabStep (sortQueue queue) state k = .error ()) →
          (∀ k, ∃ name, state.workers k = .returned name) ∧
            handedOut history = (sortQueue queue).dsq.toList ∧
            (handedOut history).Perm queue.dsq.toList) := by
  refine ⟨sortQueue_perm queue, fun i j below => sortQueue_ascending queue below, ?_⟩
  intro history state run
  have emptying := Emptying.of_run run
  have bounded := run_length run
  refine ⟨by omega, emptying.front, fun stuck => ?_⟩
  have returned := emptying.stuck stuck
  have all := emptying.complete returned
  refine ⟨fun k => (state.workers k).returned_iff.mp (returned k), all, ?_⟩
  rw [all]
  exact sortQueue_names queue

/-- Two files out of order; the second worker calls first. -/
def queueSample : Queue 2 := ⟨#v["B".toList, "A".toList], #v[3, 1]⟩

theorem sorted_queue_handed_out_sample : ∃ history state,
    Run (grabStep (sortQueue queueSample)) {} history state ∧
      handedOut history = ["A".toList, "B".toList] ∧
      handedOut history = (sortQueue queueSample).dsq.toList ∧
      (handedOut history).Perm queueSample.dsq.toList := by
  have run : ∃ history state, Run (grabStep (sortQueue queueSample)) {} history state ∧
      handedOut history = ["A".toList, "B".toList] ∧
      ∀ k, grabStep (sortQueue queueSample) state k = .error () :=
    ⟨_, _, Run.of_execute [1, 1, 1, 1, 0, 0, 0, 0] rfl, rfl, fun k => by fin_cases k <;> rfl⟩
  obtain ⟨history, state, run, names, stuck⟩ := run
  exact ⟨history, state, run, names,
    (((sorted_queue_handed_out queueSample).2.2 history state run).2.2 stuck).2⟩

/-- A file with a priority comes before those without one. -/
example : (sortQueue
    (addAll [⟨"County_4".toList, false⟩, ⟨"Region_4_p_-5".toList, false⟩]).2).dsq.toList =
    ["Region_4_p_-5".toList, "County_4".toList] := by
  decide

end VoteCounting.Threads
