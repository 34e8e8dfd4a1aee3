import VoteCounting.Data.Buffer
import VoteCounting.Data.CString
import VoteCounting.Data.Run

namespace VoteCounting.Recitations.Transfer

open Buffer CString

/-- One connection.  The file is what the client has not read yet, the stream what was sent
and not received. -/
structure Connection where
  file : List Char
  stream : List Char := []
  closed : Bool := false
  printed : List Char := []
  finished : Bool := false
deriving DecidableEq, Repr

/-- The side that runs next.  `recv` takes as many bytes as have arrived by then. -/
inductive Turn where
  | client
  | server (arrived : Nat)
deriving DecidableEq, Repr

inductive Pause where
  | waiting
  | over
deriving DecidableEq, Repr

/-- `char buffer[256]` after `memset`. -/
def cleared : List Char := List.replicate 256 NUL

def connected (file : List Char) : Connection := { file }

/-- A round of the client's loop, or the `close` after it. -/
def client (connection : Connection) : Except Pause (Unit × Connection) :=
  if connection.closed then .error .over
  else if connection.file = [] then .ok ((), { connection with closed := true })
  else
    -- 256 bytes are read, but `sizeof(buffer)-1` bytes are sent
    let buffer := fill cleared (connection.file.take 256)
    .ok ((), { connection with
      file := connection.file.drop 256
      stream := connection.stream ++ buffer.take 255 })

/-- A round of the server's loop, or the `close` after it. -/
def server (connection : Connection) (arrived : Nat) : Except Pause (Unit × Connection) :=
  if connection.finished then .error .over
  else if connection.stream = [] then
    if connection.closed then .ok ((), { connection with finished := true }) else .error .waiting
  else if 0 < arrived ∧ arrived ≤ min 255 connection.stream.length then
    let buffer := fill cleared (connection.stream.take arrived)
    -- `%s` stops at the first terminator, as `strcpy` does
    .ok ((), { connection with
      stream := connection.stream.drop arrived
      printed := connection.printed ++ strcpy buffer })
  else .error .waiting

def step (connection : Connection) : Turn → Except Pause (Unit × Connection)
  | .client => client connection
  | .server arrived => server connection arrived

/-- Every run comes to its end, and the server has then printed a text. -/
structure Prints (file text : List Char) : Prop where
  bounded : ∃ most, ∀ history final, Run step (connected file) history final → history.length ≤ most
  finished : ∀ history final, Run step (connected file) history final →
    (∀ turn result, step final turn ≠ .ok result) → final.finished = true ∧ final.printed = text

/-- The text that arrives: of each full buffer one byte is lost. -/
def carried (file : List Char) : List Char :=
  if file.length < 256 then file else file.take 255 ++ carried (file.drop 256)
termination_by file.length

section Buffers

variable {file live : List Char} {padding arrived : Nat}

theorem carried_short (short : file.length < 256) : carried file = file := by
  rw [carried, if_pos short]

theorem carried_long (long : 256 ≤ file.length) :
    carried file = file.take 255 ++ carried (file.drop 256) := by
  rw [carried, if_neg (by omega)]

/-- Each round carries what it sends of a buffer, a short one too. -/
theorem carried_round (file : List Char) :
    file.take 255 ++ carried (file.drop 256) = carried file := by
  rcases Nat.lt_or_ge file.length 256 with short | long
  · have whole : file.take 255 = file := List.take_of_length_le (by omega)
    have nothing : file.drop 256 = [] := List.drop_of_length_le (by omega)
    rw [whole, nothing, carried_short short, carried_short (by simp), List.append_nil]
  · rw [carried_long long]

theorem carried_length_le (file : List Char) : (carried file).length ≤ file.length := by
  induction file using carried.induct with
  | case1 file short => rw [carried_short short]
  | case2 file long ih =>
      rw [carried_long (by omega), List.length_append, List.length_take]
      rw [List.length_drop] at ih
      omega

/-- A text arrives whole where it does not fill the buffer. -/
theorem carried_eq_self_iff : carried file = file ↔ file.length < 256 := by
  constructor
  · intro whole
    by_contra long
    have less := carried_length_le (file.drop 256)
    have length := congrArg List.length whole
    rw [carried_long (by omega), List.length_append, List.length_take] at length
    rw [List.length_drop] at less
    omega
  · exact carried_short

/-- What is sent of a buffer. -/
theorem take_fill (file : List Char) : (fill cleared (file.take 256)).take 255 =
    file.take 255 ++ List.replicate (255 - file.length) NUL := by
  rw [fill, cleared, List.drop_replicate, List.take_append, List.take_take, List.take_replicate,
    List.length_take]
  congr 2
  omega

theorem strcpy_padded (free : NUL ∉ live) :
    strcpy (live ++ List.replicate padding NUL) = live := by
  cases padding with
  | zero => rw [List.replicate_zero, List.append_nil, strcpy_of_free free]
  | succ more => rw [List.replicate_succ, strcpy_terminated free]

/-- What is printed of a buffer. -/
theorem strcpy_fill (free : NUL ∉ live) :
    strcpy (fill cleared ((live ++ List.replicate padding NUL).take arrived)) =
      live.take arrived := by
  have own : NUL ∉ live.take arrived := fun held => free (List.mem_of_mem_take held)
  rw [fill, cleared, List.drop_replicate, List.take_append, List.take_replicate, List.append_assoc,
    List.replicate_append_replicate, strcpy_padded own]

end Buffers

/-- What one turn does. -/
inductive Went (connection : Connection) : Connection → Prop
  | send (opened : connection.closed = false) (more : connection.file ≠ []) :
      Went connection { connection with
        file := connection.file.drop 256
        stream := connection.stream ++ (fill cleared (connection.file.take 256)).take 255 }
  | clientCloses (opened : connection.closed = false) (nothing : connection.file = []) :
      Went connection { connection with closed := true }
  | receive {arrived : Nat} (unfinished : connection.finished = false) (positive : 0 < arrived)
      (few : arrived ≤ min 255 connection.stream.length) :
      Went connection { connection with
        stream := connection.stream.drop arrived
        printed := connection.printed ++ strcpy (fill cleared (connection.stream.take arrived)) }
  | serverCloses (unfinished : connection.finished = false) (empty : connection.stream = [])
      (closed : connection.closed = true) : Went connection { connection with finished := true }

/-- A connection on which nothing but the last byte of each full buffer gets lost. -/
structure Underway (file : List Char) (connection : Connection) : Prop where
  unread : NUL ∉ connection.file
  flow : ∃ live padding, connection.stream = live ++ List.replicate padding NUL ∧ NUL ∉ live ∧
    connection.printed ++ live ++ carried connection.file = carried file ∧
    (0 < padding → connection.file = [])
  closed : connection.closed = true → connection.file = []
  finished : connection.finished = true → connection.closed = true ∧ connection.stream = []

section Turns

variable {file text : List Char} {connection after : Connection} {arrived : Nat} {output : Unit}

theorem connected_underway (text : NUL ∉ file) : Underway file (connected file) where
  unread := text
  flow := ⟨[], 0, rfl, List.not_mem_nil, rfl, fun positive => absurd positive (lt_irrefl 0)⟩
  closed := by simp [connected]
  finished := by simp [connected]

theorem step_went {turn : Turn} (done : step connection turn = .ok (output, after)) :
    Went connection after := by
  cases turn with
  | client =>
      rw [step, client] at done
      split at done
      · cases done
      · have opened : connection.closed = false := Bool.eq_false_iff.mpr ‹_›
        split at done
        · cases done
          exact .clientCloses opened ‹_›
        · cases done
          exact .send opened ‹_›
  | server arrived =>
      rw [step, server] at done
      split at done
      · cases done
      · have unfinished : connection.finished = false := Bool.eq_false_iff.mpr ‹_›
        split at done
        · split at done
          · cases done
            exact .serverCloses unfinished ‹_› ‹_›
          · cases done
        · split at done
          · cases done
            exact .receive unfinished (And.left ‹_›) (And.right ‹_›)
          · cases done

theorem Went.underway (went : Went connection after) (underway : Underway file connection) :
    Underway file after := by
  obtain ⟨unread, ⟨live, padding, stream, free, flow, last⟩, ended, left⟩ := underway
  cases went with
  | send opened more =>
      obtain rfl : padding = 0 := by
        by_contra positive
        exact more (last (Nat.pos_of_ne_zero positive))
      refine ⟨fun held => unread (List.mem_of_mem_drop held), ?_, ?_, ?_⟩
      · refine ⟨live ++ connection.file.take 255, 255 - connection.file.length, ?_, ?_, ?_, ?_⟩
        · simp [stream, take_fill]
        · rw [List.mem_append, not_or]
          exact ⟨free, fun held => unread (List.mem_of_mem_take held)⟩
        · rw [← flow, ← carried_round connection.file, List.append_assoc, List.append_assoc,
            List.append_assoc]
        · intro room
          exact List.drop_of_length_le (by omega)
      · intro closed
        rw [ended closed]
        rfl
      · intro finished
        exact absurd (left finished).1 (by simp [opened])
  | clientCloses opened nothing =>
      refine ⟨unread, ⟨live, padding, stream, free, flow, last⟩, fun _ => nothing, ?_⟩
      intro finished
      exact absurd (left finished).1 (by simp [opened])
  | @receive arrived unfinished positive few =>
      refine ⟨unread, ?_, ended, fun finished => absurd finished (by simp [unfinished])⟩
      refine ⟨live.drop arrived, padding - (arrived - live.length), ?_, ?_, ?_, ?_⟩
      · simp only [stream]
        rw [List.drop_append, List.drop_replicate]
      · exact fun held => free (List.mem_of_mem_drop held)
      · simp only [stream, strcpy_fill free]
        rw [List.append_assoc connection.printed, List.take_append_drop, flow]
      · exact fun room => last (by omega)
  | serverCloses unfinished empty closed =>
      exact ⟨unread, ⟨live, padding, stream, free, flow, last⟩, ended, fun _ => ⟨closed, empty⟩⟩

/-- What is still to do on a connection, both calls of `close` counted. -/
def remaining (connection : Connection) : Nat :=
  256 * connection.file.length + connection.stream.length +
    connection.closed.not.toNat + connection.finished.not.toNat

theorem Went.falls (went : Went connection after) : remaining after < remaining connection := by
  cases went with
  | send opened more =>
      have some_bytes := List.length_pos_of_ne_nil more
      simp only [remaining, List.length_drop, List.length_append, List.length_take]
      omega
  | clientCloses opened nothing => simp [remaining, opened]
  | receive unfinished positive few =>
      simp only [remaining, List.length_drop]
      omega
  | serverCloses unfinished empty closed => simp [remaining, unfinished]

theorem step_falls {turn : Turn} (done : step connection turn = .ok (output, after)) :
    remaining after < remaining connection := (step_went done).falls

/-- Until the server has closed the connection, one of the sides can go on. -/
theorem step_ready (unfinished : connection.finished = false) :
    ∃ turn result, step connection turn = .ok result := by
  by_cases closed : connection.closed = true
  · by_cases empty : connection.stream = []
    · exact ⟨.server 0, _, by rw [step, server, if_neg (by simp [unfinished]), if_pos empty,
        if_pos closed]⟩
    · have some_bytes := List.length_pos_of_ne_nil empty
      exact ⟨.server 1, _, by rw [step, server, if_neg (by simp [unfinished]), if_neg empty,
        if_pos (by omega)]⟩
  · by_cases empty : connection.file = []
    · exact ⟨.client, _, by rw [step, client, if_neg closed, if_pos empty]⟩
    · exact ⟨.client, _, by rw [step, client, if_neg closed, if_neg empty]⟩

/-- However the stream is split, what is printed is what was carried. -/
theorem prints_carried (text : NUL ∉ file) : Prints file (carried file) where
  bounded := by
    refine ⟨remaining (connected file), fun history final run => ?_⟩
    have used := run.length_le remaining step_falls
    omega
  finished := by
    intro history final run stuck
    have underway : Underway file final :=
      run.invariant_state (Underway file) (connected_underway text)
        fun underway done => (step_went done).underway underway
    have finished : final.finished = true := by
      by_contra unfinished
      obtain ⟨turn, result, ready⟩ := step_ready (by simpa using unfinished)
      exact stuck turn result ready
    obtain ⟨closed, empty⟩ := underway.finished finished
    obtain ⟨live, padding, stream, _, flow, _⟩ := underway.flow
    have nothing : live = [] := by
      rw [stream] at empty
      exact (List.append_eq_nil_iff.mp empty).1
    rw [nothing, underway.closed closed, carried_short (by simp)] at flow
    exact ⟨finished, by simpa using flow⟩

theorem Prints.unique {first second : List Char} (left : Prints file first)
    (right : Prints file second) : first = second := by
  have ends : ∃ history final, Run step (connected file) history final ∧
      ∀ turn result, step final turn ≠ .ok result := Run.exists_last remaining step_falls
  obtain ⟨history, final, run, stuck⟩ := ends
  rw [← (left.finished history final run stuck).2, ← (right.finished history final run stuck).2]

theorem prints_iff (free : NUL ∉ file) : Prints file text ↔ text = carried file := by
  constructor
  · exact fun prints => prints.unique (prints_carried free)
  · rintro rfl
    exact prints_carried free

/-- A file is printed as it is exactly if it does not fill the buffer. -/
theorem transfer_exact_iff (free : NUL ∉ file) : Prints file file ↔ file.length < 256 := by
  rw [prints_iff free, eq_comm, carried_eq_self_iff]

theorem transfer_exact_short : Prints ['o', 'k'] ['o', 'k'] :=
  (transfer_exact_iff (by decide)).mpr (by decide)

/-- A file of one full buffer. -/
theorem transfer_loses : NUL ∉ List.replicate 256 'a' ∧
    ¬ Prints (List.replicate 256 'a') (List.replicate 256 'a') := by
  have free : NUL ∉ List.replicate 256 'a' := by
    rw [List.mem_replicate]
    decide
  rw [prints_iff free, eq_comm, carried_eq_self_iff, List.length_replicate]
  exact ⟨free, lt_irrefl 256⟩

end Turns

end VoteCounting.Recitations.Transfer
