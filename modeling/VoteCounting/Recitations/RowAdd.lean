import VoteCounting.Data.Run

namespace VoteCounting.Recitations.RowAdd

universe u

abbrev Matrix (α : Type u) := Nat → Nat → α

structure ThreadArgs (α : Type u) where
  A : Matrix α
  B : Matrix α
  n : Nat
  row : Nat

inductive Turn where
  | main
  | thread (row : Nat)
deriving DecidableEq, Repr

inductive Halt where
  | blocked
  | finished
deriving DecidableEq, Repr

/-- `i` holds the loop variable of each thread. -/
structure Pool (α : Type u) where
  C : Matrix α
  i : Nat → Nat := fun _ => 0
  created : Nat := 0
  joined : Nat := 0

section Steps

variable {α : Type u} [Add α]

/-- A round of the loop over a row. -/
def ThreadArgs.addEntry (arg : ThreadArgs α) (C : Matrix α) (i : Nat) : Matrix α :=
  Function.update C arg.row
    (Function.update (C arg.row) i (arg.A arg.row i + arg.B arg.row i))

def matrixRowAdd (arg : ThreadArgs α) (C : Matrix α) : Matrix α :=
  (List.range arg.n).foldl arg.addEntry C

def singleThread (arg : Nat → ThreadArgs α) (C : Matrix α) : Matrix α :=
  (List.range (arg 0).n).foldl (fun C i => matrixRowAdd (arg i) C) C

/-- The arguments `main` sets up. -/
def args (A B : Matrix α) (n row : Nat) : ThreadArgs α := { A, B, n, row }

/-- `main` creates a thread or joins the next one, or a thread does a round of `matrixRowAdd`. -/
def step (arg : Nat → ThreadArgs α) (n : Nat) (pool : Pool α) : Turn → Except Halt (Unit × Pool α)
  | .main =>
      if pool.created < n then .ok ((), { pool with created := pool.created + 1 })
      else if pool.joined < n then
        if pool.i pool.joined < (arg pool.joined).n then .error .blocked
        else .ok ((), { pool with joined := pool.joined + 1 })
      else .error .finished
  | .thread row =>
      if row < pool.created ∧ pool.i row < (arg row).n then
        .ok ((), { pool with
          C := (arg row).addEntry pool.C (pool.i row)
          i := Function.update pool.i row (pool.i row + 1) })
      else .error .blocked

/-- What one turn does. -/
inductive Moved (arg : Nat → ThreadArgs α) (n : Nat) (pool : Pool α) : Pool α → Prop
  | create (more : pool.created < n) : Moved arg n pool { pool with created := pool.created + 1 }
  | join (all : n ≤ pool.created) (more : pool.joined < n)
      (ended : (arg pool.joined).n ≤ pool.i pool.joined) :
      Moved arg n pool { pool with joined := pool.joined + 1 }
  | round {row : Nat} (started : row < pool.created) (more : pool.i row < (arg row).n) :
      Moved arg n pool { pool with
        C := (arg row).addEntry pool.C (pool.i row)
        i := Function.update pool.i row (pool.i row + 1) }

end Steps

section Sums

variable {α : Type u} [Add α] {A B C : Matrix α} {n : Nat}

theorem addEntry_apply (arg : ThreadArgs α) (C : Matrix α) (i row column : Nat) :
    arg.addEntry C i row column =
      if row = arg.row ∧ column = i then arg.A row column + arg.B row column else C row column := by
  rw [ThreadArgs.addEntry]
  by_cases own : row = arg.row
  · subst own
    by_cases same : column = i
    · subst same
      simp
    · simp [same]
  · simp [own]

theorem matrixRowAdd_apply (arg : ThreadArgs α) (C : Matrix α) (row column : Nat) :
    matrixRowAdd arg C row column =
      if row = arg.row ∧ column < arg.n then arg.A row column + arg.B row column
      else C row column := by
  rw [matrixRowAdd]
  induction arg.n with
  | zero => simp
  | succ rounds ih =>
      rw [List.range_succ, List.foldl_concat, addEntry_apply, ih]
      by_cases own : row = arg.row
      · by_cases last : column = rounds
        · simp [own, last]
        · have before : column < rounds + 1 ↔ column < rounds := by omega
          simp [own, last, before]
      · simp [own]

theorem singleThread_apply (row column : Nat) :
    singleThread (args A B n) C row column =
      if row < n ∧ column < n then A row column + B row column else C row column := by
  have rows : ∀ most, (List.range most).foldl (fun C i => matrixRowAdd (args A B n i) C) C row column =
      if row < most ∧ column < n then A row column + B row column else C row column := by
    intro most
    induction most with
    | zero => simp
    | succ most ih =>
        rw [List.range_succ, List.foldl_concat, matrixRowAdd_apply, ih]
        by_cases last : row = most
        · simp [args, last]
        · have before : row < most + 1 ↔ row < most := by omega
          simp [args, last, before]
  exact rows n

end Sums

section Runs

variable {α : Type u} [Add α] {A B C : Matrix α} {arg : Nat → ThreadArgs α} {n : Nat}
  {pool after : Pool α} {turn : Turn} {output : Unit} {history : List (Event (Pool α) Turn Unit)}

theorem step_moved (done : step arg n pool turn = .ok (output, after)) : Moved arg n pool after := by
  cases turn with
  | main =>
      rw [step] at done
      split at done
      · cases done
        exact .create ‹_›
      · split at done
        · split at done
          · cases done
          · cases done
            exact .join (by omega) ‹_› (by omega)
        · cases done
  | thread row =>
      rw [step] at done
      split at done
      · rename_i ready
        cases done
        exact .round ready.1 ready.2
      · cases done

/-- Each entry left of a loop variable is the sum, the others are as they were. -/
structure Adding (A B C : Matrix α) (n : Nat) (pool : Pool α) : Prop where
  entries : ∀ row column, pool.C row column =
    if column < pool.i row then A row column + B row column else C row column
  inside : ∀ row, pool.i row ≤ n ∧ (n ≤ row → pool.i row = 0)
  created : pool.created ≤ n
  joined : pool.joined ≤ n ∧ ∀ row < pool.joined, pool.i row = n

/-- The turns so far. -/
def Pool.turns (pool : Pool α) (n : Nat) : Nat :=
  pool.created + pool.joined + ∑ row ∈ Finset.range n, pool.i row

theorem Moved.adding (moved : Moved (args A B n) n pool after) (adding : Adding A B C n pool) :
    Adding A B C n after := by
  obtain ⟨entries, inside, created, joined⟩ := adding
  cases moved with
  | create more => exact ⟨entries, inside, more, joined⟩
  | join all more ended =>
      refine ⟨entries, inside, created, more, fun row less => ?_⟩
      rcases Nat.lt_succ_iff_lt_or_eq.mp less with before | rfl
      · exact joined.2 row before
      · exact Nat.le_antisymm (inside _).1 ended
  | @round row begun more =>
      have small : pool.i row < n := more
      have below : row < n := Nat.lt_of_lt_of_le begun created
      refine ⟨fun other column => ?_, fun other => ?_, created, joined.1, fun other less => ?_⟩
      · simp only [addEntry_apply, entries]
        by_cases own : other = row
        · subst own
          by_cases last : column = pool.i other
          · simp [args, last]
          · have before : column < pool.i other + 1 ↔ column < pool.i other := by omega
            simp [args, last, before]
        · simp [args, own]
      · by_cases own : other = row
        · subst own
          simp only [Function.update_self]
          omega
        · simpa [own] using inside other
      · have apart : other ≠ row := by
          rintro rfl
          have ended := joined.2 other less
          omega
        simpa [apart] using joined.2 other less

theorem Moved.turns (moved : Moved (args A B n) n pool after) (created : pool.created ≤ n) :
    after.turns n = pool.turns n + 1 := by
  cases moved with
  | create | join =>
      simp only [Pool.turns]
      omega
  | @round row begun more =>
      have member : row ∈ Finset.range n := Finset.mem_range.mpr (Nat.lt_of_lt_of_le begun created)
      simp only [Pool.turns]
      rw [Finset.sum_update_of_mem member, ← Finset.add_sum_erase _ _ member, Finset.erase_eq]
      omega

theorem run_adding (run : Run (step (args A B n) n) { C } history pool) :
    Adding A B C n pool ∧ history.length = pool.turns n := by
  induction run with
  | nil => exact ⟨⟨by simp, by simp, Nat.zero_le n, Nat.zero_le n, by simp⟩, by simp [Pool.turns]⟩
  | snoc run done ih =>
      obtain ⟨adding, counted⟩ := ih
      have moved := step_moved done
      refine ⟨moved.adding adding, ?_⟩
      rw [moved.turns adding.created, ← counted, List.length_append, List.length_singleton]

/-- Where nobody can go on, all rows are done and joined. -/
theorem Adding.finished (adding : Adding A B C n pool)
    (stuck : ∀ turn result, step (args A B n) n pool turn ≠ .ok result) :
    pool.created = n ∧ pool.joined = n ∧ ∀ row < n, pool.i row = n := by
  have all : n ≤ pool.created := by
    by_contra more
    exact stuck .main _ (by rw [step, if_pos (by omega)])
  have done : ∀ row < n, pool.i row = n := by
    intro row less
    by_contra unfinished
    have small : pool.i row < (args A B n row).n :=
      lt_of_le_of_ne (adding.inside row).1 unfinished
    exact stuck (.thread row) _ (by rw [step, if_pos ⟨by omega, small⟩])
  refine ⟨Nat.le_antisymm adding.created all, ?_, done⟩
  by_contra more
  have less : pool.joined < n := lt_of_le_of_ne adding.joined.1 more
  have ended : ¬ pool.i pool.joined < (args A B n pool.joined).n := by
    rw [done _ less]
    exact lt_irrefl n
  exact stuck .main _ (by rw [step, if_neg (by omega), if_pos less, if_neg ended])

/-- However the threads take turns, each entry is written once, rows are joined when they are
complete, and the sum is that of a single thread. -/
theorem rows_added (run : Run (step (args A B n) n) { C } history pool) :
    (∀ row column, pool.C row column =
      if column < pool.i row then A row column + B row column else C row column) ∧
      (∀ row < pool.joined, ∀ column < n, pool.C row column = A row column + B row column) ∧
      history.length ≤ n * n + 2 * n ∧
      ((∀ turn result, step (args A B n) n pool turn ≠ .ok result) →
        history.length = n * n + 2 * n ∧ pool.joined = n ∧
          pool.C = singleThread (args A B n) C) := by
  obtain ⟨adding, counted⟩ := run_adding run
  refine ⟨adding.entries, ?_, ?_, ?_⟩
  · intro row less column inside
    rw [adding.entries, adding.joined.2 row less, if_pos inside]
  · have most : ∑ row ∈ Finset.range n, pool.i row ≤ n * n := by
      have each := Finset.sum_le_card_nsmul (Finset.range n) pool.i n fun row _ =>
        (adding.inside row).1
      simpa using each
    have created := adding.created
    have joined := adding.joined.1
    rw [counted, Pool.turns]
    omega
  · intro stuck
    obtain ⟨created, joined, done⟩ := adding.finished stuck
    refine ⟨?_, joined, ?_⟩
    · have whole : ∑ row ∈ Finset.range n, pool.i row = n * n := by
        rw [Finset.sum_congr rfl fun row member => done row (Finset.mem_range.mp member)]
        simp
      rw [counted, Pool.turns, whole]
      omega
    · funext row column
      rw [singleThread_apply, adding.entries]
      by_cases below : row < n
      · simp [below, done row below]
      · simp [below, (adding.inside row).2 (by omega)]

/-- Two rows, the second done while the first is. -/
theorem rows_added_sample : ∃ history, ∃ pool : Pool Nat,
    Run (step (args (fun row column => row + column) (fun _ _ => 1) 2) 2) { C := fun _ _ => 0 }
      history pool ∧ history.length = 8 ∧
      pool.C = singleThread (args (fun row column => row + column) (fun _ _ => 1) 2) fun _ _ => 0 := by
  have whole : ∃ history, ∃ pool : Pool Nat,
      Run (step (args (fun row column => row + column) (fun _ _ => 1) 2) 2) { C := fun _ _ => 0 }
        history pool ∧ history.length = 8 ∧ pool.created = 2 ∧ pool.joined = 2 ∧
        pool.i 0 = 2 ∧ pool.i 1 = 2 :=
    ⟨_, _, .of_execute [.main, .thread 0, .main, .thread 1, .thread 1, .thread 0, .main, .main] rfl,
      rfl, rfl, rfl, rfl, rfl⟩
  obtain ⟨history, pool, run, length, created, joined, first, second⟩ := whole
  obtain ⟨_, _, _, last⟩ := rows_added run
  refine ⟨history, pool, run, length, (last fun turn result => ?_).2.2⟩
  cases turn with
  | main => simp [step, created, joined]
  | thread row =>
      have done : row < 2 → pool.i row = 2 := fun less => by interval_cases row <;> assumption
      simp only [step, created, args]
      split
      · rename_i ready
        have full := done ready.1
        omega
      · simp

end Runs

end VoteCounting.Recitations.RowAdd
