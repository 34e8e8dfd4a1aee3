import VoteCounting.Threads.Directories
import VoteCounting.Data.Counters
import VoteCounting.Data.Run
import Mathlib.Logic.Function.Basic

namespace VoteCounting.Threads

open Counters CString

/-! One call of `aggregate` in one thread, and all threads over the same files.

A call runs from the lock of `rwMutex` to its release without an interruption.  Files hold no
null bytes.
-/

abbrev Count := Entry CStr

/-- The output directory, by path. -/
abbrev Files := CStr → Option (List Char)

/-- A thread between two calls: the region of the next one and the list `root_counter`. -/
structure Worker where
  filename : CStr
  counters : List Count := []

/-- The search does not stop at the entry it finds. -/
def increment (counters : List Count) (name : CStr) : List Count :=
  if name ∈ names counters then
    counters.map fun entry =>
      if entry.name = name then { entry with count := toInt (entry.count + 1) } else entry
  else counters ++ [⟨name, 1⟩]

/-- Lines of one byte and a newline are votes; the lines of a count file are longer. -/
def countFile (counters : List Count) (text : List Char) : List Count :=
  (getlines text).foldl
    (fun counters line => if line.length = 2 then increment counters (trimlastenter line) else counters)
    counters

def countLine (entry : Count) : List Char := entry.name ++ ':' :: decimal entry.count ++ ['\n']

def countText (entries : List Count) : List Char := entries.flatMap countLine

/-- The new entry for one line; there is none if the line has no name or no count. -/
def mergeLine (counters : List Count) (line : List Char) : Option Count := do
  let argvp := makeargv (trimlastenter line) ':'
  let name ← argvp[0]?
  let count ← argvp[1]?
  match counters.find? fun entry => entry.name = name with
  | some entry => return ⟨entry.name, toInt (atoi count + entry.count)⟩
  | none => return ⟨name, atoi count⟩

/-- Entries are made for the lines of the file only. -/
def mergeFile (counters : List Count) (text : List Char) : Option (List Count) :=
  (getlines text).mapM (mergeLine counters)

/-- What is written over the file of the parent. -/
def output (counters : List Count) : Option (List Char) → Option (List Char)
  | none => some (countText counters)
  | some text => (mergeFile counters text).map countText

/-- A call of `aggregate` for a region that is not the root; `none` where the call returns at
once, the program exits or a null pointer is followed. -/
def aggregate (nodes : List DirNode) (files : Files) (worker : Worker) : Option (Files × Worker) := do
  let readfilepath ← getPath nodes worker.filename
  let text ← files readfilepath
  let counters := countFile worker.counters text
  let parentname ← getparentname readfilepath
  let writefilepath ← getPath nodes parentname
  let written ← output counters (files writefilepath)
  return (Function.update files writefilepath (some written), ⟨parentname, counters⟩)

structure System (n : Nat) where
  files : Files
  workers : Fin n → Worker

/-- The first test of `aggregate`. -/
def AtRoot (nodes : List DirNode) (worker : Worker) : Prop :=
  ∃ root, nodes.head? = some root ∧ worker.filename = root.name

instance (nodes : List DirNode) (worker : Worker) : Decidable (AtRoot nodes worker) :=
  decidable_of_iff ((nodes.head?.map DirNode.name) = some worker.filename) <| by
    simp [AtRoot, eq_comm]

/-- One call by one thread. -/
def step {n : Nat} (nodes : List DirNode) (system : System n) (i : Fin n) :
    Except Unit (Unit × System n) :=
  if AtRoot nodes (system.workers i) then .error ()
  else
    match aggregate nodes system.files (system.workers i) with
    | none => .error ()
    | some (files, worker) => .ok ((), ⟨files, Function.update system.workers i worker⟩)

/-- The votes for one leaf, one candidate a line. -/
structure Ballots where
  leaf : DirNode
  votes : List Char
deriving DecidableEq, Repr

def ballotText (votes : List Char) : List Char := votes.flatMap fun candidate => [candidate, '\n']

/-- The threads have decrypted their files and have made no call yet. -/
def start {n : Nat} (ballots : Fin n → Ballots) : System n where
  files path := ((List.finRange n).find? fun i => filePath (ballots i).leaf = path).map fun i =>
    ballotText (ballots i).votes
  workers i := ⟨(ballots i).leaf.name, []⟩

end VoteCounting.Threads
