import VoteCounting.Programs.LeafCounter

namespace VoteCounting.Programs

open Counters CString

/-! `Aggregate_Votes`: one process for each directory of a tree without links.

A run of a child ends before its parent reads the file of the child, so that the processes run one
after another.  A file is opened or created unless its path is that of a directory.
-/

/-- The path of the result file of a directory. -/
def getFilePath (path : CStr) : Option CStr :=
  (makeargv path '/').getLast?.map fun name => path ++ '/' :: name ++ ".txt".toList

/-- A directory with its vote file, its result file and its sub-directories as `readdir` lists
them.  No directory is empty. -/
inductive Directory where
  | mk (name : CStr) (votes result : Option (List Char)) (subdirs : List Directory)

namespace Directory

def name : Directory → CStr
  | mk name _ _ _ => name

def result : Directory → Option (List Char)
  | mk _ _ result _ => result

def subdirs : Directory → List Directory
  | mk _ _ _ subdirs => subdirs

end Directory

/-- The name of the result file is that of a sub-directory. -/
def blocked (name : CStr) (subdirs : List Directory) : Bool :=
  subdirs.any fun sub => sub.name = name ++ ".txt".toList

/-- `Leaf_Counter` leaves a directory without votes alone. -/
def leafCounter (sort : List (List Char) → List (List Char)) (name : CStr)
    (result : Option (List Char)) :
    Option (List Char) → Directory
  | none => .mk name none result []
  | some votes => .mk name (some (sortFile sort votes)) (some (printResults (fileOpener sort votes))) []

/-- What a parent reads; `none` where the file is missing or the program exits on its text.
There are no lines in a directory. -/
def readResult (counters : List Count) (sub : Directory) : Option (List Count) :=
  if blocked sub.name sub.subdirs then some counters
  else sub.result.bind (addFile counters)

/-- The file is created before the first result is read.  It stays empty if the program exits, or
if it has no candidates and follows a null pointer. -/
def writeResults (blocked : Bool) (counters : Option (List Count)) : Option (List Char) :=
  if blocked then none
  else match counters with
    | some (first :: rest) =>
        some (printNode first ++ rest.flatMap (fun node => ',' :: printNode node) ++ ['\n'])
    | _ => some []

mutual

/-- The directory after a call of `Aggregate_Votes`. -/
def run (sort : List (List Char) → List (List Char)) : Directory → Directory
  | .mk name votes result subdirs =>
      if subdirs.isEmpty then leafCounter sort name result votes
      else
        let after := aggr sort (blocked name subdirs) [] subdirs
        .mk name votes (writeResults (blocked name subdirs) after.2) after.1

/-- The loop over the sub-directories: the directories afterwards and the list, unless the
program exits before the end. -/
def aggr (sort : List (List Char) → List (List Char)) (blocked : Bool) (counters : List Count) :
    List Directory → List Directory × Option (List Count)
  | [] => ([], some counters)
  | sub :: rest =>
      if blocked then (run sort sub :: rest, none)
      else match readResult counters (run sort sub) with
        | none => (run sort sub :: rest, none)
        | some counters =>
            let after := aggr sort blocked counters rest
            (run sort sub :: after.1, after.2)

end

mutual

/-- A directory and all directories below it. -/
def directories : Directory → List Directory
  | .mk name votes result subdirs => .mk name votes result subdirs :: directoriesOf subdirs

def directoriesOf : List Directory → List Directory
  | [] => []
  | sub :: rest => directories sub ++ directoriesOf rest

end

def leaves (dir : Directory) : List Directory := (directories dir).filter fun dir => dir.subdirs.isEmpty

section Structure

variable {sort : List (List Char) → List (List Char)} {dir sub inner : Directory}
  {subdirs : List Directory}
  {counters : List Count} {name path : CStr}

/-- Induction from the leaves up. -/
theorem Directory.induction {P : Directory → Prop}
    (step : ∀ dir, (∀ sub ∈ dir.subdirs, P sub) → P dir) :
    ∀ dir, P dir
  | .mk _ _ _ _ => step _ fun sub _ => Directory.induction step sub
termination_by dir => sizeOf dir
decreasing_by
  rename_i member
  have smaller := List.sizeOf_lt_of_mem member
  simp only [Directory.mk.sizeOf_spec, Directory.subdirs] at smaller ⊢
  omega

/-- The file a run for a sub-directory writes is the one its parent opens. -/
theorem getFilePath_sub (named : name ≠ []) (noSlash : '/' ∉ name) :
    getFilePath (path ++ '/' :: name) = some (path ++ '/' :: name ++ '/' :: name ++ ".txt".toList) := by
  have words : makeargv (path ++ '/' :: name) '/' = makeargv path '/' ++ [name] := by
    rw [makeargv, tokens_append_delim, tokens_word noSlash named, ← makeargv]
  rw [getFilePath, words]
  simp

theorem directoriesOf_eq : directoriesOf subdirs = subdirs.flatMap directories := by
  induction subdirs with
  | nil => rfl
  | cons sub rest ih => rw [directoriesOf, ih, List.flatMap_cons]

theorem directories_eq : directories dir = dir :: dir.subdirs.flatMap directories := by
  cases dir
  rw [directories, directoriesOf_eq]
  rfl

theorem mem_directories_self : dir ∈ directories dir := by
  rw [directories_eq]
  exact List.mem_cons_self

theorem mem_directories_sub (member : sub ∈ dir.subdirs) (under : inner ∈ directories sub) :
    inner ∈ directories dir := by
  rw [directories_eq]
  exact List.mem_cons_of_mem _ (List.mem_flatMap.mpr ⟨sub, member, under⟩)

theorem directories_trans (outer : sub ∈ directories dir) (under : inner ∈ directories sub) :
    inner ∈ directories dir := by
  induction dir using Directory.induction with
  | step dir ih =>
      rw [directories_eq] at outer
      rcases List.mem_cons.mp outer with rfl | below
      · exact under
      · obtain ⟨child, held, path⟩ := List.mem_flatMap.mp below
        exact mem_directories_sub held (ih child held path)

theorem leaves_of_leaf (leaf : dir.subdirs = []) : leaves dir = [dir] := by
  rw [leaves, directories_eq, leaf]
  simp [leaf]

theorem leaves_of_inner (inside : dir.subdirs ≠ []) : leaves dir = dir.subdirs.flatMap leaves := by
  rw [leaves, directories_eq, List.filter_cons_of_neg (by simpa using inside), List.filter_flatMap]
  rfl

theorem mem_leaves_of_mem (outer : sub ∈ directories dir) (under : inner ∈ leaves sub) :
    inner ∈ leaves dir := by
  obtain ⟨below, leaf⟩ := List.mem_filter.mp under
  exact List.mem_filter.mpr ⟨directories_trans outer below, leaf⟩

theorem run_name : (run sort dir).name = dir.name := by
  cases dir with
  | mk name votes result subdirs =>
      rw [run]
      split
      · cases votes <;> rfl
      · rfl

theorem aggr_names {blocked : Bool} :
    (aggr sort blocked counters subdirs).1.map Directory.name = subdirs.map Directory.name := by
  induction subdirs generalizing counters with
  | nil => rfl
  | cons sub rest ih =>
      rw [aggr]
      split
      · simp [run_name]
      · split
        · simp [run_name]
        · simp [run_name, ih]

theorem run_leaf (leaf : dir.subdirs = []) : (run sort dir).subdirs = [] := by
  cases dir with
  | mk name votes result subdirs =>
      obtain rfl : subdirs = [] := leaf
      rw [run]
      cases votes <;> rfl

theorem run_inner (inside : dir.subdirs ≠ []) :
    (run sort dir).subdirs = (aggr sort (blocked dir.name dir.subdirs) [] dir.subdirs).1 ∧
      (run sort dir).result = writeResults (blocked dir.name dir.subdirs)
        (aggr sort (blocked dir.name dir.subdirs) [] dir.subdirs).2 := by
  cases dir with
  | mk name votes result subdirs =>
      have filled : ¬ subdirs.isEmpty := fun empty => inside (List.isEmpty_iff.mp empty)
      rw [run]
      rw [if_neg filled]
      exact ⟨rfl, rfl⟩

theorem blocked_run :
    blocked (run sort dir).name (run sort dir).subdirs = blocked dir.name dir.subdirs := by
  have same : (run sort dir).subdirs.map Directory.name = dir.subdirs.map Directory.name := by
    by_cases leaf : dir.subdirs = []
    · rw [run_leaf leaf, leaf]
    · rw [(run_inner leaf).1, aggr_names]
  have by_names : ∀ subdirs, blocked dir.name subdirs =
      (subdirs.map Directory.name).any fun sub => sub = dir.name ++ ".txt".toList := by
    intro subdirs
    rw [blocked, List.any_map]
    rfl
  rw [run_name, by_names, by_names, same]

end Structure

end VoteCounting.Programs
