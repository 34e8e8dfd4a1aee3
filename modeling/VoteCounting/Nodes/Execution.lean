import VoteCounting.Data.CString
import VoteCounting.Data.Processes
import VoteCounting.Nodes.Parser

namespace VoteCounting.Nodes

open CString Process

/-- A program with its arguments, and the node it is for. -/
structure Command where
  node : Nat
  program : CStr
  argv : List CStr
deriving DecidableEq

structure Candidates where
  numCan : CStr
  canNames : List CStr
  /-- What is behind the arguments for a leaf, which are not terminated. -/
  behind : Nat → List CStr

def outputPrefix : CStr := "Output_".toList

def prepend (s t : CStr) : CStr := t ++ s

/-- The name is prepended in a copy. -/
def leafcounter (candidates : Candidates) (name : Nat → CStr) (id : Nat) : Command where
  node := id
  program := "./leafcounter".toList
  argv := ["leafcounter".toList, name id, prepend (name id) outputPrefix, candidates.numCan] ++
    candidates.canNames ++ candidates.behind id

/-- The names of the children are changed in place. -/
def prependAll (name : Nat → CStr) (children : List Nat) : Nat → CStr :=
  children.foldl (fun name id => Function.update name id (prepend (name id) outputPrefix)) name

/-- The arguments are read when all names have been changed. -/
def aggregateVotes (candidates : Candidates) (node : NodeArray) (name : Nat → CStr) (rootId : Nat) :
    Command :=
  let names := prependAll name (node rootId).children
  let output := outputPrefix ++ names rootId
  { node := rootId
    program := if output = "Output_Who_Won".toList then "./find_winner".toList
      else "./aggregate_votes".toList
    argv := ["aggregate_votes".toList, decimal (node rootId).children.length] ++
      (node rootId).children.map names ++ [output, candidates.numCan] ++ candidates.canNames }

def execNodes (candidates : Candidates) (node : NodeArray) :
    Nat → (Nat → CStr) → Nat → Option (Process Command)
  | 0, _, _ => none
  | fuel + 1, name, rootId =>
      (node rootId).children.foldr (fun id rest =>
        (if (node id).children = [] then some (.exec (leafcounter candidates name id))
          else execNodes candidates node fuel name id).bind fun child =>
            rest.map fun rest => .fork child (.wait rest))
        (some (.exec (aggregateVotes candidates node name rootId)))

/-- The program of a node: a leaf is counted, and any other node gets the outputs of its children. -/
def command (candidates : Candidates) (node : NodeArray) (name : Nat → CStr) (i : Nat) : Command :=
  if kids node i = [] then
    { node := i
      program := "./leafcounter".toList
      argv := ["leafcounter".toList, name i, outputPrefix ++ name i, candidates.numCan] ++
        candidates.canNames ++ candidates.behind i }
  else
    { node := i
      program := if name i = whoWon then "./find_winner".toList else "./aggregate_votes".toList
      argv := ["aggregate_votes".toList, decimal (kids node i).length] ++
        (kids node i).map (fun child => outputPrefix ++ name child) ++
        [outputPrefix ++ name i, candidates.numCan] ++ candidates.canNames }

section Execution

variable {size root fuel i : Nat} {node : NodeArray} {name : Nat → CStr} {candidates : Candidates}
  {children : List Nat}

theorem command_node : (command candidates node name i).node = i := by
  rw [command]
  split <;> rfl

theorem command_injective : Function.Injective (command candidates node name) := by
  intro i j same
  have nodes := congrArg Command.node same
  rwa [command_node, command_node] at nodes

theorem prependAll_of_notMem (other : i ∉ children) : prependAll name children i = name i := by
  induction children generalizing name with
  | nil => rfl
  | cons child rest ih =>
      rw [List.mem_cons, not_or] at other
      rw [prependAll, List.foldl_cons, ← prependAll, ih other.2, Function.update_of_ne other.1]

theorem prependAll_of_mem (unique : children.Nodup) (held : i ∈ children) :
    prependAll name children i = outputPrefix ++ name i := by
  induction children generalizing name with
  | nil => cases held
  | cons child rest ih =>
      rw [List.nodup_cons] at unique
      rw [prependAll, List.foldl_cons, ← prependAll]
      rcases List.mem_cons.mp held with rfl | later
      · rw [prependAll_of_notMem unique.1, Function.update_self, prepend]
      · have other : i ≠ child := fun same => unique.1 (same ▸ later)
        rw [ih unique.2 later, Function.update_of_ne other]

/-- The process of an inner node becomes its program. -/
theorem aggregateVotes_eq (tree : Branching size (kids node)) (inner : kids node i ≠ []) :
    aggregateVotes candidates node name i = command candidates node name i := by
  have notOwn : i ∉ kids node i := fun held => tree.not_below_parent held .refl
  have renamed : (kids node i).map (prependAll name (kids node i)) =
      (kids node i).map fun child => outputPrefix ++ name child :=
    List.map_congr_left fun child held => prependAll_of_mem (tree.unique i) held
  have winner : outputPrefix ++ name i = "Output_Who_Won".toList ↔ name i = whoWon := by
    have whole : "Output_Who_Won".toList = outputPrefix ++ whoWon := by decide
    rw [whole, List.append_cancel_left_eq]
  rw [command, if_neg inner, ← renamed, aggregateVotes, ← kids]
  simp only [prependAll_of_notMem notOwn, winner]

/-- The loop forks one process for each child. -/
theorem foldr_fork {call : Nat → Option (Process Command)} {process : Nat → Process Command}
    {last : Process Command} (each : ∀ child ∈ children, call child = some (process child)) :
    children.foldr
        (fun id rest => (call id).bind fun child => rest.map fun rest => .fork child (.wait rest))
        (some last) =
      some (children.foldr (fun child rest => .fork (process child) (.wait rest)) last) := by
  induction children with
  | nil => rfl
  | cons child rest ih =>
      rw [List.foldr_cons, List.foldr_cons, ih fun other held =>
        each other (List.mem_cons_of_mem _ held), each child List.mem_cons_self]
      rfl

theorem flatMap_oneByOne {order : Nat → List Nat} {program : Nat → Command} (children : List Nat) :
    (children.flatMap fun child => oneByOne ((order child).map program)) =
      oneByOne ((children.flatMap order).map program) := by
  rw [oneByOne, List.map_flatMap, List.flatMap_assoc]
  rfl

/-- One program after another, in postorder. -/
theorem execNodes_sequential (candidates : Candidates) (name : Nat → CStr)
    (tree : Branching size (kids node)) (inside : i < size)
    (enough : (descendants size (kids node) i).card ≤ fuel) (inner : kids node i ≠ []) :
    ∃ process n, execNodes candidates node fuel name i = some process ∧
      Sequential process
        (oneByOne ((postorder (kids node) fuel i).map (command candidates node name))) n := by
  induction fuel generalizing i with
  | zero => exact absurd (card_descendants_pos inside) (Nat.le_zero.mp enough).not_gt
  | succ fuel ih =>
      have each : ∀ c ∈ kids node i, ∃ process n,
          (if (node c).children = [] then some (.exec (leafcounter candidates name c))
            else execNodes candidates node fuel name c) = some process ∧
          Sequential process
            (oneByOne ((postorder (kids node) fuel c).map (command candidates node name))) n := by
        intro c held
        obtain ⟨present, few⟩ := tree.enough_child enough held
        by_cases leaf : kids node c = []
        · have positive : 0 < (descendants size (kids node) c).card := card_descendants_pos present
          obtain ⟨more, rfl⟩ : ∃ more, fuel = more + 1 := ⟨fuel - 1, by omega⟩
          have own : command candidates node name c = leafcounter candidates name c := if_pos leaf
          refine ⟨_, 2, if_pos leaf, ?_⟩
          rw [postorder, leaf, List.flatMap_nil, List.nil_append, List.map_singleton, own]
          exact .exec _
        · obtain ⟨process, n, called, sequential⟩ := ih present few leaf
          exact ⟨process, n, (if_neg leaf).trans called, sequential⟩
      choose! process steps called sequential using each
      have last : Sequential (.exec (aggregateVotes candidates node name i))
          (oneByOne [command candidates node name i]) 2 := by
        rw [aggregateVotes_eq tree inner]
        exact .exec _
      obtain ⟨n, whole⟩ := Sequential.calls (fun c held => ⟨_, sequential c held⟩) last
      refine ⟨_, n, foldr_fork called, ?_⟩
      rw [flatMap_oneByOne, oneByOne, oneByOne, ← List.flatMap_append, ← oneByOne] at whole
      rw [postorder, List.map_append, List.map_singleton]
      exact whole

end Execution

/-- What a process does, in whatever order it and its children take their steps. -/
structure Executes (candidates : Candidates) (node : NodeArray) (name : Nat → CStr) (size : Nat)
    (process : Process Command) : Prop where
  ends : ∃ bound, ∀ labels forest, Runs [.node process []] labels forest → labels.length ≤ bound
  /-- A program is launched when those of all children have finished. -/
  order : ∀ labels forest, Runs [.node process []] labels forest → ∀ past i future,
    labels.filterMap id = past ++ .launched (command candidates node name i) :: future →
      ∀ child ∈ kids node i, .finished (command candidates node name child) ∈ past
  atMostOnce : ∀ labels forest, Runs [.node process []] labels forest →
    ((labels.filterMap id).filterMap Event.launch?).Subperm
      ((List.range size).map (command candidates node name))
  /-- When no process can go on, each node has had its program once. -/
  once : ∀ labels forest, Runs [.node process []] labels forest → Final forest →
    ((labels.filterMap id).filterMap Event.launch?).Perm
      ((List.range size).map (command candidates node name))

/-- Every node of a tree has its program once, after those of its children. -/
theorem execNodes_executes {size root fuel : Nat} {node : NodeArray} (candidates : Candidates)
    (name : Nat → CStr) (tree : Rooted size (kids node) root) (inner : kids node root ≠ [])
    (enough : size ≤ fuel) :
    ∃ process, execNodes candidates node fuel name root = some process ∧
      Executes candidates node name size process := by
  have few : (descendants size (kids node) root).card ≤ fuel := card_descendants_le.trans enough
  obtain ⟨process, bound, called, sequential⟩ :=
    execNodes_sequential candidates name tree.branching tree.present few inner
  have all : ((postorder (kids node) fuel root).map (command candidates node name)).Perm
      ((List.range size).map (command candidates node name)) := by
    have unique := tree.branching.nodup_postorder tree.present few
    refine ((List.perm_ext_iff_of_nodup unique List.nodup_range).mpr fun i => ?_).map _
    rw [tree.branching.mem_postorder tree.present few, List.mem_range]
    exact ⟨tree.branching.below_inside tree.present, tree.reached i⟩
  refine ⟨process, called, ⟨⟨bound, fun labels forest runs => (sequential.runs runs).2.1⟩, ?_, ?_, ?_⟩⟩
  · intro labels forest runs past i future split child held
    obtain ⟨rest, whole⟩ := (sequential.runs runs).1
    rw [split, List.append_assoc, List.cons_append] at whole
    obtain ⟨before, after, programs, rfl⟩ := oneByOne_launched whole.symm
    obtain ⟨earlier, others, order, rfl, rest⟩ := List.map_eq_append_iff.mp programs
    obtain ⟨j, later, rfl, same, _⟩ := List.map_eq_cons_iff.mp rest
    obtain rfl := command_injective same
    have first :=
      tree.branching.postorder_childrenFirst tree.present few earlier j later order child held
    exact finished_mem_oneByOne.mpr (List.mem_map_of_mem first)
  · intro labels forest runs
    obtain ⟨rest, whole⟩ := (sequential.runs runs).1
    have launches := congrArg (List.filterMap Event.launch?) whole
    rw [launches_oneByOne, List.filterMap_append] at launches
    exact (launches ▸ List.sublist_append_left _ _).subperm.trans all.subperm
  · intro labels forest runs final
    rw [(sequential.runs runs).2.2 final, launches_oneByOne]
    exact all

theorem execNodes_executes_sample : ∃ process,
    execNodes ⟨['1'], [['X']], fun _ => []⟩ (chain 3) 3 ([whoWon, ['A'], ['B']].getD · []) 0 =
      some process ∧
    Executes ⟨['1'], [['X']], fun _ => []⟩ (chain 3) ([whoWon, ['A'], ['B']].getD · []) 3 process :=
  execNodes_executes _ _ (chain_rooted (by omega)) (by decide) (le_refl 3)

end VoteCounting.Nodes
