import VoteCounting.Data.Build
import VoteCounting.Nodes.Capacity
import VoteCounting.Nodes.Execution
import VoteCounting.Nodes.Termination

namespace VoteCounting.Nodes

open CString Process Relation

/-- `none` where the program exits, or would look for the children of node -1.  The search for the
root changes only the counts of the nodes. -/
def main (behind : Nat → List CStr) (text : List Char) : Option (Process Command) :=
  (parseInput text).bind fun parse =>
    (findRoot parse.names.length parse.names.length parse.node).bind fun root =>
      if root < 0 then none
      else execNodes ⟨parse.numCan, parse.canNames, behind⟩ parse.node parse.names.length
        (fun i => parse.names.getD i []) root.toNat

/-- The contents of the files by name. -/
abbrev Files := CStr → Option (List Char)

/-- `leafcounter` gets an input and an output; the others get the number of their inputs, these, and
an output. -/
def Command.inputs (command : Command) : List CStr :=
  if command.program = "./leafcounter".toList then [command.argv.getD 1 []]
  else (command.argv.drop 2).take (atoi (command.argv.getD 1 [])).toNat

def Command.output (command : Command) : CStr :=
  if command.program = "./leafcounter".toList then command.argv.getD 2 []
  else command.argv.getD ((atoi (command.argv.getD 1 [])).toNat + 2) []

/-- The three programs come without their source.  They write the output they are called with, and
what they leave there depends on what they read in their inputs and on what was there. -/
structure Confined (execute : Files → Command → Files) : Prop where
  writes : ∀ {files : Files} {command : Command} {place : CStr}, place ≠ command.output →
    execute files command place = files place
  reads : ∀ {files other : Files} {command : Command},
    (∀ input ∈ command.inputs, files input = other input) →
      files command.output = other command.output →
        execute files command command.output = execute other command command.output

/-- The files after some events; a program has written when it ends. -/
def executed (execute : Files → Command → Files) (files : Files)
    (labels : List (Option (Process.Event Command))) : Files :=
  ((labels.filterMap id).filterMap Event.finish?).foldl execute files

/-- What is counted for a node: its own file, or the outputs of its children. -/
def sources (node : NodeArray) (name : Nat → CStr) (i : Nat) : List CStr :=
  if kids node i = [] then [name i] else (kids node i).map (outputPrefix ++ name ·)

section Running

variable {node : NodeArray} {name : Nat → CStr} {i : Nat}

theorem command_leaf (candidates : Candidates) (name : Nat → CStr) (leaf : kids node i = []) :
    (command candidates node name i).program = "./leafcounter".toList ∧
      (command candidates node name i).argv = "leafcounter".toList :: name i ::
        (outputPrefix ++ name i) ::
          candidates.numCan :: (candidates.canNames ++ candidates.behind i) := by
  rw [command, if_pos leaf]
  exact ⟨rfl, rfl⟩

theorem command_inner (candidates : Candidates) (name : Nat → CStr) (inner : kids node i ≠ []) :
    (command candidates node name i).program ≠ "./leafcounter".toList ∧
      (command candidates node name i).argv = "aggregate_votes".toList ::
        decimal (sources node name i).length ::
          (sources node name i ++ (outputPrefix ++ name i) :: candidates.numCan :: candidates.canNames) := by
  rw [command, if_neg inner, sources, if_neg inner, List.length_map]
  constructor
  · dsimp only
    split <;> decide
  · simp

theorem count_decimal {sources : List CStr} (few : sources.length < 2 ^ 31) :
    (atoi (decimal sources.length)).toNat = sources.length := by
  rw [atoi_decimal (by omega) (by exact_mod_cast few)]
  rfl

theorem length_sources (few : (kids node i).length < 2 ^ 31) :
    (sources node name i).length < 2 ^ 31 := by
  rw [sources]
  split
  · exact (by decide : (1 : Nat) < 2 ^ 31)
  · rwa [List.length_map]

theorem inputs_command (candidates : Candidates) (name : Nat → CStr)
    (few : (kids node i).length < 2 ^ 31) :
    (command candidates node name i).inputs = sources node name i := by
  rw [Command.inputs]
  by_cases leaf : kids node i = []
  · obtain ⟨program, argv⟩ := command_leaf candidates name leaf
    rw [if_pos program, argv, sources, if_pos leaf]
    rfl
  · obtain ⟨program, argv⟩ := command_inner candidates name leaf
    rw [if_neg program, argv]
    simp only [List.getD_cons_succ, List.getD_cons_zero, count_decimal (length_sources few),
      List.drop_succ_cons, List.drop_zero, List.take_left']

theorem output_command (candidates : Candidates) (name : Nat → CStr)
    (few : (kids node i).length < 2 ^ 31) :
    (command candidates node name i).output = outputPrefix ++ name i := by
  rw [Command.output]
  by_cases leaf : kids node i = []
  · obtain ⟨program, argv⟩ := command_leaf candidates name leaf
    rw [if_pos program, argv]
    rfl
  · obtain ⟨program, argv⟩ := command_inner candidates name leaf
    rw [if_neg program, argv]
    simp [List.getD_eq_getElem?_getD, count_decimal (length_sources few)]

end Running

/-- The output of a region, what is read for it, and its program. -/
def rules {execute : Files → Command → Files} (confined : Confined execute) (candidates : Candidates)
    {node : NodeArray} (few : ∀ i, (kids node i).length < 2 ^ 31) (name : Nat → CStr) :
    Rules Nat CStr (Option (List Char)) where
  out i := outputPrefix ++ name i
  needs i := sources node name i
  run files i := execute files (command candidates node name i)
  frame elsewhere := confined.writes (output_command candidates name (few _) ▸ elsewhere)
  reads same place := by
    have agree := confined.reads (inputs_command candidates name (few _) ▸ same)
      (output_command candidates name (few _) ▸ place)
    rwa [output_command candidates name (few _)] at agree

section Trees

variable {lines : List CStr} {i c : Nat} {region child : CStr}

/-- The children of a node are those its line declares. -/
theorem TreeFile.map_children (tree : TreeFile lines) (fits : Fits lines)
    (found : (regionNames lines)[i]? = some region) :
    (childIndices (regionNames lines) (declared lines) i).map ((regionNames lines)[·]?) =
      (childrenOf lines region).map some :=
  tree.children_iff.mpr fits.nameless i region found

theorem mem_childrenOf : child ∈ childrenOf lines region ↔ (region, child) ∈ branches lines := by
  simp [childrenOf]

theorem TreeFile.mem_children (tree : TreeFile lines) (fits : Fits lines) :
    c ∈ childIndices (regionNames lines) (declared lines) i ↔ ∃ region child,
      (region, child) ∈ branches lines ∧ (regionNames lines)[i]? = some region ∧
        (regionNames lines)[c]? = some child := by
  constructor
  · intro held
    obtain ⟨pair, _, parent, _⟩ := mem_childIndices.mp held
    have found := (index_eq_some_iff.mp parent).1
    have listed := List.mem_map_of_mem (f := ((regionNames lines)[·]?)) held
    rw [tree.map_children fits found] at listed
    obtain ⟨child, below, same⟩ := List.mem_map.mp listed
    exact ⟨pair.1, child, mem_childrenOf.mp below, found, same.symm⟩
  · rintro ⟨region, child, below, found, same⟩
    have listed := List.mem_map_of_mem (f := some) (mem_childrenOf.mpr below)
    rw [← tree.map_children fits found, ← same] at listed
    obtain ⟨other, held, equal⟩ := List.mem_map.mp listed
    have inside := (List.getElem?_eq_some_iff.mp same).1
    rwa [← (List.getElem?_inj inside tree.distinct).mp equal.symm] at held

theorem TreeFile.nodup_children (tree : TreeFile lines) (fits : Fits lines) (i : Nat) :
    (childIndices (regionNames lines) (declared lines) i).Nodup := by
  cases found : (regionNames lines)[i]? with
  | none =>
      rw [childIndices_outside (List.getElem?_eq_none_iff.mp found)]
      exact List.nodup_nil
  | some region =>
      refine List.Nodup.of_map ((regionNames lines)[·]?) ?_
      rw [tree.map_children fits found]
      refine List.Nodup.map (Option.some_injective _) ?_
      refine (tree.once.filter _).map_on fun first held second alsoHeld same => ?_
      have left : first.1 = region := by simpa using (List.mem_filter.mp held).2
      have right : second.1 = region := by simpa using (List.mem_filter.mp alsoHeld).2
      exact Prod.ext (left.trans right.symm) same

/-- The nodes of a tree file, some of which may be nobody's children. -/
theorem TreeFile.branching (tree : TreeFile lines) (fits : Fits lines) :
    Branching (regionNames lines).length (childIndices (regionNames lines) (declared lines)) where
  inside held := by
    obtain ⟨_, _, _, found, same⟩ := (tree.mem_children fits).mp held
    exact ⟨(List.getElem?_eq_some_iff.mp found).1, (List.getElem?_eq_some_iff.mp same).1⟩
  single left right := by
    obtain ⟨parent, child, below, found, same⟩ := (tree.mem_children fits).mp left
    obtain ⟨other, again, alsoBelow, alsoFound, alsoSame⟩ := (tree.mem_children fits).mp right
    obtain rfl := Option.some.inj (same.symm.trans alsoSame)
    obtain rfl := tree.single below alsoBelow
    exact (List.getElem?_inj (List.getElem?_eq_some_iff.mp found).1 tree.distinct).mp
      (found.trans alsoFound.symm)
  unique := tree.nodup_children fits
  acyclic i cycle := by
    have named : ∀ a b, b ∈ childIndices (regionNames lines) (declared lines) a →
        ((regionNames lines).getD a [], (regionNames lines).getD b []) ∈ branches lines := by
      intro a b held
      obtain ⟨parent, child, below, found, same⟩ := (tree.mem_children fits).mp held
      rwa [List.getD_eq_getElem?_getD, List.getD_eq_getElem?_getD, found, same]
    have around : TransGen (fun parent child => (parent, child) ∈ branches lines)
        ((regionNames lines).getD i []) ((regionNames lines).getD i []) :=
      TransGen.lift (fun a => (regionNames lines).getD a []) named _ _ cycle
    obtain ⟨parent, _, last⟩ := TransGen.tail'_iff.mp around
    exact no_cycle_below (r := fun parent child => (parent, child) ∈ branches lines)
      tree.parentless tree.single ((tree.reached last).tail last) around

/-- Where some child is declared, `Who_Won` has children. -/
theorem TreeFile.root_inner (tree : TreeFile lines) (fits : Fits lines) (nonempty : branches lines ≠ [])
    (found : (regionNames lines)[i]? = some whoWon) :
    childIndices (regionNames lines) (declared lines) i ≠ [] := by
  obtain ⟨child, below⟩ : ∃ child, (whoWon, child) ∈ branches lines := by
    obtain ⟨⟨parent, child⟩, held⟩ := List.exists_mem_of_ne_nil _ nonempty
    rcases (tree.reached held).cases_head with rfl | ⟨first, below, _⟩
    · exact ⟨child, held⟩
    · exact ⟨first, below⟩
  intro leaf
  have listed := mem_childrenOf.mpr below
  have none := tree.map_children fits found
  rw [leaf, List.map_nil, eq_comm, List.map_eq_nil_iff] at none
  rw [none] at listed
  cases listed

end Trees

/-- A region file with a tree of more than one node.  No region is called like an output. -/
structure Counts (lines : List CStr) : Prop where
  tree : TreeFile lines
  fits : Fits lines
  nonempty : branches lines ≠ []
  apart : ∀ region ∈ regionNames lines, ∀ other ∈ regionNames lines, region ≠ outputPrefix ++ other

section Counting

variable {size i top : Nat} {children : Nat → List Nat}

/-- A node without children is not said to have descendants. -/
theorem answer_leaf (inside : i < size) (leaf : children i = []) : answer size children i = 0 := by
  have none : recounted children i = [] := by rw [recounted, leaf, List.filter_nil]
  have below : numBelow size children i = 0 := by
    rw [numBelow, Branching.descendants_eq inside, leaf]
    simp
  have again : overcount size children i = 0 := by
    rw [overcount, Branching.descendants_eq inside, none]
    simp [numFurther, below, leaf]
  simp [answer, below, again]

theorem answer_parentless (tree : Branching size children) (parentless : ∀ a, i ∉ children a)
    (inside : i < size) (inner : children i ≠ []) : 0 < answer size children i := by
  have early : ¬ Late children i := by
    rintro ⟨a, before, below⟩
    rcases ReflTransGen.cases_tail below with same | ⟨parent, _, held⟩
    · omega
    · exact parentless parent held
  have shares : 0 ≤ ((children i).map (numBelow size children)).sum := by
    refine List.sum_nonneg fun count held => ?_
    obtain ⟨child, below, rfl⟩ := List.mem_map.mp held
    have own : 0 < (descendants size children child).card := card_descendants_pos (tree.inside below).2
    rw [numBelow]
    omega
  have several := List.length_pos_iff.mpr inner
  rw [answer_of_not_late early, numBelow_eq tree inside]
  omega

/-- The first node with the largest answer. -/
structure Top (size : Nat) (children : Nat → List Nat) (top : Nat) : Prop where
  inside : top < size
  first : ∀ x < top, answer size children x < answer size children top
  largest : ∀ x < size, answer size children x ≤ answer size children top

/-- Where a node without a parent has children, the search comes to a node that has children. -/
theorem findRoot_top {fuel : Nat} {node : NodeArray} (tree : Branching size (kids node))
    (parsed : Parsed size node) (enough : size ≤ fuel) (parentless : ∀ a, i ∉ kids node a)
    (inside : i < size) (inner : kids node i ≠ []) :
    ∃ top : Nat, findRoot fuel size node = some (top : Int) ∧ Top size (kids node) top ∧
      kids node top ≠ [] := by
  obtain ⟨search, found, best⟩ := findRoot_best tree parsed enough
  have positive := answer_parentless tree parentless inside inner
  rcases best with ⟨_, _, small⟩ | ⟨top, before, parent, _, more, first, largest⟩
  · exact absurd (small i inside) positive.not_ge
  · refine ⟨top, parent ▸ found, ⟨before, first, largest⟩, fun leaf => ?_⟩
    rw [answer_leaf before leaf] at more
    omega

end Counting

/-- What the programs leave for the nodes below one.  The output of each is what its program makes of
its sources as they are in the end, and of what was in its place before; nothing else has changed. -/
structure Written (execute : Files → Command → Files) (candidates : Candidates) (node : NodeArray)
    (name : Nat → CStr) (top : Nat) (files after : Files) : Prop where
  made : ∀ i, Below (kids node) top i → ∀ seen : Files,
    (∀ source ∈ sources node name i, seen source = after source) →
      seen (outputPrefix ++ name i) = files (outputPrefix ++ name i) →
        after (outputPrefix ++ name i) =
          execute seen (command candidates node name i) (outputPrefix ++ name i)
  kept : ∀ place, (∀ i, Below (kids node) top i → place ≠ outputPrefix ++ name i) →
    after place = files place

section Whole

variable {lines : List CStr} {files : Files} {execute : Files → Command → Files}
  {candidates : Candidates} {node : NodeArray} {name : Nat → CStr} {top i j : Nat}

/-- The name of a node. -/
def nameOf (lines : List CStr) (i : Nat) : CStr := (regionNames lines).getD i []

theorem nameOf_eq (inside : i < (regionNames lines).length) :
    (regionNames lines)[i]? = some (nameOf lines i) := by
  rw [nameOf, List.getD_eq_getElem?_getD, List.getElem?_eq_getElem inside]
  rfl

theorem nameOf_mem (inside : i < (regionNames lines).length) : nameOf lines i ∈ regionNames lines :=
  List.mem_of_getElem? (nameOf_eq inside)

theorem nameOf_inj (distinct : (regionNames lines).Nodup) (inside : i < (regionNames lines).length)
    (alsoInside : j < (regionNames lines).length) (same : nameOf lines i = nameOf lines j) : i = j :=
  (List.getElem?_inj inside distinct).mp
    ((nameOf_eq inside).trans (same ▸ (nameOf_eq alsoInside).symm))

theorem Counts.few (counts : Counts lines)
    (nodes : kids node = childIndices (regionNames lines) (declared lines)) :
    ∀ i, (kids node i).length < 2 ^ 31 := by
  intro i
  cases found : (regionNames lines)[i]? with
  | none =>
      rw [nodes, childIndices_outside (List.getElem?_eq_none_iff.mp found)]
      decide
  | some region =>
      have length := congrArg List.length (counts.tree.map_children counts.fits found)
      have bound := counts.fits.children region
      rw [List.length_map, List.length_map, ← nodes] at length
      rw [maxChildren] at bound
      omega

/-- The children are written before their parents, and the files of the leaves are not written. -/
theorem Counts.ordered (counts : Counts lines) (confined : Confined execute)
    (nodes : kids node = childIndices (regionNames lines) (declared lines))
    (inside : top < (regionNames lines).length) :
    (rules confined candidates (counts.few nodes) (nameOf lines)).Ordered
      (postorder (kids node) (regionNames lines).length top) := by
  have tree : Branching (regionNames lines).length (kids node) :=
    nodes ▸ counts.tree.branching counts.fits
  have within : ∀ i ∈ postorder (kids node) (regionNames lines).length top,
      i < (regionNames lines).length := fun i held =>
    tree.below_inside inside ((tree.mem_postorder inside card_descendants_le).mp held)
  refine ⟨fun target held other alsoHeld same => ?_, tree.nodup_postorder inside card_descendants_le,
    fun before target after order need needed => ?_⟩
  · exact nameOf_inj counts.tree.distinct (within target held) (within other alsoHeld)
      (List.append_cancel_left same)
  · have present : target < (regionNames lines).length := within target (order ▸ by simp)
    by_cases leaf : kids node target = []
    · simp only [rules, sources, if_pos leaf, List.mem_singleton] at needed
      obtain rfl := needed
      refine .inr fun other held => ?_
      exact counts.apart _ (nameOf_mem present) _ (nameOf_mem (within other held))
    · simp only [rules, sources, if_neg leaf, List.mem_map] at needed
      obtain ⟨child, held, rfl⟩ := needed
      have first := tree.postorder_childrenFirst inside card_descendants_le before target after order
      exact .inl ⟨child, first child held, rfl⟩

/-- The programs run one after the other. -/
theorem executed_oneByOne {labels : List (Option (Process.Event Command))} {order : List Nat}
    (events : labels.filterMap id = oneByOne (order.map (command candidates node name))) :
    executed execute files labels =
      order.foldl (fun files i => execute files (command candidates node name i)) files := by
  rw [executed, events, finishes_oneByOne, List.foldl_map]

theorem Counts.written (counts : Counts lines) (confined : Confined execute)
    (nodes : kids node = childIndices (regionNames lines) (declared lines))
    (inside : top < (regionNames lines).length)
    {labels : List (Option (Process.Event Command))}
    (events : labels.filterMap id = oneByOne ((postorder (kids node) (regionNames lines).length top).map
      (command candidates node (nameOf lines)))) :
    Written execute candidates node (nameOf lines) top files (executed execute files labels) := by
  have tree : Branching (regionNames lines).length (kids node) :=
    nodes ▸ counts.tree.branching counts.fits
  have members : ∀ i, i ∈ postorder (kids node) (regionNames lines).length top ↔
      Below (kids node) top i := fun i => tree.mem_postorder inside card_descendants_le
  rw [executed_oneByOne events]
  refine ⟨fun i below => ?_, fun place elsewhere => ?_⟩
  · exact (counts.ordered confined nodes inside).made i ((members i).mpr below)
  · exact (rules confined candidates (counts.few nodes) (nameOf lines)).foldl_run_other
      fun target held => elsewhere target ((members target).mp held)

/-- Where the search does not come to `Who_Won`, no winner is written. -/
theorem Written.missed (tree : TreeFile lines) (fits : Fits lines) {after : Files}
    (nodes : kids node = childIndices (regionNames lines) (declared lines))
    (written : Written execute candidates node (nameOf lines) top files after)
    (inside : top < (regionNames lines).length) (missed : nameOf lines top ≠ whoWon) :
    after (outputPrefix ++ whoWon) = files (outputPrefix ++ whoWon) := by
  refine written.kept _ fun i below same => ?_
  have root : nameOf lines i = whoWon := (List.append_cancel_left same).symm
  rw [nodes] at below
  have present := (tree.branching fits).below_inside inside below
  rcases ReflTransGen.cases_tail below with rfl | ⟨parent, _, held⟩
  · exact missed root
  · obtain ⟨region, child, branch, _, found⟩ := (tree.mem_children fits).mp held
    have own : child = whoWon := Option.some.inj (found.symm.trans (root ▸ nameOf_eq present))
    exact tree.parentless region (own ▸ branch)

end Whole

def votesIn : Files := fun path =>
  if path = ['B'] then some "X\nY\n".toList else if path = ['C'] then some "X\n".toList else none

/-- What the handbook of the programs has them write for well-formed inputs. -/
def handbookText (command : Command) (contents : List (Option (List Char))) : List Char :=
  let leaf := command.program = "./leafcounter".toList
  let arguments := command.argv.drop (if leaf then 3 else contents.length + 3)
  let candidates := (arguments.drop 1).take (atoi (arguments.headD [])).toNat
  let lines := contents.flatMap fun text => getlines (text.getD [])
  let votes candidate :=
    if leaf then ((lines.countP (trimwhitespace · = candidate) : Nat) : Int)
    else (lines.map fun line =>
      let fields := makeargv line [' ']
      if fields.head? = some candidate then atoi (fields.getD 1 []) else 0).sum
  let best := candidates.foldl (fun best other => if votes best < votes other then other else best)
    (candidates.headD [])
  let winner :=
    if command.program = "./find_winner".toList then "Winner is: ".toList ++ best ++ ['\n'] else []
  (candidates.flatMap fun candidate => candidate ++ ' ' :: decimal (votes candidate) ++ ['\n']) ++ winner

def handbook (files : Files) (command : Command) : Files :=
  Function.update files command.output (some (handbookText command (command.inputs.map files)))

theorem handbook_confined : Confined handbook where
  writes elsewhere := Function.update_of_ne elsewhere ..
  reads same _ := by
    rw [handbook, handbook, Function.update_self, Function.update_self, List.map_congr_left same]

theorem branches_threeLevels : branches (getlines threeLevels) =
    [(whoWon, ['A']), (whoWon, ['C']), (['A'], ['B'])] := by decide

theorem threeLevels_tree : TreeFile (getlines threeLevels) where
  leads := by decide
  distinct := by decide
  few := by decide
  rooted := by decide
  listed held := by
    have all : ∀ pair ∈ branches (getlines threeLevels),
      pair.1 ∈ regionNames (getlines threeLevels) ∧ pair.2 ∈ regionNames (getlines threeLevels) := by
        decide
    exact all _ held
  parentless parent held := by
    have all : ∀ pair ∈ branches (getlines threeLevels), pair.2 ≠ whoWon := by decide
    exact all _ held rfl
  single first second := by
    have all : ∀ pair ∈ branches (getlines threeLevels), ∀ again ∈ branches (getlines threeLevels),
      pair.2 = again.2 → pair.1 = again.1 := by decide
    exact all _ first _ second rfl
  reached held := by
    rw [branches_threeLevels] at held ⊢
    simp only [List.mem_cons, Prod.mk.injEq, List.not_mem_nil, or_false] at held
    rcases held with ⟨rfl, _⟩ | ⟨rfl, _⟩ | ⟨rfl, _⟩
    · exact .refl
    · exact .refl
    · exact .single List.mem_cons_self
  once := by decide

theorem threeLevels_counts : Counts (getlines threeLevels) where
  tree := threeLevels_tree
  fits :=
    { children := fun region => by
        rw [childrenOf, List.length_map]
        exact (List.length_filter_le ..).trans (by decide)
      visited := by decide
      nameless := fun held => absurd held (by decide) }
  nonempty := by decide
  apart := by decide

end VoteCounting.Nodes
