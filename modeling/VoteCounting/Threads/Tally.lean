import VoteCounting.Threads.Merging
import Mathlib.Algebra.BigOperators.Fin

namespace VoteCounting.Threads

open Counters CString Paths

section Spec

variable {n : Nat} (nodes : List DirNode) (ballots : Fin n → Ballots)

/-- The votes for a candidate in the leaves below a region. -/
def votesBelow (region : DirNode) (candidate : Char) : Nat :=
  ∑ i, if Above region (ballots i).leaf then (ballots i).votes.count candidate else 0

/-- The thread has added its leaf to the file of the region: its next call is for this region
or one above. -/
def Added (ballot : Ballots) (worker : Worker) (region : DirNode) : Prop :=
  Above region ballot.leaf ∧
    ∃ node ∈ nodes, node.name = worker.filename ∧ node.path.length ≤ region.path.length

instance (ballot : Ballots) (worker : Worker) (region : DirNode) :
    Decidable (Added nodes ballot worker region) :=
  inferInstanceAs (Decidable (_ ∧ _))

def votesSoFar (workers : Fin n → Worker) (region : DirNode) (candidate : Char) : Nat :=
  ∑ i, if Added nodes (ballots i) (workers i) region then (ballots i).votes.count candidate else 0

/-- Every file above a leaf lists each candidate voted for below it once, with the number of
the votes. -/
def Tallied (files : Files) : Prop :=
  ∀ region ∈ nodes, (∃ i, Above region (ballots i).leaf) →
    ∃ entries, files (filePath region) = some (countText entries) ∧
      Reports entries (votesBelow ballots region)

/-- The vote files belong to different leaf regions. -/
structure Assigned : Prop where
  inside : ∀ i, (ballots i).leaf ∈ nodes
  isLeaf : ∀ i, ∀ node ∈ nodes, ¬ Above (ballots i).leaf node
  entry : ∀ i, FileName (ballots i).leaf.name
  distinct : Function.Injective fun i => (ballots i).leaf.name
  noNewline : ∀ i, '\n' ∉ (ballots i).votes

/-- Paths name the parents, and the counts are numbers of type `int`. -/
structure Manageable : Prop where
  names : ∀ i, ∀ node ∈ nodes, Above node (ballots i).leaf → FileName node.name
  few : ∀ candidate, ∑ i, (ballots i).votes.count candidate < 2 ^ 31

/-- A line of the file counts the candidate. -/
def Lists (text : List Char) (candidate : Char) : Prop :=
  ∃ line ∈ getlines text, [candidate, ':'] <+: line

instance (text : List Char) (candidate : Char) : Decidable (Lists text candidate) :=
  inferInstanceAs (Decidable (∃ line ∈ getlines text, [candidate, ':'] <+: line))

/-- The file the next call for a region writes. -/
def writtenPath (filename : CStr) : Option CStr := do
  let readfilepath ← getPath nodes filename
  let parentname ← getparentname readfilepath
  getPath nodes parentname

/-- A call finds no file, or one that lists every candidate of its leaf. -/
def MergeSafe (_past : List (Event (System n) (Fin n) Unit)) (system : System n) (i : Fin n) : Prop :=
  ∀ path text, writtenPath nodes (system.workers i).filename = some path →
    system.files path = some text → ∀ candidate ∈ (ballots i).votes, Lists text candidate

end Spec

section Invariant

variable {n : Nat} {outputDir : CStr} {nodes : List DirNode} {ballots : Fin n → Ballots}
  {system after : System n} {i : Fin n}

/-- The thread is at its leaf, or has counted it and is above it. -/
def WorkerAt (nodes : List DirNode) (ballot : Ballots) (worker : Worker) : Prop :=
  ∃ node ∈ nodes, node.name = worker.filename ∧
    ((node = ballot.leaf ∧ worker.counters = []) ∨
      (Above node ballot.leaf ∧ worker.counters = countVotes [] ballot.votes))

structure Tallying (nodes : List DirNode) (ballots : Fin n → Ballots) (system : System n) : Prop where
  workers : ∀ i, WorkerAt nodes (ballots i) (system.workers i)
  leaves : ∀ i, system.files (filePath (ballots i).leaf) = some (ballotText (ballots i).votes)
  untouched : ∀ region ∈ nodes, (∃ i, Above region (ballots i).leaf) →
    (∀ i, ¬ Added nodes (ballots i) (system.workers i) region) → system.files (filePath region) = none
  counted : ∀ region ∈ nodes, ∀ i, Added nodes (ballots i) (system.workers i) region →
    ∃ entries, system.files (filePath region) = some (countText entries) ∧
      Reports entries (votesSoFar nodes ballots system.workers region)

theorem Placed.root_shortest (placed : Placed outputDir nodes) {root node : DirNode}
    (first : nodes.head? = some root) (member : node ∈ nodes) :
    root.path.length ≤ node.path.length := by
  obtain ⟨rest, rfl⟩ : ∃ rest, nodes = root :: rest := List.head?_eq_some_iff.mp first
  induction length : node.path.length using Nat.strong_induction_on generalizing node with
  | _ length' ih =>
      rcases List.mem_cons.mp member with rfl | later
      · exact length.le
      · obtain ⟨parent, held, path⟩ := placed.inner node later
        have shorter : parent.path.length < length' := by
          rw [← length, path, makepath, List.length_append, List.length_cons]
          omega
        exact (ih _ shorter held rfl).trans shorter.le

theorem votes_countable (assigned : Assigned nodes ballots) (manageable : Manageable nodes ballots)
    (chosen : Fin n → Prop) [DecidablePred chosen] :
    Countable fun candidate => ∑ i, if chosen i then (ballots i).votes.count candidate else 0 where
  few candidate := by
    refine lt_of_le_of_lt (Finset.sum_le_sum fun i _ => ?_) (manageable.few candidate)
    split
    · exact le_refl _
    · exact Nat.zero_le _
  noNewline := by
    apply Finset.sum_eq_zero
    intro i _
    rw [List.count_eq_zero.mpr (assigned.noNewline i), ite_self]

theorem FileName.unique_path {region node : DirNode} (unique : (nodes.map DirNode.name).Nodup)
    (member : region ∈ nodes) (other : node ∈ nodes) (proper : FileName region.name)
    (otherProper : FileName node.name) (same : filePath region = filePath node) : region = node :=
  List.inj_on_of_nodup_map unique member other (filePath_inj proper otherProper same).2

theorem start_files_leaf (assigned : Assigned nodes ballots) (i : Fin n) :
    (start ballots).files (filePath (ballots i).leaf) = some (ballotText (ballots i).votes) := by
  have found :
    (List.finRange n).find? (fun j => filePath (ballots j).leaf = filePath (ballots i).leaf) =
      some i := by
    cases result :
      (List.finRange n).find? (fun j => filePath (ballots j).leaf = filePath (ballots i).leaf) with
    | none => simpa using List.find?_eq_none.mp result i (List.mem_finRange i)
    | some j =>
        have same : filePath (ballots j).leaf = filePath (ballots i).leaf := by
          simpa using List.find?_some result
        rw [assigned.distinct (filePath_inj (assigned.entry j) (assigned.entry i) same).2]
  simp only [start, found, Option.map_some]

theorem start_files_none {path : CStr} (other : ∀ j, filePath (ballots j).leaf ≠ path) :
    (start ballots).files path = none := by
  have missing : (List.finRange n).find? (fun j => filePath (ballots j).leaf = path) = none := by
    simpa using other
  simp only [start, missing, Option.map_none]

theorem Tallying.start (unique : (nodes.map DirNode.name).Nodup) (assigned : Assigned nodes ballots)
    (manageable : Manageable nodes ballots) : Tallying nodes ballots (start ballots) where
  workers i := ⟨(ballots i).leaf, assigned.inside i, rfl, .inl ⟨rfl, rfl⟩⟩
  leaves := start_files_leaf assigned
  untouched region member := by
    intro ⟨i, above⟩ _
    apply start_files_none
    intro j same
    have isLeaf := FileName.unique_path unique (assigned.inside j) member (assigned.entry j)
      (manageable.names i region member above) same
    exact assigned.isLeaf j _ (assigned.inside i) (isLeaf ▸ above)
  counted region member i := by
    intro ⟨above, node, held, name, shorter⟩
    have same := List.inj_on_of_nodup_map unique held (assigned.inside i) name
    have longer := Inside.length_lt above
    rw [← same] at longer
    omega

theorem aggregate_at {files files' : Files} {worker worker' : Worker} {node parent : DirNode}
    {directory : CStr} (unique : (nodes.map DirNode.name).Nodup) (member : node ∈ nodes)
    (parentMember : parent ∈ nodes) (name : node.name = worker.filename) (proper : FileName node.name)
    (parentProper : FileName parent.name) (path : node.path = makepath parent.path node.name)
    (parentPath : parent.path = makepath directory parent.name)
    (called : aggregate nodes files worker = some (files', worker')) :
    ∃ text written, files (filePath node) = some text ∧
      output (countFile worker.counters text) (files (filePath parent)) = some written ∧
      files' = Function.update files (filePath parent) (some written) ∧
      worker' = ⟨parent.name, countFile worker.counters text⟩ := by
  have readPath := getPath_of_mem unique member
  have parentName := getparentname_filePath proper parentProper path parentPath
  have writePath := getPath_of_mem unique parentMember
  rw [name] at readPath
  simp only [aggregate, readPath, parentName, writePath, Option.bind_eq_bind,
    Option.bind_some] at called
  obtain ⟨text, read, called⟩ := Option.bind_eq_some_iff.mp called
  obtain ⟨written, made, called⟩ := Option.bind_eq_some_iff.mp called
  cases called
  exact ⟨text, written, read, made, rfl, rfl⟩

theorem writtenPath_at {filename : CStr} {node parent : DirNode} {directory : CStr}
    (unique : (nodes.map DirNode.name).Nodup) (member : node ∈ nodes) (parentMember : parent ∈ nodes)
    (name : node.name = filename) (proper : FileName node.name) (parentProper : FileName parent.name)
    (path : node.path = makepath parent.path node.name)
    (parentPath : parent.path = makepath directory parent.name) :
    writtenPath nodes filename = some (filePath parent) := by
  have readPath := getPath_of_mem unique member
  rw [name] at readPath
  simp only [writtenPath, readPath, getparentname_filePath proper parentProper path parentPath,
    getPath_of_mem unique parentMember, Option.bind_eq_bind, Option.bind_some]

theorem parent_next {region node parent leaf : DirNode}
    (path : node.path = makepath parent.path node.name)
    (proper : FileName node.name) (regionAbove : Above region leaf)
    (nodeLeads : node.path <+: leaf.path)
    (below : region.path.length < node.path.length) : region.path.length ≤ parent.path.length := by
  have inside : Inside '/' region.path node.path := Inside.of_length_lt regionAbove nodeLeads below
  rw [path, makepath] at inside
  exact Inside.length_le inside proper.noSlash

theorem added_at {ballot : Ballots} {worker : Worker} {node region : DirNode}
    (unique : (nodes.map DirNode.name).Nodup) (member : node ∈ nodes)
    (name : node.name = worker.filename) :
    Added nodes ballot worker region ↔
      Above region ballot.leaf ∧ node.path.length ≤ region.path.length := by
  constructor
  · intro ⟨above, other, held, otherName, shorter⟩
    obtain rfl := List.inj_on_of_nodup_map unique held member (otherName.trans name.symm)
    exact ⟨above, shorter⟩
  · intro ⟨above, shorter⟩
    exact ⟨above, node, member, name, shorter⟩

/-- A thread that is to call `aggregate` for `node`, below `parent`. -/
structure Call (nodes : List DirNode) (ballot : Ballots) (worker : Worker) (node parent : DirNode) :
    Prop where
  member : node ∈ nodes
  parentMember : parent ∈ nodes
  name : node.name = worker.filename
  proper : FileName node.name
  parentProper : FileName parent.name
  path : node.path = makepath parent.path node.name
  directory : ∃ directory, parent.path = makepath directory parent.name
  above : Above parent ballot.leaf
  leads : node.path <+: ballot.leaf.path
  sofar : (node = ballot.leaf ∧ worker.counters = []) ∨
    (Above node ballot.leaf ∧ worker.counters = countVotes [] ballot.votes)

theorem Tallying.call (tallying : Tallying nodes ballots system) (placed : Placed outputDir nodes)
    (assigned : Assigned nodes ballots) (manageable : Manageable nodes ballots)
    (notRoot : ¬ AtRoot nodes (system.workers i)) :
    ∃ node parent, Call nodes (ballots i) (system.workers i) node parent := by
  obtain ⟨node, member, name, sofar⟩ := tallying.workers i
  have leads : node.path <+: (ballots i).leaf.path := by
    rcases sofar with ⟨rfl, _⟩ | ⟨above, _⟩
    · exact List.prefix_refl _
    · exact Inside.leads above
  have proper : FileName node.name := by
    rcases sofar with ⟨rfl, _⟩ | ⟨above, _⟩
    · exact assigned.entry i
    · exact manageable.names i node member above
  have inner : node ∈ nodes.tail := by
    cases nodes with
    | nil => cases member
    | cons root rest =>
        rcases List.mem_cons.mp member with rfl | later
        · exact absurd ⟨_, rfl, name.symm⟩ notRoot
        · exact later
  obtain ⟨parent, parentMember, path⟩ := placed.inner node inner
  have above : Above parent (ballots i).leaf := by
    refine Inside.of_leads ?_ leads
    rw [path, makepath]
    exact inside_append node.name
  exact ⟨node, parent, member, parentMember, name, proper, manageable.names i parent parentMember above,
    path, placed.path_eq parentMember, above, leads, sofar⟩

section Call

variable {ballot : Ballots} {worker : Worker} {node parent region : DirNode} {counters : List Count}

theorem Call.shorter (call : Call nodes ballot worker node parent) :
    parent.path.length < node.path.length := by
  rw [call.path, makepath, List.length_append, List.length_cons]
  omega

theorem Call.added_iff (call : Call nodes ballot worker node parent) (placed : Placed outputDir nodes)
    (unique : (nodes.map DirNode.name).Nodup) (member : region ∈ nodes)
    (proper : Above region ballot.leaf → FileName region.name) :
    Added nodes ballot ⟨parent.name, counters⟩ region ↔
      Added nodes ballot worker region ∨ region = parent := by
  rw [added_at unique call.parentMember rfl, added_at unique call.member call.name]
  have shorter := call.shorter
  constructor
  · intro ⟨above, bound⟩
    by_cases reached : node.path.length ≤ region.path.length
    · exact .inl ⟨above, reached⟩
    · right
      have length := parent_next call.path call.proper above call.leads (by omega)
      have paths : region.path = parent.path :=
        List.IsPrefix.eq_of_length (List.prefix_of_prefix_length_le (Inside.leads above)
          (Inside.leads call.above) length) (le_antisymm length bound)
      obtain ⟨directory, path⟩ := placed.path_eq member
      obtain ⟨other, parentPath⟩ := call.directory
      rw [path, parentPath] at paths
      exact List.inj_on_of_nodup_map unique member call.parentMember
        (append_sep_inj paths (proper above).noSlash call.parentProper.noSlash).2
  · intro either
    rcases either with ⟨above, bound⟩ | rfl
    · exact ⟨above, by omega⟩
    · exact ⟨call.above, le_refl _⟩

theorem Call.not_added (call : Call nodes ballot worker node parent)
    (unique : (nodes.map DirNode.name).Nodup) : ¬ Added nodes ballot worker parent := by
  rw [added_at unique call.member call.name]
  have shorter := call.shorter
  intro ⟨_, bound⟩
  omega

end Call

/-- The list of a thread holds the votes of its leaf from its first call on. -/
theorem Tallying.brought {node parent : DirNode} {text : List Char}
    (tallying : Tallying nodes ballots system)
    (unique : (nodes.map DirNode.name).Nodup) (assigned : Assigned nodes ballots)
    (manageable : Manageable nodes ballots)
    (call : Call nodes (ballots i) (system.workers i) node parent)
    (read : system.files (filePath node) = some text) :
    countFile (system.workers i).counters text = countVotes [] (ballots i).votes := by
  rcases call.sofar with ⟨rfl, empty⟩ | ⟨above, counters⟩
  · rw [tallying.leaves i] at read
    obtain rfl := Option.some.inj read
    rw [empty]
    exact countFile_ballotText (assigned.noNewline i) (by simp)
  · have added := (added_at unique call.member call.name).mpr ⟨above, le_refl _⟩
    obtain ⟨entries, file, reports⟩ := tallying.counted node call.member i added
    rw [file] at read
    obtain rfl := Option.some.inj read
    rw [countFile_countText (reports.noNewline (votes_countable assigned manageable _)), counters]

theorem votesSoFar_congr {workers workers' : Fin n → Worker} {region : DirNode}
    (same : ∀ j, Added nodes (ballots j) (workers' j) region ↔
      Added nodes (ballots j) (workers j) region) :
    votesSoFar nodes ballots workers' region = votesSoFar nodes ballots workers region := by
  funext candidate
  exact Finset.sum_congr rfl fun j _ => if_congr (same j) rfl rfl

theorem votesSoFar_add {workers : Fin n → Worker} {worker : Worker} {region : DirNode}
    {candidate : Char} (notAdded : ¬ Added nodes (ballots i) (workers i) region)
    (added : Added nodes (ballots i) worker region) :
    votesSoFar nodes ballots (Function.update workers i worker) region candidate =
      votesSoFar nodes ballots workers region candidate + (ballots i).votes.count candidate := by
  have before : votesSoFar nodes ballots workers region candidate = _ :=
    (Finset.add_sum_erase Finset.univ _ (Finset.mem_univ i)).symm
  have after : votesSoFar nodes ballots (Function.update workers i worker) region candidate = _ :=
    (Finset.add_sum_erase Finset.univ _ (Finset.mem_univ i)).symm
  have others : ∀ j ∈ Finset.univ.erase i,
      (if Added nodes (ballots j) (Function.update workers i worker j) region then
        (ballots j).votes.count candidate else 0) =
      if Added nodes (ballots j) (workers j) region then (ballots j).votes.count candidate else 0 := by
    intro j member
    rw [Function.update_of_ne (Finset.ne_of_mem_erase member)]
  rw [before, after, Finset.sum_congr rfl others, if_neg notAdded, Function.update_self, if_pos added]
  omega

theorem lists_countText {entries : List Count} {votes : Char → Nat} {candidate : Char}
    (reports : Reports entries votes) (countable : Countable votes)
    (lists : Lists (countText entries) candidate) : 0 < votes candidate := by
  obtain ⟨line, member, begins⟩ := lists
  rw [getlines_countText (reports.noNewline countable)] at member
  obtain ⟨entry, held, rfl⟩ := List.mem_map.mp member
  obtain ⟨other, name, positive⟩ := reports.name_eq held
  obtain ⟨rest, whole⟩ := begins
  simp only [countLine, name, List.cons_append, List.nil_append, List.cons.injEq] at whole
  rw [whole.1]
  exact positive

/-- What the call leaves in the file of the parent. -/
theorem Tallying.written {node parent : DirNode} {written : List Char}
    (tallying : Tallying nodes ballots system) (unique : (nodes.map DirNode.name).Nodup)
    (assigned : Assigned nodes ballots) (manageable : Manageable nodes ballots)
    (call : Call nodes (ballots i) (system.workers i) node parent)
    (safe : MergeSafe nodes ballots [] system i)
    (made : output (countVotes [] (ballots i).votes) (system.files (filePath parent)) = some written) :
    ∃ entries, written = countText entries ∧ Reports entries fun candidate =>
      votesSoFar nodes ballots system.workers parent candidate + (ballots i).votes.count candidate := by
  have afterwards : Added nodes (ballots i) ⟨parent.name, []⟩ parent :=
    (added_at unique call.parentMember rfl).mpr ⟨call.above, le_refl _⟩
  have few : ∀ candidate, votesSoFar nodes ballots system.workers parent candidate +
      (ballots i).votes.count candidate < 2 ^ 31 := by
    intro candidate
    rw [← votesSoFar_add (call.not_added unique) afterwards]
    exact (votes_countable assigned manageable _).few candidate
  have brought : Reports (countVotes [] (ballots i).votes) _ := countVotes_reports fun candidate => by
    have bound := few candidate
    omega
  by_cases reached : ∃ j, Added nodes (ballots j) (system.workers j) parent
  · obtain ⟨j, added⟩ := reached
    obtain ⟨entries, file, reports⟩ := tallying.counted parent call.parentMember j added
    have countable : Countable (votesSoFar nodes ballots system.workers parent) :=
      votes_countable assigned manageable _
    rw [file] at made
    obtain ⟨merged, read, rfl⟩ := Option.map_eq_some_iff.mp made
    obtain rfl := reports.mergeFile_countText countable brought.unique read
    refine ⟨_, rfl, reports.updated brought (fun candidate voted => ?_) few⟩
    obtain ⟨directory, parentPath⟩ := call.directory
    have path := writtenPath_at unique call.member call.parentMember call.name call.proper
      call.parentProper call.path parentPath
    exact lists_countText reports countable
      (safe _ _ path file candidate (List.count_pos_iff.mp voted))
  · have none := not_exists.mp reached
    rw [tallying.untouched parent call.parentMember ⟨i, call.above⟩ none] at made
    obtain rfl := Option.some.inj made
    have zero : ∀ candidate, votesSoFar nodes ballots system.workers parent candidate = 0 :=
      fun candidate => Finset.sum_eq_zero fun j _ => if_neg (none j)
    refine ⟨_, rfl, ?_⟩
    simpa only [zero, Nat.zero_add] using brought

/-- Everything one step can do: a thread adds its leaf to the file of the parent. -/
theorem Tallying.step_cases (tallying : Tallying nodes ballots system) (placed : Placed outputDir nodes)
    (unique : (nodes.map DirNode.name).Nodup) (assigned : Assigned nodes ballots)
    (manageable : Manageable nodes ballots) (safe : MergeSafe nodes ballots [] system i)
    (called : step nodes system i = .ok ((), after)) :
    ∃ node parent entries, Call nodes (ballots i) (system.workers i) node parent ∧
      (Reports entries fun candidate =>
        votesSoFar nodes ballots system.workers parent candidate + (ballots i).votes.count candidate) ∧
      after = ⟨Function.update system.files (filePath parent) (some (countText entries)),
        Function.update system.workers i ⟨parent.name, countVotes [] (ballots i).votes⟩⟩ := by
  rw [Threads.step] at called
  split at called
  · cases called
  rename_i notRoot
  split at called
  · cases called
  rename_i files worker aggregated
  cases called
  obtain ⟨node, parent, call⟩ := tallying.call placed assigned manageable notRoot
  obtain ⟨directory, parentPath⟩ := call.directory
  obtain ⟨text, written, read, made, rfl, rfl⟩ := aggregate_at unique call.member call.parentMember
    call.name call.proper call.parentProper call.path parentPath aggregated
  rw [tallying.brought unique assigned manageable call read] at made ⊢
  obtain ⟨entries, rfl, reports⟩ := tallying.written unique assigned manageable call safe made
  exact ⟨node, parent, entries, call, reports, rfl⟩

theorem Call.added_update {node parent region : DirNode} {counters : List Count} {j : Fin n}
    (call : Call nodes (ballots i) (system.workers i) node parent) (placed : Placed outputDir nodes)
    (unique : (nodes.map DirNode.name).Nodup) (manageable : Manageable nodes ballots)
    (member : region ∈ nodes) :
    Added nodes (ballots j) (Function.update system.workers i ⟨parent.name, counters⟩ j) region ↔
      Added nodes (ballots j) (system.workers j) region ∨ (j = i ∧ region = parent) := by
  by_cases same : j = i
  · subst same
    rw [Function.update_self, call.added_iff placed unique member (manageable.names j region member)]
    simp
  · rw [Function.update_of_ne same]
    simp [same]

theorem Tallying.step (tallying : Tallying nodes ballots system) (placed : Placed outputDir nodes)
    (unique : (nodes.map DirNode.name).Nodup) (assigned : Assigned nodes ballots)
    (manageable : Manageable nodes ballots) (safe : MergeSafe nodes ballots [] system i)
    (called : step nodes system i = .ok ((), after)) : Tallying nodes ballots after := by
  obtain ⟨node, parent, entries, call, reports, rfl⟩ :=
    tallying.step_cases placed unique assigned manageable safe called
  have added_iff : ∀ region ∈ nodes, ∀ j, Added nodes (ballots j)
      (Function.update system.workers i ⟨parent.name, countVotes [] (ballots i).votes⟩ j) region ↔
        Added nodes (ballots j) (system.workers j) region ∨ (j = i ∧ region = parent) :=
    fun region member j => call.added_update placed unique manageable member
  have elsewhere : ∀ region ∈ nodes, FileName region.name → region ≠ parent →
      Function.update system.files (filePath parent) (some (countText entries)) (filePath region) =
        system.files (filePath region) := by
    intro region member proper different
    refine Function.update_of_ne (fun same => different ?_) _ _
    exact FileName.unique_path unique member call.parentMember proper call.parentProper same
  constructor
  · intro j
    by_cases same : j = i
    · subst same
      simp only [Function.update_self]
      exact ⟨parent, call.parentMember, rfl, .inr ⟨call.above, rfl⟩⟩
    · simp only [Function.update_of_ne same]
      exact tallying.workers j
  · intro j
    have different : (ballots j).leaf ≠ parent := fun same =>
      assigned.isLeaf j _ (assigned.inside i) (same ▸ call.above)
    exact (elsewhere _ (assigned.inside j) (assigned.entry j) different).trans (tallying.leaves j)
  · intro region member below none
    obtain ⟨k, above⟩ := below
    have different : region ≠ parent := fun same =>
      none i ((added_iff region member i).mpr (.inr ⟨rfl, same⟩))
    apply (elsewhere region member (manageable.names k region member above) different).trans
    apply tallying.untouched region member ⟨k, above⟩
    intro j added
    exact none j ((added_iff region member j).mpr (.inl added))
  · intro region member j added
    by_cases same : region = parent
    · subst same
      refine ⟨entries, Function.update_self _ _ _, ?_⟩
      have afterwards := (added_iff region member i).mpr (.inr ⟨rfl, rfl⟩)
      rw [Function.update_self] at afterwards
      have sum : votesSoFar nodes ballots (Function.update system.workers i
          ⟨region.name, countVotes [] (ballots i).votes⟩) region = fun candidate =>
          votesSoFar nodes ballots system.workers region candidate +
            (ballots i).votes.count candidate :=
        funext fun candidate => votesSoFar_add (call.not_added unique) afterwards
      simp only [sum]
      exact reports
    · have unchanged := fun k => (added_iff region member k).trans (or_iff_left fun both => same both.2)
      obtain ⟨old, file, oldReports⟩ := tallying.counted region member j ((unchanged j).mp added)
      refine ⟨old,
        (elsewhere region member (manageable.names j region member added.1) same).trans file, ?_⟩
      simp only [votesSoFar_congr unchanged]
      exact oldReports

/-- When a thread has reached the root, it has been everywhere above its leaf. -/
theorem Tallying.finished (tallying : Tallying nodes ballots system) (placed : Placed outputDir nodes)
    (finished : ∀ i, AtRoot nodes (system.workers i)) : Tallied nodes ballots system.files := by
  have added_iff : ∀ region ∈ nodes, ∀ i,
      Added nodes (ballots i) (system.workers i) region ↔ Above region (ballots i).leaf := by
    intro region member i
    refine ⟨fun added => added.1, fun above => ?_⟩
    obtain ⟨root, first, name⟩ := finished i
    exact ⟨above, root, List.mem_of_head? first, name.symm, placed.root_shortest first member⟩
  intro region member below
  obtain ⟨i, above⟩ := below
  obtain ⟨entries, file, reports⟩ :=
    tallying.counted region member i ((added_iff region member i).mpr above)
  have sum : votesSoFar nodes ballots system.workers region = votesBelow ballots region := by
    funext candidate
    exact Finset.sum_congr rfl fun j _ => if_congr (added_iff region member j) rfl rfl
  exact ⟨entries, file, sum ▸ reports⟩

end Invariant

/-- When all threads have finished, every count file above a leaf is right. -/
theorem files_tallied (outputDir file : CStr) {n : Nat} {nodes : List DirNode}
    {ballots : Fin n → Ballots} {history : List (Event (System n) (Fin n) Unit)} {system : System n}
    (created : createDAG outputDir file = some nodes) (unique : (nodes.map DirNode.name).Nodup)
    (assigned : Assigned nodes ballots) (manageable : Manageable nodes ballots)
    (run : Run (step nodes) (start ballots) history system)
    (safe : Along (MergeSafe nodes ballots) history)
    (finished : ∀ i, AtRoot nodes (system.workers i)) : Tallied nodes ballots system.files := by
  have placed := createDAG_placed created
  have tallying : Tallying nodes ballots system := by
    refine Run.invariant (fun _ system => Tallying nodes ballots system)
      (Tallying.start unique assigned manageable) ?_ run safe
    intro past system i _ after _ tallying safe called
    exact tallying.step placed unique assigned manageable safe called
  exact tallying.finished placed finished

def twoLeaves : List DirNode :=
  [⟨['R'], "out/R".toList⟩, ⟨['A'], "out/R/A".toList⟩, ⟨['B'], "out/R/B".toList⟩]

def twoBallots (first second : List Char) : Fin 2 → Ballots :=
  ![⟨⟨['A'], "out/R/A".toList⟩, first⟩, ⟨⟨['B'], "out/R/B".toList⟩, second⟩]

theorem twoBallots_assigned {first second : List Char} (firstFree : '\n' ∉ first)
    (secondFree : '\n' ∉ second) : Assigned twoLeaves (twoBallots first second) where
  inside i := by
    fin_cases i
    · exact List.mem_cons_of_mem _ List.mem_cons_self
    · exact List.mem_cons_of_mem _ (List.mem_cons_of_mem _ List.mem_cons_self)
  isLeaf i := by
    fin_cases i
    · show ∀ node ∈ twoLeaves, ¬ Above ⟨['A'], "out/R/A".toList⟩ node
      decide
    · show ∀ node ∈ twoLeaves, ¬ Above ⟨['B'], "out/R/B".toList⟩ node
      decide
  entry i := by
    have letter : FileName ['A'] ∧ FileName ['B'] := ⟨⟨by decide, by decide⟩, ⟨by decide, by decide⟩⟩
    fin_cases i
    · exact letter.1
    · exact letter.2
  distinct := by
    intro i j same
    fin_cases i <;> fin_cases j <;> simp_all [twoBallots]
  noNewline i := by
    fin_cases i
    · exact firstFree
    · exact secondFree

theorem twoBallots_manageable {first second : List Char} (few : first.length + second.length < 2 ^ 31) :
    Manageable twoLeaves (twoBallots first second) where
  names i node member _ := by
    simp only [twoLeaves, List.mem_cons, List.not_mem_nil, or_false] at member
    rcases member with rfl | rfl | rfl <;> exact ⟨by decide, by decide⟩
  few candidate := by
    rw [Fin.sum_univ_two]
    exact lt_of_le_of_lt (Nat.add_le_add List.count_le_length List.count_le_length) few

theorem files_tallied_sample : createDAG "out".toList "R:A:B".toList = some twoLeaves ∧
    ∃ history system, Run (step twoLeaves) (start (twoBallots ['X', 'Y'] ['X'])) history system ∧
      Tallied twoLeaves (twoBallots ['X', 'Y'] ['X']) system.files := by
  have done : execute (step twoLeaves) (start (twoBallots ['X', 'Y'] ['X'])) [0, 1] = .ok (_, _) := rfl
  refine ⟨by decide, _, _, Run.of_execute _ done, files_tallied "out".toList "R:A:B".toList (by decide)
    (by decide) (twoBallots_assigned (by decide) (by decide)) (twoBallots_manageable (by decide))
    (Run.of_execute _ done) ?_ ?_⟩
  · refine Run.along_cons.mpr ⟨fun path text written file => ?_, Run.along_cons.mpr
      ⟨fun path text written file candidate member => ?_, Run.along_nil⟩⟩
    · cases written
      cases file
    · cases written
      cases file
      obtain rfl := List.mem_singleton.mp member
      exact ⟨"X:1\n".toList, by decide, by decide⟩
  · intro i
    fin_cases i
    · exact ⟨_, rfl, rfl⟩
    · exact ⟨_, rfl, rfl⟩

/-- A candidate the first file does not name is dropped from the second. -/
theorem files_not_tallied : ∃ (outputDir file : CStr) (nodes : List DirNode) (ballots : Fin 2 → Ballots)
    (history : List (Event (System 2) (Fin 2) Unit)) (system : System 2),
    createDAG outputDir file = some nodes ∧ (nodes.map DirNode.name).Nodup ∧ Assigned nodes ballots ∧
    Run (step nodes) (start ballots) history system ∧ (∀ i, AtRoot nodes (system.workers i)) ∧
    ¬ Tallied nodes ballots system.files := by
  have done : execute (step twoLeaves) (start (twoBallots ['X'] ['X', 'Y'])) [0, 1] = .ok (_, _) := rfl
  refine ⟨"out".toList, "R:A:B".toList, twoLeaves, twoBallots ['X'] ['X', 'Y'], _, _,
    by decide, by decide,
    twoBallots_assigned (by decide) (by decide), Run.of_execute _ done, fun i => ?_, fun tallied => ?_⟩
  · fin_cases i
    · exact ⟨_, rfl, rfl⟩
    · exact ⟨_, rfl, rfl⟩
  · obtain ⟨entries, file, reports⟩ := tallied ⟨['R'], "out/R".toList⟩ (by decide) ⟨0, by decide⟩
    obtain ⟨entry, member, name⟩ := List.mem_map.mp ((reports.listed ['Y']).mpr ⟨'Y', rfl, by decide⟩)
    have written : some "X:2\n".toList = some (countText entries) := file
    have absent : 'Y' ∉ countText entries := by
      rw [← Option.some.inj written]
      decide
    exact absent (List.mem_flatMap.mpr ⟨entry, member, by simp [countLine, name]⟩)

end VoteCounting.Threads
