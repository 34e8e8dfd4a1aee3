import VoteCounting.Threads.Log
import VoteCounting.Threads.Tally
import VoteCounting.Data.Scan

namespace VoteCounting.Threads

open Counters CString Scan

/-! The whole threaded program: its count files and the winner it writes.

A run of all threads is followed by one of the calls of `aggregate` alone, in which the vote files are
decrypted before the first call.
-/

section Following

variable {n : Nat} {outputDir : CStr} {setup : Setup n} {ballots : Fin n → Ballots}
  {state after : Program n} {system : System n} {j : Fin n} {k : Nat} {next : Turn}

/-- The worker with the file has not decrypted it. -/
def Unread (state : Program n) (j : Fin n) : Prop :=
  ∀ (k : Nat) (stage : Stage n), state.stages[k]? = some stage → stage.file = some j →
    stage = .start j ∨ stage = .read j

/-- What the stage of a worker says about its next call. -/
def Stage.Calls (nodes : List DirNode) (ballots : Fin n → Ballots) (system : System n) :
    Stage n → Prop
  | .grab => True
  | .start j | .read j => system.workers j = ⟨(ballots j).leaf.name, []⟩
  | .aggregate j worker => system.workers j = worker
  | .finish j | .done j => AtRoot nodes (system.workers j)

structure Follows (nodes : List DirNode) (ballots : Fin n → Ballots) (state : Program n)
    (system : System n) : Prop where
  logging : Logging state
  tallying : Tallying nodes ballots system
  stages : ∀ (k : Nat) (stage : Stage n), state.stages[k]? = some stage →
    stage.Calls nodes ballots system
  waiting : ∀ j : Fin n, state.currentGrab ≤ j → system.workers j = ⟨(ballots j).leaf.name, []⟩
  files : ∀ path, (∀ j, Unread state j → path ≠ filePath (ballots j).leaf) →
    state.files path = system.files path

/-- The queue names the leaves, and their files decrypt to the ballots. -/
structure Provided (setup : Setup n) (ballots : Fin n → Ballots) : Prop where
  names : ∀ j, setup.fileName j = (ballots j).leaf.name
  texts : ∀ j, (setup.inputs (setup.fileName j)).map readInput = some (ballotText (ballots j).votes)

/-- The step is no call that would drop a candidate. -/
def StepSafe (setup : Setup n) (ballots : Fin n → Ballots) (state : Program n) (next : Turn) : Prop :=
  ∀ (k : Nat) (j : Fin n) (worker : Worker), next = .worker k →
    state.stages[k]? = some (.aggregate j worker) → ¬ setup.Returns worker → ∀ path text,
      writtenPath setup.nodes worker.filename = some path → state.files path = some text →
        ∀ candidate ∈ (ballots j).votes, Lists text candidate

/-- What is asked of a worker that makes its next call. -/
def Stage.Safe (setup : Setup n) (ballots : Fin n → Ballots) (files : Files) : Stage n → Prop
  | .aggregate j worker => setup.Returns worker ∨
      ∀ path ∈ writtenPath setup.nodes worker.filename, ∀ text ∈ files path,
        ∀ candidate ∈ (ballots j).votes, Lists text candidate
  | _ => True

instance (ballots : Ballots) (text : List Char) :
    Decidable (∀ candidate ∈ ballots.votes, Lists text candidate) := List.decidableBAll _ _

instance (setup : Setup n) (ballots : Fin n → Ballots) (files : Files) :
    DecidablePred (Stage.Safe setup ballots files)
  | .aggregate j worker => inferInstanceAs (Decidable (setup.Returns worker ∨
      ∀ path ∈ writtenPath setup.nodes worker.filename, ∀ text ∈ files path,
        ∀ candidate ∈ (ballots j).votes, Lists text candidate))
  | .grab | .start _ | .read _ | .finish _ | .done _ => inferInstanceAs (Decidable True)

theorem stepSafe_iff {setup : Setup n} {ballots : Fin n → Ballots} {state : Program n} {next : Turn} :
    StepSafe setup ballots state next ↔ ∀ k, next = .worker k → ∀ stage ∈ state.stages[k]?,
      stage.Safe setup ballots state.files := by
  constructor
  · intro safe k same stage place
    cases stage with
    | aggregate j worker =>
        by_cases returns : setup.Returns worker
        · exact .inl returns
        · exact .inr fun path written text file => safe k j worker same place returns path text written file
    | _ => trivial
  · intro each k j worker same place returns path text written file
    rcases each k same _ place with atRoot | lists
    · exact absurd atRoot returns
    · exact lists path written text file

instance (setup : Setup n) (ballots : Fin n → Ballots) (state : Program n) :
    DecidablePred (StepSafe setup ballots state)
  | .worker k => decidable_of_iff (∀ stage ∈ state.stages[k]?, stage.Safe setup ballots state.files)
      (by simp [stepSafe_iff])
  | .main | .spuriousWakeup => .isTrue (by simp [stepSafe_iff])

theorem aggregate_eq {nodes : List DirNode} {files : Files} {worker : Worker}
    {readPath parent writePath : CStr} (read : getPath nodes worker.filename = some readPath)
    (above : getparentname readPath = some parent) (write : getPath nodes parent = some writePath) :
    aggregate nodes files worker = (files readPath).bind fun text =>
      (output (countFile worker.counters text) (files writePath)).map fun written =>
        (Function.update files writePath (some written), ⟨parent, countFile worker.counters text⟩) := by
  simp only [aggregate, read, above, write, Option.bind_eq_bind, Option.bind_some,
    Option.map_eq_bind]
  rfl

theorem Follows.start (unique : (setup.nodes.map DirNode.name).Nodup)
    (assigned : Assigned setup.nodes ballots) (manageable : Manageable setup.nodes ballots) :
    Follows setup.nodes ballots (programStart n) (start ballots) where
  logging := .start (dispatchStart n) rfl _
  tallying := .start unique assigned manageable
  stages := by simp [programStart]
  waiting _ _ := rfl
  files path other := by
    rw [start_files_none fun j same => other j (by simp [Unread, programStart]) same.symm]
    rfl

variable {nodes : List DirNode} {stage nextStage : Stage n} {later : System n}

theorem Unread.set (unread : Unread state j) {i : Fin n} (place : state.stages[k]? = some stage)
    (stages : after.stages = state.stages.set k nextStage) (same : nextStage.file = some i)
    (kept : j = i → nextStage = .start j ∨ nextStage = .read j) : Unread after j := by
  intro l other found has
  rw [stages, getElem?_set_place place] at found
  split at found
  · cases found
    exact kept (Option.some.inj (has.symm.trans same))
  · exact unread l other found has

/-- A file that is past its decryption is not unread. -/
theorem Unread.notPast (unread : Unread state j) (place : state.stages[k]? = some stage)
    (file : stage.file = some j) (past : stage ≠ .start j ∧ stage ≠ .read j) : False :=
  (unread k stage place file).elim past.1 past.2

theorem Stage.Calls.congr (calls : stage.Calls nodes ballots system) (other : stage.file ≠ some j)
    (agree : ∀ i, i ≠ j → later.workers i = system.workers i) : stage.Calls nodes ballots later := by
  cases stage with
  | grab => trivial
  | start i | read i | aggregate i worker =>
      exact (agree i fun same => other (congrArg some same)).trans calls
  | finish i | done i =>
      have same := agree i fun same => other (congrArg some same)
      simp only [Stage.Calls] at calls ⊢
      rwa [same]

/-- A worker goes on with its file, and with it perhaps the call it stands for. -/
theorem Follows.goOn (follows : Follows nodes ballots state system)
    (place : state.stages[k]? = some stage) (file : stage.file = some j) (logging : Logging after)
    (stages : after.stages = state.stages.set k nextStage) (grabbed : after.currentGrab = state.currentGrab)
    (agree : ∀ i, i ≠ j → later.workers i = system.workers i)
    (calls : nextStage.Calls nodes ballots later) (tallying : Tallying nodes ballots later)
    (files : ∀ path, (∀ i, Unread after i → path ≠ filePath (ballots i).leaf) →
      after.files path = later.files path) : Follows nodes ballots after later where
  logging := logging
  tallying := tallying
  stages := by
    intro l other found
    rw [stages, getElem?_set_place place] at found
    split at found
    · cases found
      exact calls
    · rename_i elsewhere
      exact (follows.stages l other found).congr
        (fun has => elsewhere (follows.logging.alone place found file has)) agree
  waiting := by
    intro i outside
    rw [grabbed] at outside
    have different : i ≠ j := by
      rintro rfl
      exact absurd (follows.logging.taken place file) (not_lt.mpr outside)
    rw [agree i different]
    exact follows.waiting i outside
  files := files

/-- The path of a leaf is that of no other region. -/
theorem filePath_ne_leaf (unique : (nodes.map DirNode.name).Nodup) (assigned : Assigned nodes ballots)
    {node : DirNode} {i : Fin n} (member : node ∈ nodes) (proper : FileName node.name)
    (other : node ≠ (ballots i).leaf) : filePath node ≠ filePath (ballots i).leaf := fun same =>
  other (FileName.unique_path unique member (assigned.inside i) proper (assigned.entry i) same)

/-- The worker decrypts its file. -/
theorem Follows.read (follows : Follows setup.nodes ballots state system)
    (provided : Provided setup ballots) (unique : (setup.nodes.map DirNode.name).Nodup)
    (assigned : Assigned setup.nodes ballots) (place : state.stages[k]? = some (.read j)) :
    Follows setup.nodes ballots { state with
      files := setup.decryptFile state.files (setup.fileName j)
      stages := state.stages.set k (.aggregate j ⟨setup.fileName j, []⟩) } system := by
  have calls := follows.stages k _ place
  have path : getPath setup.nodes (setup.fileName j) = some (filePath (ballots j).leaf) := by
    rw [provided.names]
    exact getPath_of_mem unique (assigned.inside j)
  refine follows.goOn place rfl (follows.logging.moves (.read place)) rfl rfl (fun _ _ => rfl) ?_
    follows.tallying fun other free => ?_
  · rw [provided.names]
    exact calls
  · simp only [Setup.decryptFile, path, provided.texts, Option.getD_some]
    by_cases own : other = filePath (ballots j).leaf
    · rw [own, Function.update_self, follows.tallying.leaves]
    · rw [Function.update_of_ne own]
      refine follows.files other fun i unread => ?_
      by_cases same : i = j
      · exact same ▸ own
      · exact free i (unread.set place rfl rfl fun equal => absurd equal same)

/-- The file of a parent is no vote file. -/
theorem Follows.sameParent {worker : Worker} {node parent : DirNode}
    (follows : Follows nodes ballots state system) (unique : (nodes.map DirNode.name).Nodup)
    (assigned : Assigned nodes ballots) (call : Call nodes (ballots j) worker node parent) :
    (∀ i, filePath parent ≠ filePath (ballots i).leaf) ∧
      state.files (filePath parent) = system.files (filePath parent) := by
  have free : ∀ i, filePath parent ≠ filePath (ballots i).leaf := fun i =>
    filePath_ne_leaf unique assigned call.parentMember call.parentProper fun same =>
      assigned.isLeaf i _ (assigned.inside j) (same ▸ call.above)
  exact ⟨free, follows.files _ fun i _ => free i⟩

/-- The worker calls `aggregate`, and so does the thread with its file. -/
theorem Follows.called {worker worker' : Worker} {files : Files}
    (follows : Follows setup.nodes ballots state system) (placed : Placed outputDir setup.nodes)
    (unique : (setup.nodes.map DirNode.name).Nodup) (assigned : Assigned setup.nodes ballots)
    (manageable : Manageable setup.nodes ballots)
    (place : state.stages[k]? = some (.aggregate j worker)) (goesOn : ¬ setup.Returns worker)
    (result : aggregate setup.nodes state.files worker = some (files, worker'))
    (safe : StepSafe setup ballots state (.worker k)) :
    ∃ later, MergeSafe setup.nodes ballots [] system j ∧ step setup.nodes system j = .ok ((), later) ∧
      Follows setup.nodes ballots
        { state with files, stages := state.stages.set k (.aggregate j worker') } later := by
  have calls : system.workers j = worker := follows.stages k _ place
  subst calls
  have notRoot : ¬ AtRoot setup.nodes (system.workers j) := fun root => goesOn (.inl root)
  obtain ⟨node, parent, call⟩ := follows.tallying.call placed assigned manageable notRoot
  obtain ⟨directory, parentPath⟩ := call.directory
  have readPath := getPath_of_mem unique call.member
  rw [call.name] at readPath
  have above := getparentname_filePath call.proper call.parentProper call.path parentPath
  have writePath := getPath_of_mem unique call.parentMember
  -- Neither file is one that is still to be decrypted.
  have unreadOther : ∀ i, Unread state i → i ≠ j := by
    rintro i unread rfl
    exact unread.notPast place rfl ⟨by simp, by simp⟩
  have readFree : ∀ i, Unread state i → filePath node ≠ filePath (ballots i).leaf := by
    intro i unread
    refine filePath_ne_leaf unique assigned call.member call.proper ?_
    rcases call.sofar with ⟨leaf, _⟩ | ⟨region, _⟩
    · rw [leaf]
      exact fun same => unreadOther i unread (assigned.distinct (congrArg DirNode.name same)).symm
    · exact fun same => assigned.isLeaf i _ (assigned.inside j) (same ▸ region)
  have sameRead := follows.files _ readFree
  obtain ⟨_, sameWrite⟩ := follows.sameParent unique assigned call
  have written := writtenPath_at unique call.member call.parentMember call.name call.proper
    call.parentProper call.path parentPath
  have mergeSafe : MergeSafe setup.nodes ballots [] system j := by
    intro path text found held
    obtain rfl := Option.some.inj (written.symm.trans found)
    exact safe k j _ rfl place goesOn _ text written (sameWrite.trans held)
  rw [aggregate_eq readPath above writePath, sameRead, sameWrite] at result
  obtain ⟨text, readText, result⟩ := Option.bind_eq_some_iff.mp result
  obtain ⟨content, made, result⟩ := Option.map_eq_some_iff.mp result
  cases result
  have upper : aggregate setup.nodes system.files (system.workers j) =
      some (Function.update system.files (filePath parent) (some content),
        ⟨parent.name, countFile (system.workers j).counters text⟩) := by
    rw [aggregate_eq readPath above writePath, readText, Option.bind_some, made, Option.map_some]
  have stepped : step setup.nodes system j = .ok ((),
      ⟨Function.update system.files (filePath parent) (some content),
        Function.update system.workers j ⟨parent.name, countFile (system.workers j).counters text⟩⟩) := by
    rw [Threads.step, if_neg notRoot, upper]
  refine ⟨_, mergeSafe, stepped, follows.goOn place rfl ?_ rfl rfl
    (fun i different => Function.update_of_ne different _ _) (Function.update_self _ _ _)
    (follows.tallying.step placed unique assigned manageable mergeSafe stepped) fun path free => ?_⟩
  · exact follows.logging.quiet (.aggregate j _) _ place rfl rfl rfl rfl rfl
  · by_cases own : path = filePath parent
    · simp only [own, Function.update_self]
    · simp only [Function.update_of_ne own]
      refine follows.files path fun i unread => free i ?_
      exact unread.set place rfl rfl fun same => absurd same (unreadOther i unread)

/-- A worker goes on without touching the files. -/
theorem Follows.quiet (follows : Follows nodes ballots state system)
    (place : state.stages[k]? = some stage) (file : stage.file = some j) (same : nextStage.file = some j)
    (logging : Logging after) (stages : after.stages = state.stages.set k nextStage)
    (grabbed : after.currentGrab = state.currentGrab) (files : after.files = state.files)
    (calls : nextStage.Calls nodes ballots system)
    (kept : Unread state j → nextStage = .start j ∨ nextStage = .read j) :
    Follows nodes ballots after system :=
  follows.goOn place file logging stages grabbed (fun _ _ => rfl) calls follows.tallying
    fun path free => files ▸ follows.files path fun i unread =>
      free i (unread.set place stages same fun equal => equal ▸ kept (equal ▸ unread))

theorem Follows.grab (follows : Follows nodes ballots state system)
    (place : state.stages[k]? = some .grab) (inside : state.currentGrab < n) :
    Follows nodes ballots { state with
      currentGrab := state.currentGrab + 1
      stages := state.stages.set k (.start ⟨state.currentGrab, inside⟩) } system where
  logging := follows.logging.grab place inside
  tallying := follows.tallying
  stages := by
    intro l other found
    rw [getElem?_set_place place] at found
    split at found
    · cases found
      exact follows.waiting ⟨state.currentGrab, inside⟩ (le_refl _)
    · exact follows.stages l other found
  waiting i outside := follows.waiting i (Nat.le_of_succ_le outside)
  files path free := follows.files path fun i unread => free i
    (unread.set place rfl rfl fun same => .inl (by rw [same]))

/-- Steps of the dispatcher leave the stages as they are, or add one that has no file. -/
theorem Follows.congr (follows : Follows nodes ballots state system) (logging : Logging after)
    (stages : after.stages = state.stages ∨ after.stages = state.stages ++ [.grab])
    (grabbed : after.currentGrab = state.currentGrab) (files : after.files = state.files) :
    Follows nodes ballots after system := by
  have kept : ∀ (l : Nat) (stage : Stage n), after.stages[l]? = some stage →
      state.stages[l]? = some stage ∨ stage = .grab := by
    intro l stage found
    rcases stages with same | more
    · exact .inl (same ▸ found)
    · rw [more, List.getElem?_append] at found
      split at found
      · exact .inl found
      · exact .inr (List.mem_singleton.mp (List.mem_of_getElem? found))
  refine ⟨logging, follows.tallying, fun l stage found => ?_, fun i outside => ?_, fun path free => ?_⟩
  · rcases kept l stage found with held | rfl
    · exact follows.stages l stage held
    · trivial
  · exact follows.waiting i (grabbed ▸ outside)
  · rw [files]
    refine follows.files path fun i unread => free i fun l stage found has => ?_
    rcases kept l stage found with held | rfl
    · exact unread l stage held has
    · cases has

theorem created_cases (state : Program n) :
    Setup.created state = state.stages ∨ Setup.created state = state.stages ++ [.grab] := by
  rw [Setup.created]
  split
  · exact .inr rfl
  · exact .inl rfl

/-- A worker that returns at once has come to the root. -/
theorem Follows.atRoot {worker : Worker} (follows : Follows setup.nodes ballots state system)
    (unique : (setup.nodes.map DirNode.name).Nodup) (calls : system.workers j = worker)
    (returns : setup.Returns worker) : AtRoot setup.nodes (system.workers j) := by
  subst calls
  refine returns.resolve_right fun missing => ?_
  obtain ⟨node, member, name, _⟩ := follows.tallying.workers j
  rw [← name, getPath_of_mem unique member] at missing
  cases missing

theorem Follows.step (follows : Follows setup.nodes ballots state system)
    (provided : Provided setup ballots) (placed : Placed outputDir setup.nodes)
    (unique : (setup.nodes.map DirNode.name).Nodup) (assigned : Assigned setup.nodes ballots)
    (manageable : Manageable setup.nodes ballots) (safe : StepSafe setup ballots state next)
    (moved : setup.move state next = some after) :
    Follows setup.nodes ballots after system ∨ ∃ i later, MergeSafe setup.nodes ballots [] system i ∧
      step setup.nodes system i = .ok ((), later) ∧ Follows setup.nodes ballots after later := by
  have logging : Logging after := by
    have stepped : setup.step state next = .ok ((), after) := by rw [Setup.step, moved]
    exact follows.logging.step (step_steps stepped)
  cases next with
  | main =>
      obtain ⟨dispatch, _, rfl⟩ := Option.map_eq_some_iff.mp moved
      exact .inl (follows.congr logging (created_cases state) rfl rfl)
  | spuriousWakeup =>
      obtain ⟨dispatch, _, rfl⟩ := Option.map_eq_some_iff.mp moved
      exact .inl (follows.congr logging (.inl rfl) rfl rfl)
  | worker k =>
      cases workerMove_moves moved with
      | grab place inside => exact .inl (follows.grab place inside)
      | start place =>
          exact .inl (follows.quiet place rfl rfl logging rfl rfl rfl
            (follows.stages k (.start _) place) fun _ => .inr rfl)
      | read place => exact .inl (follows.read provided unique assigned place)
      | returned place returns =>
          exact .inl (follows.quiet place rfl rfl logging rfl rfl rfl
            (follows.atRoot unique (follows.stages k _ place) returns)
            fun unread => (unread.notPast place rfl ⟨by simp, by simp⟩).elim)
      | @called j worker later files place goesOn result =>
          obtain ⟨system', mergeSafe, stepped, after⟩ := follows.called placed unique assigned manageable
            place goesOn result safe
          exact .inr ⟨j, system', mergeSafe, stepped, after⟩
      | finish place =>
          exact .inl (follows.quiet place rfl rfl logging rfl rfl rfl
            (follows.stages k (.finish _) place)
            fun unread => (unread.notPast place rfl ⟨by simp, by simp⟩).elim)
      | done place taken => exact .inl (follows.congr logging (.inl rfl) rfl rfl)

/-- The threads of a run make the calls of a run of calls, and leave the same files. -/
theorem follows_of_run {history : List (Event (Program n) Turn Unit)} (provided : Provided setup ballots)
    (placed : Placed outputDir setup.nodes) (unique : (setup.nodes.map DirNode.name).Nodup)
    (assigned : Assigned setup.nodes ballots) (manageable : Manageable setup.nodes ballots)
    (run : Run setup.step (programStart n) history state)
    (safe : Along (fun _ => StepSafe setup ballots) history) :
    ∃ calls system, Run (step setup.nodes) (Threads.start ballots) calls system ∧
      Along (fun _ => MergeSafe setup.nodes ballots []) calls ∧
      Follows setup.nodes ballots state system := by
  have simulates : Simulates setup.step (step setup.nodes) (StepSafe setup ballots)
      (MergeSafe setup.nodes ballots []) (Follows setup.nodes ballots) := by
    refine ⟨fun {state next _ after system} follows safe stepped => ?_⟩
    have moved : setup.move state next = some after := by
      rw [Setup.step] at stepped
      split at stepped
      · rename_i moved
        cases stepped
        exact moved
      · cases stepped
    rcases follows.step provided placed unique assigned manageable safe moved with
      same | ⟨i, later, mergeSafe, called, after⟩
    · exact .inl same
    · exact .inr ⟨i, (), later, mergeSafe, called, after⟩
  exact simulates.run (.start unique assigned manageable) run safe

theorem lists_of_reports {entries : List Count} {votes : Char → Nat} {candidate : Char}
    (reports : Reports entries votes) (countable : Countable votes) (voted : 0 < votes candidate) :
    Lists (countText entries) candidate := by
  obtain ⟨entry, member, name⟩ := List.mem_map.mp ((reports.listed [candidate]).mpr ⟨_, rfl, voted⟩)
  refine ⟨countLine entry, ?_, ?_⟩
  · rw [getlines_countText (reports.noNewline countable)]
    exact List.mem_map_of_mem member
  · rw [countLine, name]
    exact ⟨decimal entry.count ++ ['\n'], by simp⟩

/-- No candidate is dropped where all files have votes for the same candidates. -/
theorem Follows.stepSafe (follows : Follows setup.nodes ballots state system)
    (placed : Placed outputDir setup.nodes) (unique : (setup.nodes.map DirNode.name).Nodup)
    (assigned : Assigned setup.nodes ballots) (manageable : Manageable setup.nodes ballots)
    (same : ∀ i j, ∀ candidate ∈ (ballots i).votes, candidate ∈ (ballots j).votes) :
    StepSafe setup ballots state next := by
  intro k j worker _ place goesOn path text found held candidate voted
  have calls : system.workers j = worker := follows.stages k _ place
  subst calls
  obtain ⟨node, parent, call⟩ :=
    follows.tallying.call placed assigned manageable fun root => goesOn (.inl root)
  obtain ⟨directory, parentPath⟩ := call.directory
  have written := writtenPath_at unique call.member call.parentMember call.name call.proper
    call.parentProper call.path parentPath
  obtain rfl := Option.some.inj (written.symm.trans found)
  rw [(follows.sameParent unique assigned call).2] at held
  by_cases reached : ∃ i, Added setup.nodes (ballots i) (system.workers i) parent
  · obtain ⟨i, added⟩ := reached
    obtain ⟨entries, file, reports⟩ := follows.tallying.counted parent call.parentMember i added
    obtain rfl := Option.some.inj (held.symm.trans file)
    refine lists_of_reports reports (votes_countable assigned manageable _) ?_
    have own : 0 < (ballots i).votes.count candidate := List.count_pos_iff.mpr (same j i candidate voted)
    have share : (if Added setup.nodes (ballots i) (system.workers i) parent
        then (ballots i).votes.count candidate else 0) ≤
          votesSoFar setup.nodes ballots system.workers parent candidate :=
      Finset.single_le_sum (f := fun i => if Added setup.nodes (ballots i) (system.workers i) parent
        then (ballots i).votes.count candidate else 0) (fun _ _ => Nat.zero_le _) (Finset.mem_univ i)
    rw [if_pos added] at share
    exact lt_of_lt_of_le own share
  · rw [follows.tallying.untouched parent call.parentMember ⟨j, call.above⟩ (not_exists.mp reached)] at held
    cases held

theorem safe_of_same {history : List (Event (Program n) Turn Unit)} (provided : Provided setup ballots)
    (placed : Placed outputDir setup.nodes) (unique : (setup.nodes.map DirNode.name).Nodup)
    (assigned : Assigned setup.nodes ballots) (manageable : Manageable setup.nodes ballots)
    (same : ∀ i j, ∀ candidate ∈ (ballots i).votes, candidate ∈ (ballots j).votes)
    (run : Run setup.step (programStart n) history state) :
    Along (fun _ => StepSafe setup ballots) history := by
  induction run with
  | nil => exact Run.along_nil
  | snoc run answered ih =>
      obtain ⟨_, system, _, _, follows⟩ :=
        follows_of_run provided placed unique assigned manageable run ih
      exact Run.along_snoc.mpr ⟨ih, follows.stepSafe placed unique assigned manageable same⟩

/-- When all workers have ended, all threads of the calls have come to the root. -/
theorem Follows.finished (follows : Follows nodes ballots state system)
    (launched : Launched n state.dispatch) (joined : state.dispatch.main = .join)
    (signalled : ∀ worker ∈ state.dispatch.workers, worker = .signalled) :
    (∀ i, AtRoot nodes (system.workers i)) ∧ state.files = system.files := by
  obtain ⟨allDone, held⟩ := follows.logging.finished launched joined signalled
  constructor
  · intro i
    obtain ⟨k, stage, found, file⟩ := held i
    have calls := follows.stages k stage found
    have done := allDone stage (List.mem_of_getElem? found)
    cases stage with
    | done j =>
        obtain rfl := Option.some.inj file
        exact calls
    | _ => cases done
  · funext path
    refine follows.files path fun i unread => ?_
    obtain ⟨k, stage, found, file⟩ := held i
    have done := allDone stage (List.mem_of_getElem? found)
    rcases unread k stage found file with rfl | rfl <;> cases done

end Following

/-- One line of the root's file; `none` where the count is missing and a null pointer is read. -/
def readWinner (best : Count) (line : CStr) : Option Count := do
  let argvp := makeargv (trimlastenter line) ':'
  let name ← argvp[0]?
  let count ← argvp[1]?
  return overtake Entry.count best ⟨name, atoi count⟩

def winnerLine (name : CStr) : List Char := "WINNER:".toList ++ name ++ ['\n']

/-- The line is written behind what was read. -/
def findwinner (nodes : List DirNode) (files : Files) : Option Files := do
  let root ← nodes.head?
  let text ← files (filePath root)
  let best ← (getlines text).foldlM readWinner ⟨[], 0⟩
  return Function.update files (filePath root) (some (text ++ winnerLine best.name))

section Winning

variable {n : Nat} {outputDir : CStr} {nodes : List DirNode} {ballots : Fin n → Ballots}
  {entries : List Count} {entry best : Count} {votes : Char → Nat} {root : DirNode}

theorem readWinner_countLine {candidate : Char} (name : entry.name = [candidate])
    (noColon : candidate ≠ ':') (lower : -2 ^ 31 ≤ entry.count) (upper : entry.count < 2 ^ 31) :
    readWinner best (countLine entry) = some (overtake Entry.count best entry) := by
  have digits : ':' ∉ decimal entry.count := fun member =>
    mem_decimal_ne member (by decide) (by decide) rfl
  have words : makeargv (trimlastenter (countLine entry)) ':' = [entry.name, decimal entry.count] := by
    rw [countLine, trimlastenter_line, name, makeargv,
      tokens_word_delim (by simp [Ne.symm noColon]) (by simp), tokens_word digits (decimal_ne_nil _)]
  simp only [readWinner, words, List.getElem?_cons_zero, List.getElem?_cons_succ,
    Option.bind_eq_bind, Option.bind_some, atoi_decimal lower upper]
  rfl

theorem scan_countText (reports : Reports entries votes) (countable : Countable votes)
    (noColon : votes ':' = 0) :
    (getlines (countText entries)).foldlM readWinner best =
      some (leader Entry.count best entries) := by
  rw [getlines_countText (reports.noNewline countable)]
  have lines : ∀ entry ∈ entries, ∀ best : Count, readWinner best (countLine entry) =
      some (overtake Entry.count best entry) := by
    intro entry member best
    obtain ⟨candidate, name, positive⟩ := reports.name_eq member
    have count := reports.count_eq member name
    have few := countable.few candidate
    refine readWinner_countLine name ?_ (by omega) (by omega)
    rintro rfl
    omega
  clear reports
  induction entries generalizing best with
  | nil => rfl
  | cons entry rest ih =>
      rw [List.map_cons, List.foldlM_cons, lines entry List.mem_cons_self]
      exact ih fun other member => lines other (List.mem_cons_of_mem _ member)

/-- The first of the candidates with the most votes is the winner, and nobody without votes. -/
def Wins (votes : Char → Nat) (winner : CStr) : Prop :=
  (winner = [] ∧ ∀ candidate, votes candidate = 0) ∨
    ∃ candidate, winner = [candidate] ∧ 0 < votes candidate ∧
      ∀ other, votes other ≤ votes candidate

theorem Reports.wins (reports : Reports entries votes) :
    Wins votes (leader Entry.count ⟨[], 0⟩ entries).name := by
  by_cases none : ∀ candidate, votes candidate = 0
  · have empty : entries = [] := eq_nil_of_no_names fun name listed => by
      obtain ⟨candidate, _, positive⟩ := (reports.listed name).mp listed
      exact absurd (none candidate) positive.ne'
    rw [empty]
    exact .inl ⟨rfl, none⟩
  · push Not at none
    obtain ⟨candidate, some⟩ := none
    have positive : 0 < total entries [candidate] := by
      rw [reports.exact]
      exact_mod_cast Nat.pos_of_ne_zero some
    obtain ⟨above, largest⟩ := total_leader (⟨[], 0⟩ : Count) reports.unique rfl ⟨_, positive⟩
    have listed : (leader Entry.count ⟨[], 0⟩ entries).name ∈ names entries := by
      by_contra absent
      rw [total_of_absent absent] at above
      exact absurd above (lt_irrefl 0)
    obtain ⟨winner, name, won⟩ := (reports.listed _).mp listed
    refine .inr ⟨winner, name, won, fun other => ?_⟩
    have bound := largest [other]
    rw [name, reports.exact, reports.exact] at bound
    exact_mod_cast bound

/-- Every region but the root lies below the root. -/
theorem Placed.below_root (placed : Placed outputDir nodes) (first : nodes.head? = some root)
    {node : DirNode} (member : node ∈ nodes) : node = root ∨ Above root node := by
  obtain ⟨rest, rfl⟩ : ∃ rest, nodes = root :: rest := List.head?_eq_some_iff.mp first
  induction length : node.path.length using Nat.strong_induction_on generalizing node with
  | _ bound ih =>
      rcases List.mem_cons.mp member with rfl | later
      · exact .inl rfl
      · obtain ⟨parent, held, path⟩ := placed.inner node later
        have shorter : parent.path.length < bound := by
          rw [← length, path, makepath, List.length_append, List.length_cons]
          omega
        have inside : Paths.Inside '/' parent.path node.path := by
          rw [path, makepath]
          exact Paths.inside_append node.name
        refine .inr ?_
        rcases ih _ shorter held rfl with rfl | above
        · exact inside
        · exact Paths.Inside.of_leads above (Paths.Inside.leads inside)

end Winning

/-- What the program leaves: right count files above the leaves, and behind those of the root the
candidate with the most votes of all files. -/
structure Decided {n : Nat} (nodes : List DirNode) (ballots : Fin n → Ballots) (files : Files) :
    Prop where
  tallied : Tallied nodes ballots files
  winner : ∃ root text winner, nodes.head? = some root ∧ files (filePath root) = some text ∧
    findwinner nodes files =
      some (Function.update files (filePath root) (some (text ++ winnerLine winner))) ∧
    Wins (fun candidate => ∑ i, (ballots i).votes.count candidate) winner

theorem Follows.decided {outputDir : CStr} {n : Nat} {nodes : List DirNode} {ballots : Fin n → Ballots}
    {state : Program n} {system : System n} (follows : Follows nodes ballots state system)
    (placed : Placed outputDir nodes) (assigned : Assigned nodes ballots)
    (manageable : Manageable nodes ballots) (inner : ∀ i, nodes.head? ≠ some (ballots i).leaf)
    (noColon : ∀ i, ':' ∉ (ballots i).votes) (given : 0 < n)
    (launched : Launched n state.dispatch) (joined : state.dispatch.main = .join)
    (signalled : ∀ worker ∈ state.dispatch.workers, worker = .signalled) :
    Decided nodes ballots state.files := by
  obtain ⟨finished, files⟩ := follows.finished launched joined signalled
  have tallied : Tallied nodes ballots state.files :=
    files ▸ follows.tallying.finished placed finished
  refine ⟨tallied, ?_⟩
  obtain ⟨root, first, _⟩ := finished ⟨0, given⟩
  have above : ∀ i, Above root (ballots i).leaf := fun i =>
    (placed.below_root first (assigned.inside i)).resolve_left fun same =>
      inner i (first.trans (congrArg some same.symm))
  obtain ⟨entries, text, reports⟩ :=
    tallied root (List.mem_of_head? first) ⟨⟨0, given⟩, above ⟨0, given⟩⟩
  have whole : votesBelow ballots root = fun candidate => ∑ i, (ballots i).votes.count candidate := by
    funext candidate
    exact Finset.sum_congr rfl fun i _ => if_pos (above i)
  rw [whole] at reports
  have countable : Countable fun candidate => ∑ i, (ballots i).votes.count candidate := by
    rw [← whole]
    exact votes_countable assigned manageable _
  have none : ∑ i, (ballots i).votes.count ':' = 0 := Finset.sum_eq_zero fun i _ =>
    List.count_eq_zero.mpr (noColon i)
  refine ⟨root, _, _, first, text, ?_, reports.wins⟩
  simp only [findwinner, first, text, Option.bind_eq_bind, Option.bind_some,
    scan_countText reports countable none]
  rfl

/-- From an empty output directory to the winner, in any order of the threads' steps in which no
call drops a candidate. -/
theorem winner_written (outputDir file : CStr) {n : Nat} {setup : Setup n} {ballots : Fin n → Ballots}
    {history : List (Event (Program n) Turn Unit)} {state : Program n}
    (created : createDAG outputDir file = some setup.nodes)
    (unique : (setup.nodes.map DirNode.name).Nodup) (assigned : Assigned setup.nodes ballots)
    (manageable : Manageable setup.nodes ballots) (provided : Provided setup ballots)
    (inner : ∀ i, setup.nodes.head? ≠ some (ballots i).leaf)
    (noColon : ∀ i, ':' ∉ (ballots i).votes) (given : 0 < n)
    (run : Run setup.step (programStart n) history state)
    (safe : Along (fun _ => StepSafe setup ballots) history)
    (joined : state.dispatch.main = .join)
    (signalled : ∀ worker ∈ state.dispatch.workers, worker = .signalled) :
    Decided setup.nodes ballots state.files := by
  have placed := createDAG_placed created
  obtain ⟨_, _, _, _, follows⟩ :=
    follows_of_run provided placed unique assigned manageable run safe
  exact follows.decided placed assigned manageable inner noColon given
    (dispatched_of_run run).launched joined signalled

theorem twoFiles_created {second : List Char} :
    createDAG "out".toList "R:A:B\n".toList = some (twoFiles second).nodes := by
  change createDAG "out".toList "R:A:B\n".toList = some twoLeaves
  decide

/-- The first thread counts what the second has left, and drops nothing. -/
theorem winner_written_sample : ∃ history state,
    Run (twoFiles "V\n".toList).step (programStart 2) history state ∧
      Decided twoLeaves (twoBallots ['X', 'Y'] ['X']) state.files := by
  have run : Run (twoFiles "V\n".toList).step (programStart 2) _ _ :=
    Run.of_execute (bothTurns (List.replicate 5 (.worker 1) ++ List.replicate 6 (.worker 0))) rfl
  exact ⟨_, _, run, winner_written _ _ twoFiles_created (by decide)
    (twoBallots_assigned (by decide) (by decide)) (twoBallots_manageable (by decide))
    ⟨by decide, by decide⟩ (by decide) (by decide) (by decide) run (Run.along_of_forall (by decide)) rfl
    (by decide)⟩

/-- Where all files have votes for the same candidates, the order of the steps does not matter. -/
theorem winner_written_of_same (outputDir file : CStr) {n : Nat} {setup : Setup n}
    {ballots : Fin n → Ballots} {history : List (Event (Program n) Turn Unit)} {state : Program n}
    (created : createDAG outputDir file = some setup.nodes)
    (unique : (setup.nodes.map DirNode.name).Nodup) (assigned : Assigned setup.nodes ballots)
    (manageable : Manageable setup.nodes ballots) (provided : Provided setup ballots)
    (inner : ∀ i, setup.nodes.head? ≠ some (ballots i).leaf)
    (noColon : ∀ i, ':' ∉ (ballots i).votes) (given : 0 < n)
    (same : ∀ i j, ∀ candidate ∈ (ballots i).votes, candidate ∈ (ballots j).votes)
    (run : Run setup.step (programStart n) history state)
    (joined : state.dispatch.main = .join)
    (signalled : ∀ worker ∈ state.dispatch.workers, worker = .signalled) :
    Decided setup.nodes ballots state.files := by
  have placed := createDAG_placed created
  have safe := safe_of_same provided placed unique assigned manageable same run
  obtain ⟨_, _, _, _, follows⟩ :=
    follows_of_run provided placed unique assigned manageable run safe
  exact follows.decided placed assigned manageable inner noColon given
    (dispatched_of_run run).launched joined signalled

theorem twoBallots_same {first second : List Char} (forth : first ⊆ second) (back : second ⊆ first) :
    ∀ i j, ∀ candidate ∈ (twoBallots first second i).votes,
      candidate ∈ (twoBallots first second j).votes := by
  intro i j candidate voted
  fin_cases i <;> fin_cases j
  · exact voted
  · exact forth voted
  · exact back voted
  · exact voted

theorem winner_written_of_same_sample : ∃ history state,
    Run (twoFiles "W\nW\nV\n".toList).step (programStart 2) history state ∧
      Decided twoLeaves (twoBallots ['X', 'Y'] ['Y', 'Y', 'X']) state.files := by
  have run : Run (twoFiles "W\nW\nV\n".toList).step (programStart 2) _ _ :=
    Run.of_execute (bothTurns (List.replicate 6 (.worker 0) ++ List.replicate 5 (.worker 1))) rfl
  exact ⟨_, _, run, winner_written_of_same _ _ twoFiles_created (by decide)
    (twoBallots_assigned (by decide) (by decide)) (twoBallots_manageable (by decide))
    ⟨by decide, by decide⟩ (by decide) (by decide) (by decide) (twoBallots_same (by simp) (by simp))
    run rfl (by decide)⟩

end VoteCounting.Threads
