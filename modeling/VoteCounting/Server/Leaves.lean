import VoteCounting.Server.Counting
import VoteCounting.Server.Gathering

namespace VoteCounting.Server

open Counters CString

/-- A removal names each candidate at most once. -/
def RemovesOnce (str : CStr) : Prop :=
  command (trimlastenter str) = .removeVotes →
    ∀ input, (argvpOf str)[2]? = some input → (names (listed input)).Nodup

/-- Every region without children holds what its history booked. -/
def LeavesBooked (history : List Answered) (table : Table) : Prop :=
  ∀ i, table.children i = [] → ∀ name, total (table.node i).rootCounter name = ledger history i name

section Leaves

variable {modulus : Nat} {table after : Table} {str : CStr} {answer : List Response}
  {history : List Answered} {region : Nat} {entries votes : List Counter}

/-- A removal of distinct candidates needs no more than each item on its own. -/
theorem removeAll_of_distinct (distinct : (names votes).Nodup)
    (enough : ∀ vote ∈ votes, ∃ count, firstCount entries vote.name = some count ∧
      vote.count ≤ count ∧ Fits modulus (count - vote.count)) :
    (removeAll modulus votes entries).2 = none ∧
      ∀ name, total (removeAll modulus votes entries).1 name =
        total entries name - total votes name := by
  apply removeAll_exact
  intro before vote rest whole
  have absent : total before vote.name = 0 := by
    apply total_of_absent
    intro member
    rw [whole, names_append, names_cons] at distinct
    exact (List.nodup_append.mp distinct).2.2 _ member _ (by simp) rfl
  obtain ⟨count, found, covered, fits⟩ := enough vote (by simp [whole])
  simp only [absent, sub_zero]
  exact ⟨count, found, covered, fits⟩

/-- What an answered request can do to the list of a region without children. -/
inductive LeafStep (modulus : Nat) (table : Table) (str : CStr) (region : Nat) :
    List Response → List Counter → Prop
  | kept {answer : List Response} : (∀ name, booked ⟨table, str, answer⟩ region name = 0) →
      LeafStep modulus table str region answer (table.node region).rootCounter
  | added {input : CStr} {votes : List Counter} : command (trimlastenter str) = .addVotes →
      table.Names (argvpOf str) 1 region → (argvpOf str)[2]? = some input → Voting table region →
      parseVotes (makeargv (trimwhitespace input) ',') = .ok votes →
      LeafStep modulus table str region [.success]
        (addAll modulus votes ⟨[], (table.node region).rootCounter⟩).entries
  | removed {input : CStr} {votes : List Counter} : command (trimlastenter str) = .removeVotes →
      table.Names (argvpOf str) 1 region → (argvpOf str)[2]? = some input → Voting table region →
      parseVotes (makeargv (trimwhitespace input) ',') = .ok votes →
      (∀ vote ∈ votes, Covers (table.node region).rootCounter vote) →
      LeafStep modulus table str region
        [removeAnswer (removeAll modulus votes (table.node region).rootCounter).2]
        (removeAll modulus votes (table.node region).rootCounter).1

theorem LeafStep.quiet (same : (after.node region).rootCounter = (table.node region).rootCounter)
    (silent : Silent ⟨table, str, answer⟩) :
    LeafStep modulus table str region answer (after.node region).rootCounter := by
  rw [same]
  exact .kept fun name => (silent region name).1

theorem booked_elsewhere {target : Nat} {input : CStr} (named : table.Names (argvpOf str) 1 target)
    (present : (argvpOf str)[2]? = some input)
    (parsed : parseVotes (makeargv (trimwhitespace input) ',') = .ok votes) (other : target ≠ region)
    (name : CStr) : booked ⟨table, str, answer⟩ region name = 0 := by
  by_cases served : answer = [.success]
  · rw [served, booked]
    rw [accepted_of_named named present parsed, if_neg other]
    cases command (trimlastenter str) <;> rfl
  · exact booked_of_refused served

/-- A region without children had none before, and only vote requests reach its list. -/
theorem Step.at_leaf (wellFormed : WellFormed table) (step : Step modulus table str answer after)
    (leaf : after.children region = []) : table.children region = [] ∧
      LeafStep modulus table str region answer (after.node region).rootCounter := by
  cases step with
  | refused failure =>
      refine ⟨leaf, .quiet rfl (silent_of_refused ?_)⟩
      intro same
      cases same
      cases failure
  | polls ruled _ _ _ visited =>
      have kept := visitPolls_visited visited
      rw [kept.children_eq] at leaf
      refine ⟨leaf, .quiet (kept.node region).rootCounter (silent_of_command ?_ ?_)⟩
      · rcases pollRule_eq ruled with ⟨selected, _⟩ | ⟨selected, _⟩ <;> simp [selected]
      · rcases pollRule_eq ruled with ⟨selected, _⟩ | ⟨selected, _⟩ <;> simp [selected]
  | @votesAdded input target cursor selected named present voting added =>
      rw [storeVotes_frame.children_eq] at leaf
      obtain ⟨votes, parsed, rfl⟩ := addTokens_ok added
      refine ⟨leaf, ?_⟩
      by_cases same : target = region
      · subst same
        rw [Table.node_modify_self voting.inside]
        exact .added selected named present voting parsed
      · rw [Table.node_modify_of_ne same]
        exact .kept (booked_elsewhere named present parsed same)
  | @votesRemoved input target entries stopped selected named present voting checked removed =>
      rw [storeCounters_frame.children_eq] at leaf
      obtain ⟨votes, parsed, covered, result⟩ := removal_of_checked checked removed
      obtain ⟨rfl, rfl⟩ := Prod.mk.inj result
      refine ⟨leaf, ?_⟩
      by_cases same : target = region
      · subst same
        rw [Table.node_modify_self voting.inside]
        exact .removed selected named present voting parsed covered
      · rw [Table.node_modify_of_ne same]
        exact .kept (booked_elsewhere named present parsed same)
  | @regionAdded parent childname selected named _ =>
      have silent : Silent ⟨table, str, [.regionAdded (trimwhitespace childname)]⟩ :=
        silent_of_command (by simp [selected]) (by simp [selected])
      by_cases new : region = table.size
      · have nothing : table.node region = {} := Table.node_of_size_le new.ge
        refine ⟨by rw [Table.children, nothing], .quiet ?_ silent⟩
        rw [new, addChild_node_new, ← new, nothing]
        rfl
      · refine ⟨?_, .quiet (addChild_proj Node.rootCounter (fun _ _ => rfl) new) silent⟩
        rw [addChild_children named.inside, Forest.addLeaf] at leaf
        by_cases same : region = parent
        · subst same
          simp at leaf
        · rwa [Function.update_of_ne same] at leaf
  | votesRead selected =>
      exact ⟨leaf, .quiet rfl (silent_of_command (by simp [selected]) (by simp [selected]))⟩
  | votesCounted selected _ _ counted =>
      rw [(aggregate_frame counted).children_eq] at leaf
      refine ⟨leaf, .quiet ?_ (silent_of_command (by simp [selected]) (by simp [selected]))⟩
      rw [aggregate_leaf wellFormed counted leaf]
  | won selected _ _ counted =>
      rw [(aggregate_frame counted).children_eq] at leaf
      refine ⟨leaf, .quiet ?_ (silent_of_command (by simp [selected]) (by simp [selected]))⟩
      rw [aggregate_leaf wellFormed counted leaf]

theorem LeafStep.total_eq (step : LeafStep 0 table str region answer entries) (once : RemovesOnce str)
    (name : CStr) : total entries name =
      total (table.node region).rootCounter name + booked ⟨table, str, answer⟩ region name := by
  have exact : ∀ value : Int, Fits 0 value := fun value => by simp [Fits]
  cases step with
  | kept none => rw [none name, add_zero]
  | added selected named present _ parsed =>
      simp only [booked, selected, accepted_of_named named present parsed, if_pos]
      exact total_addAll fun _ _ => exact _
  | @removed input votes selected named present _ parsed covered =>
      have distinct := once selected _ present
      rw [listed_eq parsed] at distinct
      have enough :
        ∀ vote ∈ votes, ∃ count, firstCount (table.node region).rootCounter vote.name = some count ∧
          vote.count ≤ count ∧ Fits 0 (count - vote.count) := by
        intro vote member
        obtain ⟨count, found, enough⟩ := covered vote member
        exact ⟨count, found, enough, exact _⟩
      obtain ⟨done, totals⟩ := removeAll_of_distinct distinct enough
      simp only [done, booked, selected, removeAnswer, accepted_of_named named present parsed, if_pos]
      rw [totals, sub_eq_add_neg]

theorem LeavesBooked.step (books : LeavesBooked history table) (wellFormed : WellFormed table)
    (once : RemovesOnce str) (answered : dispatchCode 0 table str = .ok (answer, after)) :
    LeavesBooked (history ++ [⟨table, str, answer⟩]) after := by
  intro region leaf name
  obtain ⟨before, changed⟩ := (dispatchCode_step wellFormed.nonempty answered).at_leaf wellFormed leaf
  rw [changed.total_eq once name, books region before name, ledger_snoc]

end Leaves

/-- The counts of a region without children are the votes added less the votes removed. -/
theorem leaf_ledger (file : CStr) {table : Table} {history : List Answered}
    (served : Served 0 file history table) (once : Along (fun _ _ str => RemovesOnce str) history)
    {region : Nat} (leaf : table.children region = []) (name : CStr) :
    total (table.node region).rootCounter name = ledger history region name := by
  obtain ⟨start, created, run⟩ := served
  have initial := createDAG_initial created
  have reached : LeavesBooked history table := by
    refine Run.invariant LeavesBooked ?_ ?_ run once
    · intro i _ name
      rw [(initial.untouched i).rootCounter]
      rfl
    · exact fun past books once answered =>
        books.step (Run.wellFormed initial.wellFormed past) once answered
  exact reached region leaf name

theorem leaf_ledger_sample :
    total ((votedTable true [] [⟨['X'], 2⟩]).node 1).rootCounter ['X'] =
      ledger [⟨votedTable false [] [], "OP;R".toList, [.success]⟩,
        ⟨votedTable true [] [], "AV;A;X:3".toList, [.success]⟩,
        ⟨votedTable true [] [⟨['X'], 3⟩], "RV;A;X:1".toList, [.success]⟩] 1 ['X'] := by
  have run : Run (dispatchCode 0) (votedTable false [] [])
      [⟨votedTable false [] [], "OP;R".toList, [.success]⟩,
        ⟨votedTable true [] [], "AV;A;X:3".toList, [.success]⟩,
        ⟨votedTable true [] [⟨['X'], 3⟩], "RV;A;X:1".toList, [.success]⟩]
      (votedTable true [] [⟨['X'], 2⟩]) :=
    Run.of_execute (["OP;R", "AV;A;X:3", "RV;A;X:1"].map String.toList) (by rfl)
  have once : ∀ str ∈ ["OP;R", "AV;A;X:3", "RV;A;X:1"].map String.toList, RemovesOnce str := by
    intro str member selected input present
    simp only [List.map_cons, List.map_nil, List.mem_cons, List.not_mem_nil, or_false] at member
    rcases member with rfl | rfl | rfl
    · cases selected
    · cases selected
    · cases present
      decide
  refine leaf_ledger "R:A".toList ⟨votedTable false [] [], by decide, run⟩ ?_ rfl ['X']
  refine Run.along_cons.mpr ⟨once _ (by simp), Run.along_cons.mpr ⟨once _ (by simp),
    Run.along_cons.mpr ⟨once _ (by simp), Run.along_nil⟩⟩⟩

end VoteCounting.Server
