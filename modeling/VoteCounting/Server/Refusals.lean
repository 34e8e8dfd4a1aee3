import VoteCounting.Server.Counts

namespace VoteCounting.Server

open Counters CString

/-- The regions agree in everything but their names. -/
structure SameState (before after : Table) : Prop where
  isOpen : ∀ i, (after.node i).isOpen = (before.node i).isOpen
  closed : ∀ i, (after.node i).closed = (before.node i).closed
  children : ∀ i, after.children i = before.children i
  rootCounter : ∀ i, (after.node i).rootCounter = (before.node i).rootCounter
  hasdata : ∀ i, (after.node i).hasdata = (before.node i).hasdata

theorem SameState.refl (table : Table) : SameState table table :=
  ⟨fun _ => rfl, fun _ => rfl, fun _ => rfl, fun _ => rfl, fun _ => rfl⟩

/-- A response other than `SC` means that nothing has changed. -/
def CleanRefusal (table : Table) (answer : List Response) (after : Table) : Prop :=
  (∃ response ∈ answer, response.isSuccess = false) → SameState table after

/-- `Remove_Votes` changes nothing or subtracts every listed amount. -/
def AllOrNothing (modulus : Nat) (table : Table) (str : CStr) (after : Table) : Prop :=
  command (trimlastenter str) = .removeVotes → SameState table after ∨
    ∃ region input votes, table.Names (argvpOf str) 1 region ∧ (argvpOf str)[2]? = some input ∧
      parseVotes (makeargv (trimwhitespace input) ',') = .ok votes ∧
      after = table.modify region fun node => { node with
        rootCounter := votes.foldl
          (fun entries vote => debit modulus entries vote.name vote.count) node.rootCounter }

/-- A vote list whose items are each covered by the counts of an open region, but not one
after another: earlier items leave too few votes for a later one. -/
def Overdrawn (modulus : Nat) (table : Table) (str : CStr) : Prop :=
  command (trimlastenter str) = .removeVotes ∧ ∃ region input votes,
    table.Names (argvpOf str) 1 region ∧ (argvpOf str)[2]? = some input ∧ Voting table region ∧
      parseVotes (makeargv (trimwhitespace input) ',') = .ok votes ∧
      (∀ vote ∈ votes, Covers (table.node region).rootCounter vote) ∧
      ¬ EnoughInTurn modulus (table.node region).rootCounter votes

section Refusals

variable {modulus : Nat} {table after : Table} {region : Nat} {str : CStr} {answer : List Response}

theorem arg_of_getElem? {argvp : List CStr} {k : Nat} {field : CStr}
    (present : argvp[k]? = some field) :
    arg argvp k = .ok field := by
  rw [arg, present]

theorem dispatchCode_removeVotes {input : CStr} {votes : List Counter}
    (selected : command (trimlastenter str) = .removeVotes)
    (named : table.Names (argvpOf str) 1 region) (present : (argvpOf str)[2]? = some input)
    (voting : Voting table region)
    (parsed : parseVotes (makeargv (trimwhitespace input) ',') = .ok votes)
    (covered : ∀ vote ∈ votes, Covers (table.node region).rootCounter vote) :
    dispatchCode modulus table str =
      .ok ([removeAnswer (removeAll modulus votes (table.node region).rootCounter).2],
        table.modify region fun node => { node with
          rootCounter := (removeAll modulus votes (table.node region).rootCounter).1 }) := by
  obtain ⟨field, fieldPresent, found⟩ := named
  have checked := shortNames_nil_iff.mpr ⟨votes, parsed, covered⟩
  have removed : removeTokens modulus (makeargv (trimwhitespace input) ',')
      (table.node region).rootCounter = .ok _ :=
    removeTokens_of_parsed parsed fun vote member => (covered vote member).mem_names
  rw [dispatchCode]
  rw [selected]
  simp only [handle, removeVotes, arg_of_getElem? present, arg_of_getElem? fieldPresent, found,
    voting.leaf, voting.isOpen, voting.notClosed, checked, removed, bind, Except.bind, ne_eq,
    not_true_eq_false, ↓reduceIte, Bool.not_true, Bool.or_self, Bool.false_eq_true]
  cases (removeAll modulus votes (table.node region).rootCounter).2 <;> rfl

theorem Overdrawn.dirty (fit : CountsFit modulus table) (overdrawn : Overdrawn modulus table str)
    (answered : dispatchCode modulus table str = .ok (answer, after)) :
    ¬ CleanRefusal table answer after := by
  obtain ⟨selected, region, input, votes, named, present, voting, parsed, covered, short⟩ := overdrawn
  rw [dispatchCode_removeVotes selected named present voting parsed covered] at answered
  obtain ⟨rfl, rfl⟩ := Prod.mk.inj (Except.ok.inj answered)
  cases stopped : (removeAll modulus votes (table.node region).rootCounter).2 with
  | none =>
      exact absurd ((removeAll_stop_iff (fit region)
        fun vote member => (covered vote member).mem_names).mp stopped) short
  | some name =>
      intro clean
      have same := (clean ⟨removeAnswer (some name), by simp, rfl⟩).rootCounter region
      rw [Table.node_modify_self voting.inside] at same
      exact removeAll_changes covered stopped same

/-- Every exit of every handler but the second pass of `Remove_Votes` is clean. -/
theorem Step.clean (fit : CountsFit modulus table) (enough : ¬ Overdrawn modulus table str)
    (step : Step modulus table str answer after) :
    CleanRefusal table answer after ∧ AllOrNothing modulus table str after := by
  have succeeded : ∀ {response : Response}, response.isSuccess = true →
      CleanRefusal table [response] after := by
    intro response success ⟨other, member, failure⟩
    obtain rfl := List.mem_singleton.mp member
    rw [success] at failure
    cases failure
  have elsewhere : command (trimlastenter str) ≠ .removeVotes → AllOrNothing modulus table str after :=
    fun different selected => absurd selected different
  cases step with
  | refused _ => exact ⟨fun _ => .refl table, fun _ => .inl (.refl table)⟩
  | polls ruled =>
      refine ⟨succeeded rfl, elsewhere ?_⟩
      intro selected
      simp [selected, pollRule] at ruled
  | votesAdded selected => exact ⟨succeeded rfl, elsewhere (by rw [selected]; decide)⟩
  | @votesRemoved input region entries stopped selected named present voting checked removed =>
      obtain ⟨votes, parsed, covered, result⟩ := removal_of_checked checked removed
      obtain ⟨rfl, rfl⟩ := Prod.mk.inj result
      have listed := fun vote member => (covered vote member).mem_names
      have inTurn : EnoughInTurn modulus (table.node region).rootCounter votes := by
        by_contra short
        exact enough ⟨selected, region, input, votes, named, present, voting, parsed, covered, short⟩
      have finished := (removeAll_stop_iff (fit region) listed).mpr inTurn
      rw [finished]
      refine ⟨succeeded rfl, fun _ => .inr ⟨region, input, votes, named, present, parsed, ?_⟩⟩
      apply Table.ext_node (by simp)
      intro i
      rw [Table.node_modify voting.inside, Table.node_modify voting.inside, removeAll_eq finished]
  | regionAdded selected => exact ⟨succeeded rfl, elsewhere (by rw [selected]; decide)⟩
  | votesRead selected => exact ⟨succeeded rfl, elsewhere (by rw [selected]; decide)⟩
  | votesCounted selected =>
      refine ⟨succeeded ?_, elsewhere (by rw [selected]; decide)⟩
      rw [countAnswer]
      split <;> rfl
  | won selected =>
      refine ⟨succeeded ?_, elsewhere (by rw [selected]; decide)⟩
      rw [winnerAnswer]
      split <;> rfl

end Refusals

/-- A refusal changes nothing, unless `Remove_Votes` is given an overdrawn vote list. -/
theorem refusal_clean_iff {file : CStr} {history : List Answered} {table after : Table} {str : CStr}
    {answer : List Response} (served : Served intModulus file history table)
    (answered : dispatchCode intModulus table str = .ok (answer, after)) :
    CleanRefusal table answer after ∧ AllOrNothing intModulus table str after ↔
      ¬ Overdrawn intModulus table str := by
  have fit := served.countsFit
  constructor
  · exact fun clean overdrawn => overdrawn.dirty fit answered clean.1
  · exact fun enough => (dispatchCode_step served.wellFormed.nonempty answered).clean fit enough

def threeVotes (count : Int) : Table :=
  ⟨[{ name := ['R'], children := [1], isOpen := true },
    { name := ['A'], isOpen := true, rootCounter := [⟨['X'], count⟩], hasdata := true }]⟩

theorem threeVotes_served : ∃ history, Served intModulus "R:A".toList history (threeVotes 3) :=
  ⟨_, ⟨[{ name := ['R'], children := [1] }, { name := ['A'] }]⟩, rfl,
    Run.of_execute ["OP;R".toList, "AV;A;X:3".toList] rfl⟩

theorem refusal_clean_iff_sample :
    dispatchCode intModulus (threeVotes 3) "RV;A;X:4".toList =
      .ok ([.insufficient [['X']]], threeVotes 3) ∧
    (CleanRefusal (threeVotes 3) [.insufficient [['X']]] (threeVotes 3) ∧
      AllOrNothing intModulus (threeVotes 3) "RV;A;X:4".toList (threeVotes 3) ↔
      ¬ Overdrawn intModulus (threeVotes 3) "RV;A;X:4".toList) := by
  obtain ⟨history, served⟩ := threeVotes_served
  exact ⟨by decide, refusal_clean_iff served (by decide)⟩

/-- `RV;A;X:2,X:2` is answered with `IS;X` and leaves one vote of three. -/
theorem refusal_not_clean : ∃ history table str answer after,
    Served intModulus "R:A".toList history table ∧
    dispatchCode intModulus table str = .ok (answer, after) ∧
    ¬ (CleanRefusal table answer after ∧ AllOrNothing intModulus table str after) := by
  obtain ⟨history, served⟩ := threeVotes_served
  refine ⟨history, threeVotes 3, "RV;A;X:2,X:2".toList, [.insufficient [['X']]], threeVotes 1,
    served, by decide, fun clean => ?_⟩
  have same := (clean.1 ⟨_, List.mem_singleton_self _, rfl⟩).rootCounter 1
  exact absurd same (by decide)

end VoteCounting.Server
