import VoteCounting.Server.Leaves
import VoteCounting.Server.Range
import VoteCounting.Server.Refusals

namespace VoteCounting.Server

open Counters CString

/-- The counters already passed when the search for the item after these starts. -/
def skipped : List Counter → List Counter → List Counter
  | _, [] => []
  | ahead, vote :: rest => upTo ahead vote.name ++ skipped (beyond ahead vote.name) rest

/-- A candidate whose first counter is passed before its item comes has enough votes there. -/
def Undoable (entries votes : List Counter) : Prop :=
  ∀ before vote rest, votes = before ++ vote :: rest → vote.name ∈ names (skipped entries before) →
    vote.count ≤ (firstCount entries vote.name).getD 0

/-- The served vote requests list positive amounts, and additions stay within `int`. -/
structure PositiveVotes (table : Table) (str : CStr) : Prop where
  amounts : ∀ region votes, Serves table str region votes → ∀ vote ∈ votes, 0 < vote.count
  room : ∀ region votes, Serves table str region votes → command (trimlastenter str) = .addVotes →
    RoomToAdd (table.node region).rootCounter votes

/-- The two requests give the same vote list to the same region. -/
structure SameVotes (table : Table) (add remove : CStr) (region : Nat) (input : CStr) : Prop where
  adds : command (trimlastenter add) = .addVotes
  removes : command (trimlastenter remove) = .removeVotes
  target : table.Names (argvpOf add) 1 region
  again : table.Names (argvpOf remove) 1 region
  addInput : (argvpOf add)[2]? = some input
  removeInput : (argvpOf remove)[2]? = some input

def LeavesInRange (table : Table) : Prop :=
  ∀ i, table.children i = [] → ListInRange (table.node i).rootCounter

section Undo

variable {modulus : Nat} {table after : Table} {str input : CStr} {answer : List Response}
  {region : Nat} {entries votes before rest passed ahead : List Counter} {vote : Counter} {name : CStr}
  {cursor : Cursor}

theorem names_addVote_passed (other : name ≠ vote.name) :
    name ∈ names (addVote modulus passed ahead vote).passed ↔
      name ∈ names passed ∨ name ∈ names (upTo ahead vote.name) := by
  induction ahead generalizing passed with
  | nil => simp [addVote, upTo, other]
  | cons entry later ih =>
      rw [addVote, upTo]
      split
      · simp
      · rw [ih]
        simp [or_assoc]

/-- The candidates passed, apart from those the items themselves name. -/
theorem names_addAll_passed (other : name ∉ names before) :
    name ∈ names (addAll modulus before cursor).passed ↔
      name ∈ names cursor.passed ∨ name ∈ names (skipped cursor.ahead before) := by
  induction before generalizing cursor with
  | nil => simp [addAll, skipped]
  | cons vote later ih =>
      simp only [names_cons, List.mem_cons, not_or] at other
      rw [addAll, List.foldl_cons, ← addAll]
      rw [ih other.2, names_addVote_passed other.1, addVote_ahead, skipped, names_append,
        List.mem_append, or_assoc]

theorem firstCount_addVote_of_ne (other : vote.name ≠ name) :
    firstCount (addVote modulus passed ahead vote).entries name = firstCount
      (passed ++ ahead) name := by
  rw [addVote_entries, firstCount_append, firstCount_append, firstCount_credit, if_neg other]

theorem firstCount_addAll_of_absent (absent : name ∉ names votes) :
    firstCount (addAll modulus votes cursor).entries name = firstCount cursor.entries name := by
  induction votes generalizing cursor with
  | nil => rfl
  | cons vote later ih =>
      simp only [names_cons, List.mem_cons, not_or] at absent
      rw [addAll, List.foldl_cons, ← addAll]
      rw [ih absent.2, firstCount_addVote_of_ne (Ne.symm absent.1)]
      rfl

theorem firstCount_addAll (distinct : (names votes).Nodup) (whole : votes = before ++ vote :: rest) :
    firstCount (addAll modulus votes ⟨[], entries⟩).entries vote.name =
      if vote.name ∈ names (skipped entries before) then firstCount entries vote.name
      else some (((firstCount entries vote.name).map fun count =>
        (count + vote.count).bmod modulus).getD vote.count) := by
  rw [whole, names_append, names_cons] at distinct
  have parts := List.nodup_append.mp distinct
  have earlier : vote.name ∉ names before := fun member => parts.2.2 _ member _ (by simp) rfl
  have later : vote.name ∉ names rest := (List.nodup_cons.mp parts.2.1).1
  have same : firstCount (addAll modulus before ⟨[], entries⟩).entries vote.name =
      firstCount entries vote.name := firstCount_addAll_of_absent earlier
  have place : vote.name ∈ names (addAll modulus before ⟨[], entries⟩).passed ↔
      vote.name ∈ names (skipped entries before) := by
    rw [names_addAll_passed earlier]
    simp
  have split : addAll modulus votes ⟨[], entries⟩ =
      addAll modulus rest (addVote modulus (addAll modulus before ⟨[], entries⟩).passed
        (addAll modulus before ⟨[], entries⟩).ahead vote) := by
    rw [whole]
    simp [addAll]
  generalize addAll modulus before ⟨[], entries⟩ = reached at same place split
  rw [split, firstCount_addAll_of_absent later, addVote_entries, firstCount_append, firstCount_credit,
    if_pos rfl, ← same, Cursor.entries, firstCount_append]
  by_cases passedBefore : vote.name ∈ names (skipped entries before)
  · obtain ⟨count, found⟩ :=
      Option.isSome_iff_exists.mp (firstCount_isSome.mpr (place.mpr passedBefore))
    rw [if_pos passedBefore, found]
    rfl
  · rw [if_neg passedBefore, firstCount_of_absent fun member => passedBefore (place.mp member)]
    rfl

/-- What was added can be removed again exactly where no item was booked behind a smaller count. -/
theorem covers_addAll_iff (fit : ListInRange entries) (distinct : (names votes).Nodup)
    (positive : ∀ vote ∈ votes, 0 < vote.count) (fits : ∀ vote ∈ votes, Fits intModulus vote.count)
    (room : RoomToAdd entries votes) :
    (∀ vote ∈ votes, Covers (addAll intModulus votes ⟨[], entries⟩).entries vote) ↔
      Undoable entries votes := by
  have inside : ListInRange (addAll intModulus votes ⟨[], entries⟩).entries :=
    (addAll_inRange_iff fit fits).mpr ⟨by simp [ListInRange], room⟩
  constructor
  · intro covered before vote rest whole passed
    obtain ⟨count, found, enough⟩ := covered vote (by simp [whole])
    rw [firstCount_addAll distinct whole, if_pos passed] at found
    rw [found]
    exact enough
  · intro undoable vote member
    obtain ⟨before, rest, whole⟩ := List.append_of_mem member
    have found : firstCount (addAll intModulus votes ⟨[], entries⟩).entries vote.name = _ :=
      firstCount_addAll distinct whole
    by_cases passed : vote.name ∈ names (skipped entries before)
    · have enough := undoable before vote rest whole passed
      rw [if_pos passed] at found
      cases held : firstCount entries vote.name with
      | none =>
          rw [held, Option.getD_none] at enough
          exact absurd (positive vote member) (Int.not_lt.mpr enough)
      | some count =>
          rw [held, Option.getD_some] at enough
          exact ⟨count, found.trans held, enough⟩
    · rw [if_neg passed] at found
      refine ⟨_, found, ?_⟩
      obtain ⟨entry, stored, same⟩ := mem_of_firstCount found
      have range := inside entry stored
      rw [same] at range
      cases held : firstCount entries vote.name with
      | none => exact Int.le_refl _
      | some count =>
          obtain ⟨old, oldMember, rfl⟩ := mem_of_firstCount held
          have oldRange := fit old oldMember
          simp only [held, Option.map_some, Option.getD_some] at range ⊢
          have sum := (inRange_bmod_add oldRange (fits vote member)).mp range
          rw [fits_of_inRange sum]
          have low := oldRange.1
          omega

theorem LeavesInRange.step (fit : LeavesInRange table) (wellFormed : WellFormed table)
    (positive : PositiveVotes table str)
    (answered : dispatchCode intModulus table str = .ok (answer, after)) : LeavesInRange after := by
  intro i leaf
  obtain ⟨before, changed⟩ := (dispatchCode_step wellFormed.nonempty answered).at_leaf wellFormed leaf
  generalize (after.node i).rootCounter = list at changed
  cases changed with
  | kept => exact fit i before
  | added selected named present voting parsed =>
      have serves : Serves table str i _ := ⟨_, named, present, voting, parsed, .inl selected⟩
      exact (addAll_inRange_iff (fit i before) (fits_parseVotes parsed)).mpr
        ⟨by simp [ListInRange], positive.room i _ serves selected⟩
  | removed selected named present voting parsed covered =>
      have serves : Serves table str i _ :=
        ⟨_, named, present, voting, parsed, .inr ⟨selected, covered⟩⟩
      exact removeAll_inRange (fit i before) (fun vote member => (covered vote member).mem_names)
        (roomToRemove_of_positive (fit i before) (positive.amounts i _ serves))

theorem CountersOnly.lookup_eq (kept : CountersOnly table after) : after.lookup = table.lookup := by
  funext name
  rw [Table.lookup_eq_names, Table.lookup_eq_names, Table.names_eq_of_node kept.size kept.name]

theorem CountersOnly.names_iff {argvp : List CStr} {k : Nat} (kept : CountersOnly table after) :
    after.Names argvp k region ↔ table.Names argvp k region := by
  rw [Table.Names, Table.Names, kept.lookup_eq]

theorem Step.of_addVotes (step : Step modulus table str [.success] after)
    (selected : command (trimlastenter str) = .addVotes) (named : table.Names (argvpOf str) 1 region)
    (present : (argvpOf str)[2]? = some input) :
    ∃ votes, Voting table region ∧ parseVotes (makeargv (trimwhitespace input) ',') = .ok votes ∧
      after = table.modify region fun node => { node with
        rootCounter := (addAll modulus votes ⟨[], (table.node region).rootCounter⟩).entries
        hasdata := true } := by
  generalize answered : [Response.success] = answer at step
  cases step with
  | refused failure =>
      cases answered
      cases failure
  | polls ruled => rcases pollRule_eq ruled with ⟨other, _⟩ | ⟨other, _⟩ <;> simp [selected] at other
  | @votesAdded field target cursor _ other otherPresent voting added =>
      obtain rfl := other.unique named
      obtain rfl : field = input := Option.some.inj (otherPresent.symm.trans present)
      obtain ⟨votes, parsed, rfl⟩ := addTokens_ok added
      exact ⟨votes, voting, parsed, rfl⟩
  | votesRemoved other | regionAdded other | votesRead other | votesCounted other | won other =>
      simp [selected] at other

theorem covers_of_removed (step : Step modulus table str [.success] after)
    (selected : command (trimlastenter str) = .removeVotes) (named : table.Names (argvpOf str) 1 region)
    (present : (argvpOf str)[2]? = some input)
    (parsed : parseVotes (makeargv (trimwhitespace input) ',') = .ok votes) :
    ∀ vote ∈ votes, Covers (table.node region).rootCounter vote := by
  generalize answered : [Response.success] = answer at step
  cases step with
  | refused failure =>
      cases answered
      cases failure
  | polls ruled => rcases pollRule_eq ruled with ⟨other, _⟩ | ⟨other, _⟩ <;> simp [selected] at other
  | @votesRemoved field target entries stopped _ other otherPresent voting checked removed =>
      obtain rfl := other.unique named
      obtain rfl : field = input := Option.some.inj (otherPresent.symm.trans present)
      obtain ⟨items, itemsParsed, covered⟩ := shortNames_nil_iff.mp checked
      obtain rfl := Except.ok.inj (itemsParsed.symm.trans parsed)
      exact covered
  | votesAdded other | regionAdded other | votesRead other | votesCounted other | won other =>
      simp [selected] at other

/-- A removal of distinct candidates with enough votes is served and subtracts each amount. -/
theorem removed_of_covers (selected : command (trimlastenter str) = .removeVotes)
    (named : table.Names (argvpOf str) 1 region) (present : (argvpOf str)[2]? = some input)
    (voting : Voting table region)
    (parsed : parseVotes (makeargv (trimwhitespace input) ',') = .ok votes)
    (distinct : (names votes).Nodup) (positive : ∀ vote ∈ votes, 0 < vote.count)
    (fit : ListInRange (table.node region).rootCounter)
    (covered : ∀ vote ∈ votes, Covers (table.node region).rootCounter vote) :
    ∃ final, dispatchCode intModulus table str = .ok ([.success], final) ∧ ∀ name,
      total (final.node region).rootCounter name =
        total (table.node region).rootCounter name - total votes name := by
  have enough :
    ∀ vote ∈ votes, ∃ count, firstCount (table.node region).rootCounter vote.name = some count ∧
      vote.count ≤ count ∧ Fits intModulus (count - vote.count) := by
    intro vote member
    obtain ⟨count, found, least⟩ := covered vote member
    obtain ⟨entry, held, rfl⟩ := mem_of_firstCount found
    have range := fit entry held
    have amount := positive vote member
    exact ⟨entry.count, found, least, fits_of_inRange ⟨by omega, by have high := range.2; omega⟩⟩
  obtain ⟨done, totals⟩ := removeAll_of_distinct distinct enough
  refine ⟨_, (dispatchCode_removeVotes selected named present voting parsed covered).trans
    (by rw [done]; rfl), fun name => ?_⟩
  rw [Table.node_modify_self voting.inside]
  exact totals name

theorem LeavesInRange.of_run {file : CStr} {history : List Answered}
    (served : Served intModulus file history table)
    (past : Along (fun _ => PositiveVotes) history) : LeavesInRange table := by
  obtain ⟨start, created, run⟩ := served
  have initial := createDAG_initial created
  refine Run.invariant (fun _ table => LeavesInRange table) (fun i _ => ?_) ?_ run past
  · rw [(initial.untouched i).rootCounter]
    simp [ListInRange]
  · exact fun before fit positive answered =>
      fit.step (Run.wellFormed initial.wellFormed before) positive answered

theorem CountersOnly.voting (frame : CountersOnly table after) (voting : Voting table region) :
    Voting after region := by
  refine ⟨frame.size ▸ voting.inside, ?_, ?_, ?_⟩
  · rw [frame.children]
    exact voting.leaf
  · rw [frame.isOpen]
    exact voting.isOpen
  · rw [frame.closed]
    exact voting.notClosed

end Undo

/-- An addition is undone by the removal of the same list exactly where no listed candidate has
too few votes in a counter the addition had already passed. -/
theorem removal_undoes_addition (file : CStr) {history : List Answered} {table after : Table}
    {add remove input : CStr} {region : Nat} (served : Served intModulus file history table)
    (past : Along (fun _ => PositiveVotes) history) (same : SameVotes table add remove region input)
    (added : dispatchCode intModulus table add = .ok ([.success], after))
    (distinct : (names (listed input)).Nodup) (positive : ∀ vote ∈ listed input, 0 < vote.count)
    (room : RoomToAdd (table.node region).rootCounter (listed input)) :
    (∃ final, dispatchCode intModulus after remove = .ok ([.success], final) ∧
      ∀ name, total (final.node region).rootCounter name =
        total (table.node region).rootCounter name) ↔
      Undoable (table.node region).rootCounter (listed input) := by
  have wellFormed := served.wellFormed
  obtain ⟨votes, voting, parsed, rfl⟩ :=
    (dispatchCode_step wellFormed.nonempty added).of_addVotes same.adds same.target same.addInput
  have items := listed_eq parsed
  rw [items] at distinct positive room ⊢
  have fit := LeavesInRange.of_run served past region voting.leaf
  have fits := fits_parseVotes parsed
  have covers := covers_addAll_iff fit distinct positive fits room
  generalize middle : (table.modify region fun node => { node with
    rootCounter := (addAll intModulus votes ⟨[], (table.node region).rootCounter⟩).entries
    hasdata := true }) = after at added
  have frame : CountersOnly table after := middle ▸ storeVotes_frame
  have list : (after.node region).rootCounter =
      (addAll intModulus votes ⟨[], (table.node region).rootCounter⟩).entries := by
    rw [← middle, Table.node_modify_self voting.inside]
  have again : after.Names (argvpOf remove) 1 region := frame.names_iff.mpr same.again
  rw [← covers, ← list]
  constructor
  · rintro ⟨final, removed, _⟩
    exact covers_of_removed (dispatchCode_step (frame.size ▸ wellFormed.nonempty) removed) same.removes
      again same.removeInput parsed
  · intro covered
    have stored : ListInRange (after.node region).rootCounter := by
      rw [list]
      exact (addAll_inRange_iff fit fits).mpr ⟨by simp [ListInRange], room⟩
    obtain ⟨final, removed, totals⟩ := removed_of_covers same.removes again same.removeInput
      (frame.voting voting) parsed distinct positive stored covered
    refine ⟨final, removed, fun name => ?_⟩
    rw [totals, list]
    rw [addAll_exact_of_room room, total_addAll fun _ _ => by simp [Fits]]
    simp [Cursor.entries]

theorem positiveVotes_of_no_votes {table : Table} {str : CStr}
    (notAdd : command (trimlastenter str) ≠ .addVotes)
    (notRemove : command (trimlastenter str) ≠ .removeVotes) : PositiveVotes table str := by
  constructor
  · intro region votes serves
    obtain ⟨_, _, _, _, _, added | ⟨removed, _⟩⟩ := serves
    · exact absurd added notAdd
    · exact absurd removed notRemove
  · exact fun _ _ _ added => absurd added notAdd

theorem opened_run (inputs : List CStr) {history : List Answered} {table : Table}
    (done : execute (dispatchCode intModulus) (votedTable true [] []) inputs = .ok (history, table)) :
    Served intModulus "R:A".toList
      (⟨votedTable false [] [], "OP;R".toList, [.success]⟩ :: history) table :=
  ⟨votedTable false [] [], by decide, .cons (by rfl) (Run.of_execute inputs done)⟩

/-- One vote for `X` and one for `Y` at the leaf. -/
theorem twoVotes_run : Served intModulus "R:A".toList
    [⟨votedTable false [] [], "OP;R".toList, [.success]⟩,
      ⟨votedTable true [] [], "AV;A;X:1,Y:1".toList, [.success]⟩]
    (votedTable true [] [⟨['X'], 1⟩, ⟨['Y'], 1⟩]) :=
  opened_run ["AV;A;X:1,Y:1".toList] (by rfl)

theorem twoVotes_positive : Along (fun _ => PositiveVotes)
    [⟨votedTable false [] [], "OP;R".toList, [Response.success]⟩,
      ⟨votedTable true [] [], "AV;A;X:1,Y:1".toList, [Response.success]⟩] := by
  refine Run.along_cons.mpr ⟨positiveVotes_of_no_votes (by decide) (by decide),
    Run.along_cons.mpr ⟨⟨fun region votes serves => ?_, fun region votes serves _ => ?_⟩,
      Run.along_nil⟩⟩
  · obtain ⟨input, _, present, _, parsed, _⟩ := serves
    cases present
    cases parsed
    decide
  · obtain ⟨input, ⟨field, named, found⟩, present, _, parsed, _⟩ := serves
    cases named
    cases found
    cases present
    cases parsed
    exact ⟨⟨by decide, by decide⟩, ⟨by decide, by decide⟩, trivial⟩

theorem removal_undoes_addition_sample :
    (∃ final, dispatchCode intModulus (votedTable true [] [⟨['X'], 3⟩, ⟨['Y'], 2⟩])
        "RV;A;X:2,Y:1".toList = .ok ([.success], final) ∧
      ∀ name, total (final.node 1).rootCounter name =
        total ((votedTable true [] [⟨['X'], 1⟩, ⟨['Y'], 1⟩]).node 1).rootCounter name) ↔
      Undoable ((votedTable true [] [⟨['X'], 1⟩, ⟨['Y'], 1⟩]).node 1).rootCounter
        (listed "X:2,Y:1".toList) := by
  have same : SameVotes (votedTable true [] [⟨['X'], 1⟩, ⟨['Y'], 1⟩]) "AV;A;X:2,Y:1".toList
      "RV;A;X:2,Y:1".toList 1 "X:2,Y:1".toList :=
    ⟨by decide, by decide, ⟨_, rfl, rfl⟩, ⟨_, rfl, rfl⟩, rfl, rfl⟩
  exact removal_undoes_addition "R:A".toList twoVotes_run twoVotes_positive same (by rfl) (by decide)
    (by decide) ⟨⟨by decide, by decide⟩, ⟨by decide, by decide⟩, trivial⟩

/-- With one vote for `X` and one for `Y`, `Y:2,X:5` is added but cannot be removed: the five
votes for `X` stand in a counter of their own behind the first one. -/
theorem addition_not_undone : ∃ (file : CStr) (history : List Answered) (table after : Table)
    (add remove input : CStr) (region : Nat), Served intModulus file history table ∧
    Along (fun _ => PositiveVotes) history ∧ SameVotes table add remove region input ∧
    dispatchCode intModulus table add = .ok ([.success], after) ∧ (names (listed input)).Nodup ∧
    (∀ vote ∈ listed input, 0 < vote.count) ∧ RoomToAdd (table.node region).rootCounter (listed input) ∧
    ¬ ∃ final, dispatchCode intModulus after remove = .ok ([.success], final) ∧
      ∀ name, total (final.node region).rootCounter name =
        total (table.node region).rootCounter name := by
  refine ⟨_, _, _, votedTable true [] [⟨['X'], 1⟩, ⟨['Y'], 3⟩, ⟨['X'], 5⟩], "AV;A;Y:2,X:5".toList,
    "RV;A;Y:2,X:5".toList, "Y:2,X:5".toList, 1, twoVotes_run, twoVotes_positive,
    ⟨by decide, by decide, ⟨_, rfl, rfl⟩, ⟨_, rfl, rfl⟩, rfl, rfl⟩, by rfl, by decide,
      by decide, ?_, ?_⟩
  · exact ⟨⟨by decide, by decide⟩, ⟨by decide, by decide⟩, trivial⟩
  · rintro ⟨final, removed, _⟩
    have answer : dispatchCode intModulus (votedTable true [] [⟨['X'], 1⟩, ⟨['Y'], 3⟩, ⟨['X'], 5⟩])
        "RV;A;Y:2,X:5".toList = .ok ([.insufficient [['X']]],
          votedTable true [] [⟨['X'], 1⟩, ⟨['Y'], 3⟩, ⟨['X'], 5⟩]) := by rfl
    rw [answer] at removed
    cases removed

end VoteCounting.Server
