import VoteCounting.Server.Ledger

namespace VoteCounting.Server

open Counters CString

/-- The region and the items of a vote request. -/
def voteRequest (event : Answered) : Option (Nat × List Counter) := do
  let field ← (argvpOf event.input)[1]?
  let input ← (argvpOf event.input)[2]?
  let region ← event.before.lookup (trimwhitespace field)
  return (region, listed input)

/-- The items of a vote request answered `SC;`, for the region it names. -/
def accepted (event : Answered) (region : Nat) : List Counter :=
  if event.output = [.success] then
    match voteRequest event with
    | some (target, votes) => if target = region then votes else []
    | none => []
  else []

/-- What one answered request books for a candidate. -/
def booked (event : Answered) (region : Nat) (name : CStr) : Int :=
  match command (trimlastenter event.input) with
  | .addVotes => total (accepted event region) name
  | .removeVotes => -total (accepted event region) name
  | _ => 0

/-- An `Add_Votes` answered with success lists the candidate. -/
def Adds (event : Answered) (region : Nat) (name : CStr) : Prop :=
  command (trimlastenter event.input) = .addVotes ∧ name ∈ names (accepted event region)

/-- Amounts added minus amounts removed. -/
def ledger (history : List Answered) (region : Nat) (name : CStr) : Int :=
  (history.map fun event => booked event region name).sum

def Added (history : List Answered) (region : Nat) (name : CStr) : Prop :=
  ∃ event ∈ history, Adds event region name

/-- A vote request for an open region that will be served: a removal is served where the
counts cover each item. -/
def Serves (table : Table) (str : CStr) (region : Nat) (votes : List Counter) : Prop :=
  ∃ input, table.Names (argvpOf str) 1 region ∧ (argvpOf str)[2]? = some input ∧
    Voting table region ∧ parseVotes (makeargv (trimwhitespace input) ',') = .ok votes ∧
    (command (trimlastenter str) = .addVotes ∨
      command (trimlastenter str) = .removeVotes ∧
        ∀ vote ∈ votes, Covers (table.node region).rootCounter vote)

/-- Vote requests the counters can follow: no region above is counted already, no sum leaves
the range of the counts, and a removal finds enough votes for every item in turn. -/
structure VoteSafe (modulus : Nat) (table : Table) (str : CStr) : Prop where
  uncounted : ∀ region votes, Serves table str region votes → votes ≠ [] →
    ∀ above, Below table.children above region → above ≠ region →
      (table.node above).hasdata = false
  room : ∀ region votes, Serves table str region votes →
    command (trimlastenter str) = .addVotes →
    ∀ entry ∈ (addAll 0 votes ⟨[], (table.node region).rootCounter⟩).entries,
      Fits modulus entry.count
  enough : ∀ region votes, Serves table str region votes →
    command (trimlastenter str) = .removeVotes → ∀ before vote rest, votes = before ++ vote :: rest →
      ∃ count, firstCount (table.node region).rootCounter vote.name = some count ∧
        vote.count ≤ count - total before vote.name ∧
        Fits modulus (count - total before vote.name - vote.count)

section History

variable {modulus : Nat} {table after : Table} {str : CStr} {answer : List Response}
  {history : List Answered} {event : Answered} {region : Nat} {name : CStr} {votes : List Counter}

theorem ledger_snoc :
    ledger (history ++ [event]) region name = ledger history region name +
      booked event region name := by
  simp [ledger]

theorem added_snoc :
    Added (history ++ [event]) region name ↔ Added history region name ∨ Adds event region name := by
  simp [Added, or_and_right, exists_or]

theorem ledger_eq_zero (none : ∀ event ∈ history, booked event region name = 0) :
    ledger history region name = 0 := by
  apply List.sum_eq_zero
  intro share member
  obtain ⟨event, happened, rfl⟩ := List.mem_map.mp member
  exact none event happened

theorem accepted_of_refused (refused : event.output ≠ [.success]) : accepted event region = [] := by
  rw [accepted, if_neg refused]

theorem booked_of_refused (refused : event.output ≠ [.success]) : booked event region name = 0 := by
  rw [booked]
  rw [accepted_of_refused refused]
  cases command (trimlastenter event.input) <;> rfl

theorem not_adds_of_refused (refused : event.output ≠ [.success]) : ¬ Adds event region name := by
  intro ⟨_, member⟩
  simp [accepted_of_refused refused] at member

theorem accepted_of_named {input : CStr} (named : table.Names (argvpOf str) 1 region)
    (present : (argvpOf str)[2]? = some input)
    (parsed : parseVotes (makeargv (trimwhitespace input) ',') = .ok votes) (other : Nat) :
    accepted ⟨table, str, [.success]⟩ other = if region = other then votes else [] := by
  obtain ⟨field, fieldPresent, found⟩ := named
  simp [accepted, voteRequest, fieldPresent, present, found, listed_eq parsed]

theorem VoteSafe.of_no_votes (notAdd : command (trimlastenter str) ≠ .addVotes)
    (notRemove : command (trimlastenter str) ≠ .removeVotes) : VoteSafe modulus table str := by
  constructor
  · intro region votes serves
    obtain ⟨_, _, _, _, _, added | ⟨removed, _⟩⟩ := serves
    · exact absurd added notAdd
    · exact absurd removed notRemove
  · exact fun _ _ _ added => absurd added notAdd
  · exact fun _ _ _ removed => absurd removed notRemove

theorem passed_subset_addAll (votes : List Counter) {cursor : Cursor} :
    ∀ entry ∈ cursor.passed, entry ∈ (addAll modulus votes cursor).passed := by
  induction votes generalizing cursor with
  | nil => exact fun _ member => member
  | cons vote rest ih =>
      have grows : ∀ (ahead passed : List Counter), ∀ entry ∈ passed,
          entry ∈ (addVote modulus passed ahead vote).passed := by
        intro ahead
        induction ahead with
        | nil => intro passed entry member; simp [addVote, member]
        | cons next later aheadIH =>
            intro passed entry member
            rw [addVote]
            split
            · simp [member]
            · exact aheadIH _ entry (by simp [member])
      intro entry member
      exact ih entry (grows _ _ entry member)

theorem addVote_exact {ahead passed : List Counter} {vote : Counter}
    (fit : ∀ entry ∈ (addVote 0 passed ahead vote).passed, Fits modulus entry.count) :
    addVote modulus passed ahead vote = addVote 0 passed ahead vote := by
  induction ahead generalizing passed with
  | nil => rfl
  | cons next later ih =>
      rw [addVote, addVote]
      rw [addVote] at fit
      split
      · rename_i same
        rw [if_pos same] at fit
        have kept :
            ((next.count + vote.count).bmod 0).bmod modulus = (next.count + vote.count).bmod 0 :=
          fit { next with count := (next.count + vote.count).bmod 0 } (by simp)
        simp only [Int.bmod_zero] at kept ⊢
        rw [kept]
      · rename_i different
        rw [if_neg different] at fit
        exact ih fit

theorem addAll_exact {cursor : Cursor}
    (fit : ∀ entry ∈ (addAll 0 votes cursor).entries, Fits modulus entry.count) :
    addAll modulus votes cursor = addAll 0 votes cursor := by
  induction votes generalizing cursor with
  | nil => rfl
  | cons vote rest ih =>
      have first : addVote modulus cursor.passed cursor.ahead vote =
          addVote 0 cursor.passed cursor.ahead vote :=
        addVote_exact fun entry member =>
          fit entry (List.mem_append_left _ (passed_subset_addAll rest entry member))
      rw [addAll, List.foldl_cons, first]
      exact ih fit

theorem total_addAll {cursor : Cursor}
    (fit : ∀ entry ∈ (addAll 0 votes cursor).entries, Fits modulus entry.count) :
    total (addAll modulus votes cursor).entries name =
      total cursor.entries name + total votes name := by
  rw [addAll_exact fit]
  have exact : total (addAll 0 votes cursor).entries name ≡
      total cursor.entries name + total votes name [ZMOD (0 : Nat)] := total_addAll_modEq
  exact Int.modEq_zero_iff.mp exact

theorem removeAll_exact {entries : List Counter}
    (enough : ∀ before vote rest, votes = before ++ vote :: rest →
      ∃ count, firstCount entries vote.name = some count ∧
        vote.count ≤ count - total before vote.name ∧
        Fits modulus (count - total before vote.name - vote.count)) :
    (removeAll modulus votes entries).2 = none ∧
      ∀ name, total (removeAll modulus votes entries).1 name =
        total entries name - total votes name := by
  induction votes generalizing entries with
  | nil => simp [removeAll]
  | cons vote rest ih =>
      obtain ⟨count, found, covered, fits⟩ := enough [] vote rest rfl
      simp only [total_nil, sub_zero] at covered fits
      have debited : ∀ before item later, rest = before ++ item :: later →
          ∃ count, firstCount (debit modulus entries vote.name vote.count) item.name = some count ∧
            item.count ≤ count - total before item.name ∧
            Fits modulus (count - total before item.name - item.count) := by
        intro before item later whole
        obtain ⟨held, heldFound, heldCovered, heldFits⟩ :=
          enough (vote :: before) item later (by simp [whole])
        rw [total_cons] at heldCovered heldFits
        rw [firstCount_debit]
        by_cases same : vote.name = item.name
        · rw [if_pos same] at heldCovered heldFits ⊢
          rw [← same, found] at heldFound
          obtain rfl := Option.some.inj heldFound
          refine ⟨count - vote.count, ?_, by rw [← sub_sub] at heldCovered; exact heldCovered,
            by rw [← sub_sub] at heldFits; exact heldFits⟩
          rw [← same, found, Option.map_some]
          exact congrArg some fits
        · rw [if_neg same] at heldCovered heldFits ⊢
          rw [zero_add] at heldCovered heldFits
          exact ⟨held, heldFound, heldCovered, heldFits⟩
      obtain ⟨done, totals⟩ := ih debited
      have notShort : ¬ (firstCount entries vote.name).getD 0 < vote.count := by
        rw [found]
        exact Int.not_lt.mpr covered
      rw [removeAll, if_neg notShort]
      refine ⟨done, fun name => ?_⟩
      rw [totals, total_debit found fits, total_cons]
      split <;> ring

/-- A step that stores votes at one open region without children. -/
structure VotesBooked (table : Table) (region : Nat) (delta : CStr → Int) (adds : CStr → Prop)
    (after : Table) : Prop where
  voting : Voting table region
  frame : CountersOnly table after
  others : ∀ i, i ≠ region → after.node i = table.node i
  totals : ∀ name, total (after.node region).rootCounter name =
    total (table.node region).rootCounter name + delta name
  names_iff : ∀ name, name ∈ names (after.node region).rootCounter ↔
    name ∈ names (table.node region).rootCounter ∨ adds name
  counted : (∃ name, adds name) ∨ (table.node region).hasdata = true →
    (after.node region).hasdata = true
  uncounted : (after.node region).hasdata = false → (table.node region).hasdata = false
  /-- Either nothing is stored, or no region above was counted. -/
  fresh : ((after.node region).rootCounter = (table.node region).rootCounter ∧
      (∀ name, delta name = 0) ∧ ∀ name, ¬ adds name) ∨
    ∀ above, Below table.children above region → above ≠ region →
      (table.node above).hasdata = false

/-- The event books no votes. -/
def Silent (event : Answered) : Prop := ∀ i name, booked event i name = 0 ∧ ¬ Adds event i name

/-- The kinds of steps, as far as votes are concerned. -/
inductive Booking (modulus : Nat) (table : Table) (str : CStr) :
    List Response → Table → Prop
  | idle {answer : List Response} {after : Table} : Silent ⟨table, str, answer⟩ →
      after.size = table.size → after.children = table.children →
      (∀ i, (after.node i).rootCounter = (table.node i).rootCounter ∧
        (after.node i).hasdata = (table.node i).hasdata) → Booking modulus table str answer after
  | votes {answer : List Response} {after : Table} {region : Nat} {delta : CStr → Int}
      {adds : CStr → Prop} : VotesBooked table region delta adds after →
      (∀ i name, booked ⟨table, str, answer⟩ i name = if region = i then delta name else 0) →
      (∀ i name, Adds ⟨table, str, answer⟩ i name ↔ region = i ∧ adds name) →
      Booking modulus table str answer after
  | region {answer : List Response} {parent : Nat} {childname : CStr} :
      Silent ⟨table, str, answer⟩ → parent < table.size →
      Booking modulus table str answer (addChild table parent childname)
  | counted {region : Nat} {after : Table} :
      Silent ⟨table, str, [countAnswer (after.node region)]⟩ →
      command (trimlastenter str) = .countVotes → table.Names (argvpOf str) 1 region →
      (table.node region).hasdata = false →
      aggregate modulus table.size table region = some after →
      Booking modulus table str [countAnswer (after.node region)] after
  | won {after : Table} : Silent ⟨table, str, [winnerAnswer (after.node 0)]⟩ →
      command (trimlastenter str) = .returnWinner → settled (table.node 0) = true →
      (∀ i < table.size, table.children i = [] → settled (table.node i) = true) →
      aggregate modulus table.size table 0 = some after →
      Booking modulus table str [winnerAnswer (after.node 0)] after

theorem silent_of_command (notAdd : command (trimlastenter event.input) ≠ .addVotes)
    (notRemove : command (trimlastenter event.input) ≠ .removeVotes) : Silent event := by
  refine fun i name => ⟨?_, fun adds => notAdd adds.1⟩
  rw [booked]
  split
  · rename_i selected; exact absurd selected notAdd
  · rename_i selected; exact absurd selected notRemove
  · rfl

theorem silent_of_refused (refused : event.output ≠ [.success]) : Silent event :=
  fun _ _ => ⟨booked_of_refused refused, not_adds_of_refused refused⟩

/-- An addition stores its votes where no count overflows and no region above is counted. -/
theorem votesBooked_added (voting : Voting table region)
    (room : ∀ entry ∈ (addAll 0 votes ⟨[], (table.node region).rootCounter⟩).entries,
      Fits modulus entry.count)
    (uncounted : votes ≠ [] → ∀ above, Below table.children above region → above ≠ region →
      (table.node above).hasdata = false) :
    VotesBooked table region (total votes) (· ∈ names votes)
      (table.modify region fun node => { node with
        rootCounter := (addAll modulus votes ⟨[], (table.node region).rootCounter⟩).entries
        hasdata := true }) := by
  refine ⟨voting, storeVotes_frame, fun i other => Table.node_modify_of_ne (Ne.symm other),
    ?_, ?_, ?_, ?_, ?_⟩ <;>
    rw [Table.node_modify_self voting.inside]
  · exact fun name => total_addAll room
  · exact fun name => mem_names_addAll
  · exact fun _ => rfl
  · exact fun flag => by cases flag
  · cases votes with
    | nil => exact .inl ⟨rfl, fun _ => rfl, by simp⟩
    | cons vote rest => exact .inr (uncounted (by simp))

theorem booking_votesAdded {input : CStr} {cursor : Cursor}
    (safe : VoteSafe modulus table str) (selected : command (trimlastenter str) = .addVotes)
    (named : table.Names (argvpOf str) 1 region) (present : (argvpOf str)[2]? = some input)
    (voting : Voting table region)
    (added : addTokens modulus (makeargv (trimwhitespace input) ',')
      ⟨[], (table.node region).rootCounter⟩ = .ok cursor) :
    Booking modulus table str [.success] (table.modify region fun node =>
      { node with rootCounter := cursor.entries, hasdata := true }) := by
  obtain ⟨votes, parsed, rfl⟩ := addTokens_ok added
  have serves : Serves table str region votes := ⟨input, named, present, voting, parsed, .inl selected⟩
  have items := accepted_of_named named present parsed
  have stored := votesBooked_added voting (safe.room region votes serves selected)
    (safe.uncounted region votes serves)
  refine .votes stored (fun i name => ?_) fun i name => ?_
  · simp only [booked, selected, items]
    split <;> rfl
  · simp only [Adds, selected, items, true_and]
    split
    · rename_i same; simp [same]
    · rename_i different; simp [different]

theorem booking_votesRemoved {input : CStr} {entries : List Counter} {stopped : Option CStr}
    (safe : VoteSafe modulus table str) (selected : command (trimlastenter str) = .removeVotes)
    (named : table.Names (argvpOf str) 1 region) (present : (argvpOf str)[2]? = some input)
    (voting : Voting table region)
    (checked : shortNames (table.node region).rootCounter
      (makeargv (trimwhitespace input) ',') = .ok [])
    (removed : removeTokens modulus (makeargv (trimwhitespace input) ',')
      (table.node region).rootCounter = .ok (entries, stopped)) :
    Booking modulus table str [removeAnswer stopped] (table.modify region fun node =>
      { node with rootCounter := entries }) := by
  obtain ⟨votes, parsed, covered, result⟩ := removal_of_checked checked removed
  obtain ⟨rfl, rfl⟩ := Prod.mk.inj result
  have serves : Serves table str region votes :=
    ⟨input, named, present, voting, parsed, .inr ⟨selected, covered⟩⟩
  obtain ⟨done, totals⟩ := removeAll_exact (safe.enough region votes serves selected)
  rw [done]
  have items := accepted_of_named named present parsed
  have stored : VotesBooked table region (fun name => -total votes name) (fun _ => False)
      (table.modify region fun node => { node with
        rootCounter := (removeAll modulus votes (table.node region).rootCounter).1 }) := by
    refine ⟨voting, storeCounters_frame, fun i other => Table.node_modify_of_ne (Ne.symm other),
      ?_, ?_, ?_, ?_, ?_⟩ <;>
      rw [Table.node_modify_self voting.inside]
    · exact fun name => (totals name).trans (sub_eq_add_neg _ _)
    · simp [names_removeAll]
    · simp
    · exact id
    · cases votes with
      | nil => exact .inl ⟨rfl, by simp, fun _ => id⟩
      | cons vote rest => exact .inr (safe.uncounted region _ serves (by simp))
  refine .votes stored (fun i name => ?_) fun i name => ?_
  · simp only [booked, selected, removeAnswer, items]
    split <;> simp
  · simp [Adds, selected]

theorem Step.booking (safe : VoteSafe modulus table str) (step : Step modulus table str answer after) :
    Booking modulus table str answer after := by
  cases step with
  | refused failure =>
      refine .idle (silent_of_refused ?_) rfl rfl fun _ => ⟨rfl, rfl⟩
      intro same
      cases same
      cases failure
  | polls ruled _ _ _ visited =>
      have kept := visitPolls_visited visited
      refine .idle (silent_of_command ?_ ?_) kept.size kept.children_eq
        fun i => ⟨(kept.node i).rootCounter, (kept.node i).hasdata⟩
      · rcases pollRule_eq ruled with ⟨selected, _⟩ | ⟨selected, _⟩ <;> simp [selected]
      · rcases pollRule_eq ruled with ⟨selected, _⟩ | ⟨selected, _⟩ <;> simp [selected]
  | votesAdded selected named present voting added =>
      exact booking_votesAdded safe selected named present voting added
  | votesRemoved selected named present voting checked removed =>
      exact booking_votesRemoved safe selected named present voting checked removed
  | regionAdded selected named =>
      exact .region (silent_of_command (by simp [selected]) (by simp [selected])) named.inside
  | votesRead selected =>
      exact .idle (silent_of_command (by simp [selected]) (by simp [selected])) rfl rfl
        fun _ => ⟨rfl, rfl⟩
  | votesCounted selected named uncounted counted =>
      exact .counted (silent_of_command (by simp [selected]) (by simp [selected])) selected named
        uncounted counted
  | won selected root leaves counted =>
      exact .won (silent_of_command (by simp [selected]) (by simp [selected])) selected root
        leaves counted

end History

end VoteCounting.Server
