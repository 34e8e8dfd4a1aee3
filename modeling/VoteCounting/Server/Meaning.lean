import VoteCounting.Server.Requests
import VoteCounting.Server.Structure

namespace VoteCounting.Server

open Counters CString

section Meaning

variable (modulus : Nat) (table : Table)

def onRegion (region : CStr) (perform : Nat → Answer) : Answer :=
  match table.lookup region with
  | none => .ok ([.noRegion region], table)
  | some i => perform i

def performPolls (rule : PollRule) (already notReady : CStr → Response) (region : CStr) : Answer :=
  onRegion table region fun i =>
    match visitPolls rule (table.size + 1) table (.nameOf i) with
    | none => .error .outOfFuel
    | some (f, after) =>
        if f = 1 then .ok ([.success], after)
        else if f = 0 then .ok ([already region], after)
        else if f = -1 then .ok ([notReady region], after)
        else if f = -2 then .ok ([.noRegion region], after)
        else .ok ([], after)

def performCount (region : CStr) : Answer :=
  onRegion table region fun i =>
    if (table.node i).hasdata then .ok ([.votes (table.node i).rootCounter], table)
    else
      match aggregate modulus table.size table i with
      | none => .error .outOfFuel
      | some after => .ok ([countAnswer (after.node i)], after)

def performAdd (region : CStr) (votes : List Counter) : Answer :=
  onRegion table region fun i =>
    if table.children i ≠ [] then .ok ([.nonLeaf region], table)
    else if !(table.node i).isOpen || (table.node i).closed then .ok ([.regionClosed region], table)
    else .ok ([.success], table.modify i fun node =>
      { node with
        rootCounter := (addAll modulus votes ⟨[], (table.node i).rootCounter⟩).entries
        hasdata := true })

/-- Nothing is removed where one candidate has too few votes; one that occurs twice is found out
only when the first removal is done. -/
def performRemove (region : CStr) (votes : List Counter) : Answer :=
  onRegion table region fun i =>
    if table.children i ≠ [] then .ok ([.nonLeaf region], table)
    else if !(table.node i).isOpen || (table.node i).closed then .ok ([.regionClosed region], table)
    else
      let few := names (votes.filter (short (table.node i).rootCounter))
      if few ≠ [] then .ok ([.insufficient few], table)
      else
        let removed := removeAll modulus votes (table.node i).rootCounter
        .ok ([removeAnswer removed.2], table.modify i fun node => { node with rootCounter := removed.1 })

def Request.perform : Request → Answer
  | .openPolls region => performPolls table openRule .alreadyOpen .reopening region
  | .closePolls region => performPolls table closeRule .alreadyClosed .unopened region
  | .countVotes region => performCount modulus table region
  | .returnWinner => Server.returnWinner modulus table
  | .addRegion parent child =>
      onRegion table parent fun i => .ok ([.regionAdded child], addChild table i child)
  | .addVotes region votes => performAdd modulus table region votes
  | .removeVotes region votes => performRemove modulus table region votes

/-- Requests one after another, with all their answers. -/
def performAll : Table → List Request → Answer
  | table, [] => .ok ([], table)
  | table, request :: rest => do
      let first ← request.perform modulus table
      let later ← performAll first.2 rest
      return (first.1 ++ later.1, later.2)

end Meaning

section Refinement

variable {modulus : Nat} {table : Table} {str : CStr} {argvp : List CStr} {field region : CStr}
  {request : Request} {votes : List Counter} {input : CStr}

theorem answerPolls_perform {rule : PollRule} {already notReady : CStr → Response}
    (first : arg argvp 1 = .ok field) (same : trimwhitespace field = region) :
    answerPolls table argvp (visitPolls rule) already notReady =
      performPolls table rule already notReady region := by
  subst same
  simp only [answerPolls, first, bind, Except.bind, performPolls, onRegion, visitPolls_field]
  cases table.lookup (trimwhitespace field) <;> rfl

theorem countVotes_perform (first : arg argvp 1 = .ok field) (same : trimwhitespace field = region) :
    countVotes modulus table argvp = performCount modulus table region := by
  subst same
  simp only [countVotes, first, bind, Except.bind, performCount, onRegion]
  cases table.lookup (trimwhitespace field) with
  | none => rfl
  | some i =>
      simp only
      split
      · rfl
      · cases aggregate modulus table.size table i with
        | none => rfl
        | some after =>
            simp only [countAnswer]
            split <;> rfl

theorem addVotes_perform (first : arg argvp 1 = .ok field) (same : trimwhitespace field = region)
    (second : arg argvp 2 = .ok input)
    (parsed : parseVotes (makeargv (trimwhitespace input) ',') = .ok votes) :
    answerAddVotes modulus table argvp = performAdd modulus table region votes := by
  subst same
  simp only [answerAddVotes, addVotes, first, second, bind, Except.bind, pure, Except.pure, performAdd,
    onRegion, addTokens_of_parsed parsed]
  cases table.lookup (trimwhitespace field) with
  | none => rfl
  | some i =>
      by_cases inner : table.children i ≠ []
      · simp [inner]
      · by_cases shut : (!(table.node i).isOpen || (table.node i).closed) = true
        · simp only [if_neg inner, if_pos shut]
          rfl
        · simp only [if_neg inner, if_neg shut]
          rfl

theorem removeVotes_perform (first : arg argvp 1 = .ok field) (same : trimwhitespace field = region)
    (second : arg argvp 2 = .ok input)
    (parsed : parseVotes (makeargv (trimwhitespace input) ',') = .ok votes) :
    removeVotes modulus table argvp = performRemove modulus table region votes := by
  subst same
  simp only [removeVotes, first, second, bind, Except.bind, performRemove, onRegion,
    shortNames_of_parsed parsed]
  cases found : table.lookup (trimwhitespace field) with
  | none => rfl
  | some i =>
      simp only [(Table.lookup_some found).2]
      split
      · rfl
      · split
        · rfl
        · by_cases covered : names (votes.filter (short (table.node i).rootCounter)) = []
          · simp only [removeTokens_of_covered parsed covered, covered]
            cases (removeAll modulus votes (table.node i).rootCounter).2 <;> rfl
          · simp only [if_pos covered]

/-- The server does with a string what the request in it means. -/
theorem dispatchCode_perform (found : decode str = some request) :
    dispatchCode modulus table str = request.perform modulus table := by
  have selected := decode_command found
  rw [dispatchCode, selected]
  simp only [decode, selected] at found
  cases request with
  | returnWinner => rfl
  | openPolls region =>
      have named : regionField str = some region := by simpa [Request.command] using found
      obtain ⟨field, present, same⟩ := regionField_eq named
      exact answerPolls_perform present same
  | closePolls region =>
      have named : regionField str = some region := by simpa [Request.command] using found
      obtain ⟨field, present, same⟩ := regionField_eq named
      exact answerPolls_perform present same
  | countVotes region =>
      have named : regionField str = some region := by simpa [Request.command] using found
      obtain ⟨field, present, same⟩ := regionField_eq named
      exact countVotes_perform present same
  | addRegion parent child =>
      obtain ⟨named, childNamed⟩ : regionField str = some parent ∧ childField str = some child := by
        simpa [Request.command, Option.bind_eq_some_iff] using found
      obtain ⟨field, present, same⟩ := regionField_eq named
      obtain ⟨name, namePresent, sameName⟩ := childField_eq childNamed
      simp only [handle, Request.command, addRegion, present, namePresent, same, sameName, bind,
        Except.bind]
      rfl
  | addVotes region votes =>
      obtain ⟨named, listed⟩ : regionField str = some region ∧ votesField str = some votes := by
        simpa [Request.command, Option.bind_eq_some_iff] using found
      obtain ⟨field, present, same⟩ := regionField_eq named
      obtain ⟨input, inputPresent, parsed⟩ := votesField_eq listed
      exact addVotes_perform present same inputPresent parsed
  | removeVotes region votes =>
      obtain ⟨named, listed⟩ : regionField str = some region ∧ votesField str = some votes := by
        simpa [Request.command, Option.bind_eq_some_iff] using found
      obtain ⟨field, present, same⟩ := regionField_eq named
      obtain ⟨input, inputPresent, parsed⟩ := votesField_eq listed
      exact removeVotes_perform present same inputPresent parsed

theorem performAll_append {first later : List Request} {answers more : List Response}
    {middle after : Table} (one : performAll modulus table first = .ok (answers, middle))
    (other : performAll modulus middle later = .ok (more, after)) :
    performAll modulus table (first ++ later) = .ok (answers ++ more, after) := by
  induction first generalizing table answers with
  | nil =>
      cases one
      exact other
  | cons request rest ih =>
      rw [performAll] at one
      obtain ⟨head, performed, one⟩ := bind_ok one
      obtain ⟨tail, remaining, same⟩ := bind_ok one
      cases same
      rw [List.cons_append, performAll, performed]
      simp only [bind, Except.bind, ih remaining]
      simp [pure, Except.pure]

theorem performAll_one {answers : List Response} {after : Table}
    (performed : request.perform modulus table = .ok (answers, after)) :
    performAll modulus table [request] = .ok (answers, after) := by
  rw [performAll, performed]
  simp [bind, Except.bind, performAll, pure, Except.pure]

theorem onRegion_total {perform : Nat → Answer} (total : ∀ i, ∃ result, perform i = .ok result) :
    ∃ result, onRegion table region perform = .ok result := by
  rw [onRegion]
  cases table.lookup region with
  | none => exact ⟨_, rfl⟩
  | some i => exact total i

/-- No request stops the server: both recursions end in a table that is a forest. -/
theorem perform_total (modulus : Nat) (wellFormed : WellFormed table) (request : Request) :
    ∃ result, request.perform modulus table = .ok result := by
  have aggregated : ∀ i, ∃ after, aggregate modulus table.size table i = some after := fun i =>
    aggregate_total modulus wellFormed.forest ⟨Nat.le_add_left _ _, wellFormed.nonempty⟩
  have polled : ∀ rule already notReady region,
      ∃ result, performPolls table rule already notReady region = .ok result := by
    intro rule already notReady region
    refine onRegion_total fun i => ?_
    obtain ⟨f, after, visited⟩ := visitPolls_total rule table (.nameOf i)
    simp only [visited]
    split_ifs <;> exact ⟨_, rfl⟩
  cases request with
  | openPolls region => exact polled _ _ _ region
  | closePolls region => exact polled _ _ _ region
  | countVotes region =>
      refine onRegion_total fun i => ?_
      obtain ⟨after, counted⟩ := aggregated i
      simp only [counted]
      split <;> exact ⟨_, rfl⟩
  | returnWinner =>
      obtain ⟨first, rest, nodes⟩ := List.exists_cons_of_length_pos wellFormed.nonempty
      simp only [Request.perform, Server.returnWinner, nodes, List.head?_cons]
      cases table.lookup first.name with
      | none => exact ⟨_, rfl⟩
      | some root =>
          obtain ⟨after, counted⟩ := aggregated root
          simp only [counted]
          split_ifs <;> exact ⟨_, rfl⟩
  | addRegion parent child => exact onRegion_total fun i => ⟨_, rfl⟩
  | addVotes region votes =>
      refine onRegion_total fun i => ?_
      split_ifs <;> exact ⟨_, rfl⟩
  | removeVotes region votes =>
      refine onRegion_total fun i => ?_
      simp only
      split_ifs <;> exact ⟨_, rfl⟩

end Refinement

end VoteCounting.Server
