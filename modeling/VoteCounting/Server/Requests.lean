import VoteCounting.Server.Counts

namespace VoteCounting.Server

open Counters CString

/-- A thread that keeps reading has made a run of the server and sent all its answers. -/
theorem runThread_run {modulus : Nat} {bytes : List Char} {buffer left : CStr}
    {sent sent' : List Response} {table after : Table}
    (served : runThread (serveRequest modulus) bytes ⟨buffer, sent, table⟩ = .ok ⟨left, sent', after⟩) :
    ∃ history, Run (dispatchCode modulus) table history after ∧
      sent' = sent ++ history.flatMap Event.output := by
  induction bytes generalizing buffer sent table with
  | nil =>
      cases served
      exact ⟨[], .nil, by simp⟩
  | cons byte rest ih =>
      rw [runThread] at served
      split at served
      · obtain ⟨server, dispatched, served⟩ := bind_ok served
        obtain ⟨answer, answered, same⟩ := bind_ok dispatched
        cases same
        obtain ⟨history, run, outputs⟩ := ih served
        refine ⟨⟨table, buffer, answer.1⟩ :: history, .cons answered run, ?_⟩
        rw [outputs, List.flatMap_cons, List.append_assoc]
      · exact ih served

inductive Request where
  | openPolls (region : CStr)
  | closePolls (region : CStr)
  | countVotes (region : CStr)
  | returnWinner
  | addRegion (parent child : CStr)
  | addVotes (region : CStr) (votes : List Counter)
  | removeVotes (region : CStr) (votes : List Counter)
deriving DecidableEq, Repr

def regionField (str : CStr) : Option CStr := (argvpOf str)[1]?.map trimwhitespace

def childField (str : CStr) : Option CStr := (argvpOf str)[2]?.map trimwhitespace

def votesField (str : CStr) : Option (List Counter) :=
  (argvpOf str)[2]?.bind fun input => (parseVotes (makeargv (trimwhitespace input) ',')).toOption

/-- The request a string stands for, where it has all its fields. -/
def decode (str : CStr) : Option Request :=
  match command (trimlastenter str) with
  | .returnWinner => some .returnWinner
  | .openPolls => (regionField str).map .openPolls
  | .closePolls => (regionField str).map .closePolls
  | .countVotes => (regionField str).map .countVotes
  | .addRegion => (regionField str).bind fun parent => (childField str).map (.addRegion parent)
  | .addVotes => (regionField str).bind fun region => (votesField str).map (.addVotes region)
  | .removeVotes => (regionField str).bind fun region => (votesField str).map (.removeVotes region)
  | .invalid => none

def Request.command : Request → Command
  | openPolls _ => .openPolls
  | closePolls _ => .closePolls
  | countVotes _ => .countVotes
  | returnWinner => .returnWinner
  | addRegion _ _ => .addRegion
  | addVotes _ _ => .addVotes
  | removeVotes _ _ => .removeVotes

section Reading

variable {modulus : Nat} {table : Table} {str : CStr} {argvp : List CStr} {region child : CStr}
  {tokens : List CStr} {votes entries : List Counter}

theorem regionField_eq (found : regionField str = some region) :
    ∃ field, arg (argvpOf str) 1 = .ok field ∧ trimwhitespace field = region := by
  obtain ⟨field, present, trimmed⟩ := Option.map_eq_some_iff.mp found
  exact ⟨field, by rw [arg, present], trimmed⟩

theorem childField_eq (found : childField str = some child) :
    ∃ field, arg (argvpOf str) 2 = .ok field ∧ trimwhitespace field = child := by
  obtain ⟨field, present, trimmed⟩ := Option.map_eq_some_iff.mp found
  exact ⟨field, by rw [arg, present], trimmed⟩

theorem votesField_eq (found : votesField str = some votes) :
    ∃ input, arg (argvpOf str) 2 = .ok input ∧
      parseVotes (makeargv (trimwhitespace input) ',') = .ok votes := by
  obtain ⟨input, present, parsed⟩ := Option.bind_eq_some_iff.mp found
  refine ⟨input, by rw [arg, present], ?_⟩
  cases result : parseVotes (makeargv (trimwhitespace input) ',') with
  | error fault => rw [result] at parsed; cases parsed
  | ok items =>
      rw [result] at parsed
      cases parsed
      rfl

/-- The test of the first pass of `Remove_Votes` on a parsed item. -/
def short (entries : List Counter) (vote : Counter) : Bool :=
  match firstCount entries vote.name with
  | none => true
  | some count => count < vote.count

theorem tooFew_of_entry {token : CStr} {vote : Counter} (parsed : voteEntry token = .ok vote) :
    tooFew entries token vote.name = .ok (short entries vote) := by
  obtain ⟨amount, _, present, same⟩ := voteEntry_ok parsed
  rw [tooFew, short]
  cases firstCount entries vote.name with
  | none => rfl
  | some count =>
      simp only [present, same]
      rfl

theorem shortNames_of_parsed (parsed : parseVotes tokens = .ok votes) :
    shortNames entries tokens = .ok (names (votes.filter (short entries))) := by
  induction tokens generalizing votes with
  | nil => cases parsed; rfl
  | cons token rest ih =>
      obtain ⟨vote, others, first, remaining, rfl⟩ := parseVotes_cons_ok parsed
      obtain ⟨_, named, _, _⟩ := voteEntry_ok first
      have later := ih remaining
      simp only [shortNames, named, tooFew_of_entry first, later, bind, Except.bind, List.filter_cons]
      cases short entries vote <;> rfl

/-- Where the first pass reports nothing the second one works on the parsed items. -/
theorem removeTokens_of_covered (parsed : parseVotes tokens = .ok votes)
    (covered : names (votes.filter (short entries)) = []) :
    removeTokens modulus tokens entries = .ok (removeAll modulus votes entries) := by
  have checked : shortNames entries tokens = .ok [] := by rw [shortNames_of_parsed parsed, covered]
  obtain ⟨items, alsoParsed, enough⟩ := shortNames_nil_iff.mp checked
  obtain rfl := Except.ok.inj (parsed.symm.trans alsoParsed)
  exact removeTokens_of_parsed parsed fun vote member => (enough vote member).mem_names

end Reading

section Equal

variable {modulus : Nat} {table : Table} {left right : CStr} {request : Request}
  {argvp argvp' : List CStr}

theorem answerPolls_congr {rule : PollRule} {already notReady : CStr → Response} {field field' : CStr}
    (first : arg argvp 1 = .ok field) (second : arg argvp' 1 = .ok field')
    (same : trimwhitespace field = trimwhitespace field') :
    answerPolls table argvp (visitPolls rule) already notReady =
      answerPolls table argvp' (visitPolls rule) already notReady := by
  simp only [answerPolls, first, second, bind, Except.bind]
  rw [visitPolls_field, visitPolls_field, same]

theorem addVotes_congr {field field' input input' : CStr} {votes : List Counter}
    (first : arg argvp 1 = .ok field) (second : arg argvp' 1 = .ok field')
    (same : trimwhitespace field = trimwhitespace field')
    (firstInput : arg argvp 2 = .ok input) (secondInput : arg argvp' 2 = .ok input')
    (parsed : parseVotes (makeargv (trimwhitespace input) ',') = .ok votes)
    (alsoParsed : parseVotes (makeargv (trimwhitespace input') ',') = .ok votes) :
    addVotes modulus table argvp = addVotes modulus table argvp' := by
  simp only [addVotes, first, second, firstInput, secondInput, bind, Except.bind, same,
    addTokens_of_parsed parsed, addTokens_of_parsed alsoParsed]

theorem removeVotes_congr {field field' input input' : CStr} {votes : List Counter}
    (first : arg argvp 1 = .ok field) (second : arg argvp' 1 = .ok field')
    (same : trimwhitespace field = trimwhitespace field')
    (firstInput : arg argvp 2 = .ok input) (secondInput : arg argvp' 2 = .ok input')
    (parsed : parseVotes (makeargv (trimwhitespace input) ',') = .ok votes)
    (alsoParsed : parseVotes (makeargv (trimwhitespace input') ',') = .ok votes) :
    removeVotes modulus table argvp = removeVotes modulus table argvp' := by
  simp only [removeVotes, first, second, firstInput, secondInput, bind, Except.bind, same,
    shortNames_of_parsed parsed, shortNames_of_parsed alsoParsed]
  cases table.lookup (trimwhitespace field') with
  | none => rfl
  | some i =>
      by_cases covered : names (votes.filter (short (table.node i).rootCounter)) = []
      · simp only [removeTokens_of_covered parsed covered, removeTokens_of_covered alsoParsed covered]
      · simp only [if_pos covered]

theorem decode_command (found : decode left = some request) :
    command (trimlastenter left) = request.command := by
  rw [decode] at found
  split at found
  all_goals
    rename_i selected
    rw [selected]
  · cases found
    rfl
  · obtain ⟨region, _, rfl⟩ := Option.map_eq_some_iff.mp found
    rfl
  · obtain ⟨region, _, rfl⟩ := Option.map_eq_some_iff.mp found
    rfl
  · obtain ⟨region, _, rfl⟩ := Option.map_eq_some_iff.mp found
    rfl
  · obtain ⟨parent, _, found⟩ := Option.bind_eq_some_iff.mp found
    obtain ⟨child, _, rfl⟩ := Option.map_eq_some_iff.mp found
    rfl
  · obtain ⟨region, _, found⟩ := Option.bind_eq_some_iff.mp found
    obtain ⟨votes, _, rfl⟩ := Option.map_eq_some_iff.mp found
    rfl
  · obtain ⟨region, _, found⟩ := Option.bind_eq_some_iff.mp found
    obtain ⟨votes, _, rfl⟩ := Option.map_eq_some_iff.mp found
    rfl
  · cases found

theorem regionField_agree {region : CStr} (first : regionField left = some region)
    (second : regionField right = some region) :
    ∃ field field', arg (argvpOf left) 1 = .ok field ∧ arg (argvpOf right) 1 = .ok field' ∧
      trimwhitespace field = trimwhitespace field' := by
  obtain ⟨field, present, trimmed⟩ := regionField_eq first
  obtain ⟨field', present', trimmed'⟩ := regionField_eq second
  exact ⟨field, field', present, present', trimmed.trans trimmed'.symm⟩

theorem childField_agree {child : CStr} (first : childField left = some child)
    (second : childField right = some child) :
    ∃ field field', arg (argvpOf left) 2 = .ok field ∧ arg (argvpOf right) 2 = .ok field' ∧
      trimwhitespace field = trimwhitespace field' := by
  obtain ⟨field, present, trimmed⟩ := childField_eq first
  obtain ⟨field', present', trimmed'⟩ := childField_eq second
  exact ⟨field, field', present, present', trimmed.trans trimmed'.symm⟩

/-- The answer to a request depends on nothing but what is read out of it. -/
theorem dispatchCode_congr (first : decode left = some request) (second : decode right = some request) :
    dispatchCode modulus table left = dispatchCode modulus table right := by
  have selected := decode_command first
  have alsoSelected := decode_command second
  rw [dispatchCode, dispatchCode, selected, alsoSelected]
  simp only [decode, selected, alsoSelected] at first second
  cases request with
  | returnWinner => rfl
  | openPolls region =>
      have named : regionField left = some region := by simpa [Request.command] using first
      have named' : regionField right = some region := by simpa [Request.command] using second
      obtain ⟨field, field', present, present', same⟩ := regionField_agree named named'
      exact answerPolls_congr present present' same
  | closePolls region =>
      have named : regionField left = some region := by simpa [Request.command] using first
      have named' : regionField right = some region := by simpa [Request.command] using second
      obtain ⟨field, field', present, present', same⟩ := regionField_agree named named'
      exact answerPolls_congr present present' same
  | countVotes region =>
      have named : regionField left = some region := by simpa [Request.command] using first
      have named' : regionField right = some region := by simpa [Request.command] using second
      obtain ⟨field, field', present, present', same⟩ := regionField_agree named named'
      simp only [handle, Request.command, Server.countVotes, present, present', same, bind, Except.bind]
  | addRegion parent child =>
      obtain ⟨named, childNamed⟩ : regionField left = some parent ∧ childField left = some child := by
        simpa [Request.command, Option.bind_eq_some_iff] using first
      obtain ⟨named', childNamed'⟩ :
        regionField right = some parent ∧ childField right = some child := by
        simpa [Request.command, Option.bind_eq_some_iff] using second
      obtain ⟨field, field', present, present', same⟩ := regionField_agree named named'
      obtain ⟨name, name', namePresent, namePresent', sameName⟩ :=
        childField_agree childNamed childNamed'
      simp only [handle, Request.command, Server.addRegion, present, present', namePresent,
        namePresent', same, sameName, bind, Except.bind]
  | addVotes region votes =>
      obtain ⟨named, listed⟩ : regionField left = some region ∧ votesField left = some votes := by
        simpa [Request.command, Option.bind_eq_some_iff] using first
      obtain ⟨named', listed'⟩ : regionField right = some region ∧ votesField right = some votes := by
        simpa [Request.command, Option.bind_eq_some_iff] using second
      obtain ⟨field, field', present, present', same⟩ := regionField_agree named named'
      obtain ⟨input, inputPresent, parsed⟩ := votesField_eq listed
      obtain ⟨input', inputPresent', parsed'⟩ := votesField_eq listed'
      simp only [handle, Request.command, answerAddVotes,
        addVotes_congr present present' same inputPresent inputPresent' parsed parsed',
          present, present',
        same, bind, Except.bind]
  | removeVotes region votes =>
      obtain ⟨named, listed⟩ : regionField left = some region ∧ votesField left = some votes := by
        simpa [Request.command, Option.bind_eq_some_iff] using first
      obtain ⟨named', listed'⟩ : regionField right = some region ∧ votesField right = some votes := by
        simpa [Request.command, Option.bind_eq_some_iff] using second
      obtain ⟨field, field', present, present', same⟩ := regionField_agree named named'
      obtain ⟨input, inputPresent, parsed⟩ := votesField_eq listed
      obtain ⟨input', inputPresent', parsed'⟩ := votesField_eq listed'
      exact removeVotes_congr present present' same inputPresent inputPresent' parsed parsed'

end Equal

end VoteCounting.Server
