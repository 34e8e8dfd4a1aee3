import VoteCounting.Client.Decoding
import VoteCounting.Client.Turns
import VoteCounting.Server.Meaning

namespace VoteCounting.Client

open Counters CString Server Relation

/-- The message for a request, padded with `maxData` blanks or with those of its votes. -/
def encode (maxData : Nat) : Request → CStr
  | .openPolls region => openPolls { maxData } region
  | .closePolls region => closePolls { maxData } region
  | .countVotes region => countVotes { maxData } region
  | .returnWinner => returnWinner { maxData }
  | .addRegion parent child => addRegion { maxData } parent child
  | .addVotes region votes =>
      (printFileIntoData { maxData, tally := votes } ("AV;".toList ++ stringPad region ++ [';'])).1
  | .removeVotes region votes =>
      (printFileIntoData { maxData, tally := votes } ("RV;".toList ++ stringPad region ++ [';'])).1

section Encoding

variable {maxData : Nat} {state : State} {region : CStr} {votes : List Slot} {request : Request}
  {files : CStr → Option (List Char)} {str : CStr}

theorem RegionName.trimmed (proper : RegionName region) : trimwhitespaceBuffer region = region := by
  apply trimwhitespaceBuffer_of_trimmed
  rw [trimwhitespace]
  exact trim_eq_self_of_noBlank proper.noBlank

theorem live_of_votes (proper : ∀ vote ∈ votes, Vote vote) : live votes = votes := by
  rw [live, List.takeWhile_eq_self_iff]
  intro vote member
  have positive := (proper vote member).positive
  simp only [ne_eq, decide_not, Bool.not_eq_eq_eq_not, Bool.not_true, decide_eq_false_iff_not]
  omega

/-- The server reads back every proper request, whatever it is padded with. -/
theorem decode_encode (maxData : Nat) (proper : Proper request) :
    decode (encode maxData request) = some request := by
  cases request with
  | openPolls region =>
      have named := proper.trimmed
      have read :
          decode (openPolls { maxData } region) = some (.openPolls (trimwhitespaceBuffer region)) :=
        RegionName.decode_openPolls (named.symm ▸ proper)
      rwa [named] at read
  | closePolls region =>
      have named := proper.trimmed
      have read :
          decode (closePolls { maxData } region) =
          some (.closePolls (trimwhitespaceBuffer region)) :=
        RegionName.decode_closePolls (named.symm ▸ proper)
      rwa [named] at read
  | countVotes region =>
      have named := proper.trimmed
      have read :
          decode (countVotes { maxData } region) =
          some (.countVotes (trimwhitespaceBuffer region)) :=
        RegionName.decode_countVotes (named.symm ▸ proper)
      rwa [named] at read
  | returnWinner => exact decode_returnWinner
  | addRegion parent child =>
      obtain ⟨parentProper, childProper⟩ := proper
      have named := parentProper.trimmed
      have childNamed := childProper.trimmed
      have read : decode (addRegion { maxData } parent child) =
          some (.addRegion (trimwhitespaceBuffer parent) (trimwhitespaceBuffer child)) :=
        RegionName.decode_addRegion (named.symm ▸ parentProper) (childNamed.symm ▸ childProper)
      rwa [named, childNamed] at read
  | addVotes region votes =>
      obtain ⟨regionProper, nonempty, votesProper⟩ := proper
      have named := regionProper.trimmed
      have same := live_of_votes votesProper
      have read := RegionName.decode_addVotes (named.symm ▸ regionProper) { maxData, tally := votes }
        (same.symm ▸ votesProper) (same.symm ▸ nonempty)
      rwa [named, same] at read
  | removeVotes region votes =>
      obtain ⟨regionProper, nonempty, votesProper⟩ := proper
      have named := regionProper.trimmed
      have same := live_of_votes votesProper
      have read := RegionName.decode_removeVotes (named.symm ▸ regionProper) { maxData, tally := votes }
        (same.symm ▸ votesProper) (same.symm ▸ nonempty)
      rwa [named, same] at read

theorem regionRequest_trimmed (maxData : Nat) (code name ending : CStr) :
    regionRequest maxData code (trimwhitespaceBuffer name) ending =
      regionRequest maxData code name ending := by
  rw [regionRequest, regionRequest, trimwhitespaceBuffer_idem]

theorem addRegion_trimmed (maxData : Nat) (parent child : CStr) :
    addRegion { maxData } (trimwhitespaceBuffer parent) (trimwhitespaceBuffer child) =
      addRegion { maxData } parent child := by
  rw [addRegion, regionRequest_trimmed, trimwhitespaceBuffer_idem, addRegion]

/-- Of the tally only the slots in use are printed. -/
theorem printFileIntoData_live (maxData : Nat) (tally : List Slot) (code : CStr) :
    (printFileIntoData { maxData, tally := live tally } code).1 =
      (printFileIntoData { maxData, tally } code).1 := by
  have again : live (live tally) = live tally := List.takeWhile_idem ..
  simp only [printFileIntoData, again]

/-- What the client sends for a line is the message for what the line asks for. -/
theorem dispatchLine_encode (complete : asked files state str = some request) :
    ∃ message after, dispatchLine files state str = some (some message, after) ∧
      message = encode state.maxData request := by
  rw [asked] at complete
  rw [dispatchLine]
  simp only at complete ⊢
  split at complete
  case h_8 => cases complete
  all_goals
    rename_i first
    obtain ⟨word, found, cmd⟩ := first_word first
    simp only [found, cmd]
  case h_4 =>
    cases complete
    exact ⟨_, _, rfl, rfl⟩
  case h_5 =>
    obtain ⟨parent, named, complete⟩ := Option.bind_eq_some_iff.mp complete
    obtain ⟨child, alsoNamed, rfl⟩ := Option.map_eq_some_iff.mp complete
    obtain rfl := word_present named
    obtain rfl := word_present alsoNamed
    exact ⟨_, _, rfl, (addRegion_trimmed ..).symm⟩
  case h_6 | h_7 =>
    obtain ⟨region, named, complete⟩ := Option.bind_eq_some_iff.mp complete
    obtain ⟨votes, counted, rfl⟩ := Option.map_eq_some_iff.mp complete
    obtain rfl := word_present named
    obtain ⟨text, opened, rfl⟩ := file_present counted
    simp only [addVotes, removeVotes, voteRequest, opened]
    exact ⟨_, _, rfl, (printFileIntoData_live ..).symm⟩
  all_goals
    obtain ⟨region, named, rfl⟩ := Option.map_eq_some_iff.mp complete
    obtain rfl := word_present named
    exact ⟨_, _, rfl, (regionRequest_trimmed ..).symm⟩

end Encoding

/-- What the lines of a request file ask for, where each one asks for something. -/
def asks (files : CStr → Option (List Char)) : State → List (List Char) → Option (List Request)
  | _, [] => some []
  | state, line :: lines => do
      let request ← asked files state (strcpy line)
      let sent ← dispatchLine files state (strcpy line)
      let later ← asks files sent.2 lines
      return request :: later

section Files

variable {modulus : Nat} {files : CStr → Option (List Char)} {state : State} {table after : Table}
  {lines : List (List Char)} {commands : List Request} {session left right first : Session}

theorem asks_cons {line : List Char} (complete : asks files state (line :: lines) = some commands) :
    ∃ request sent later, asked files state (strcpy line) = some request ∧
      dispatchLine files state (strcpy line) = some (some (encode state.maxData request), sent) ∧
      asks files sent lines = some later ∧ commands = request :: later := by
  obtain ⟨request, found, complete⟩ := Option.bind_eq_some_iff.mp complete
  obtain ⟨sent, dispatched, complete⟩ := Option.bind_eq_some_iff.mp complete
  obtain ⟨later, rest, same⟩ := Option.bind_eq_some_iff.mp complete
  obtain ⟨message, next, encoded, rfl⟩ := dispatchLine_encode found
  obtain rfl := Option.some.inj (dispatched.symm.trans encoded)
  exact ⟨request, next, later, found, encoded, rest, (Option.some.inj same).symm⟩

theorem not_unmatched_of_asks (complete : asks files state lines = some commands) :
    ∀ line ∈ lines, ¬ Unmatched (strcpy line) := by
  induction lines generalizing state commands with
  | nil => exact fun line member => absurd member List.not_mem_nil
  | cons line rest ih =>
      obtain ⟨request, sent, later, found, dispatched, remaining, rfl⟩ := asks_cons complete
      refine List.forall_mem_cons.mpr ⟨fun unmatched => ?_, ih remaining⟩
      rw [dispatchLine_unmatched unmatched] at dispatched
      cases dispatched

/-- The message for a request is answered once, by what it means. -/
theorem performs (modulus : Nat) (wellFormed : WellFormed table) {request : Request}
    (proper : Proper request) : ∃ response after,
      request.perform modulus table = .ok ([response], after) ∧
      (∀ maxData, dispatchCode modulus table (encode maxData request) = .ok ([response], after)) ∧
      WellFormed after := by
  obtain ⟨⟨answer, after⟩, performed⟩ := perform_total modulus wellFormed request
  have dispatched : ∀ maxData,
      dispatchCode modulus table (encode maxData request) = .ok (answer, after) := fun maxData =>
    (dispatchCode_perform (decode_encode maxData proper)).trans performed
  obtain ⟨response, rfl⟩ := (dispatchCode_step wellFormed.nonempty (dispatched 0)).single
  exact ⟨response, after, performed, dispatched, wellFormed.step (dispatched 0)⟩

/-- A session does what its lines ask for. -/
theorem session_performs (modulus : Nat) (wellFormed : WellFormed table)
    (complete : asks files state lines = some commands)
    (proper : ∀ command ∈ commands, Proper command) :
    ∃ answers after last, performAll modulus table commands = .ok (answers, after) ∧
      ReflTransGen (Advances modulus files) ⟨.ready lines, state, [], [], some table⟩
        ⟨.closed, last, [], [], some after⟩ := by
  induction lines generalizing state table commands with
  | nil =>
      cases complete
      exact ⟨[], table, state, rfl, .single ⟨.client, rfl⟩⟩
  | cons line rest ih =>
      obtain ⟨request, sent, later, _, dispatched, remaining, rfl⟩ := asks_cons complete
      obtain ⟨requestProper, restProper⟩ := List.forall_mem_cons.mp proper
      obtain ⟨response, next, performed, dispatches, formed⟩ :=
        performs modulus wellFormed requestProper
      have answered := dispatches state.maxData
      obtain ⟨answers, after, last, done, reached⟩ := ih formed remaining restProper
      refine ⟨[response] ++ answers, after, last, ?_, ?_⟩
      · rw [performAll, performed]
        simp only [bind, Except.bind, done]
        rfl
      · have sends : Advances modulus files ⟨.ready (line :: rest), state, [], [], some table⟩
            ⟨.waiting rest, sent, [encode state.maxData request], [], some table⟩ :=
          ⟨.client, by rw [advance, advanceClient]; simp only [dispatched]; rfl⟩
        have answers : Advances modulus files
            ⟨.waiting rest, sent, [encode state.maxData request], [], some table⟩
            ⟨.waiting rest, sent, [], [response], some next⟩ :=
          ⟨.server, by rw [advance, advanceServer]; simp only [answered]; rfl⟩
        exact .head sends (.head answers (.head ⟨.client, rfl⟩ reached))

theorem Lockstep.unique (lockstep : Lockstep session) (one : Advances modulus files session left)
    (other : Advances modulus files session right) : left = right := by
  obtain ⟨party, one⟩ := one
  obtain ⟨otherParty, other⟩ := other
  cases party <;> cases otherParty
  · exact Option.some.inj (one.symm.trans other)
  · cases lockstep with
    | requested => cases one
    | ready | answered | failed | closed | stopped => cases other
  · cases lockstep with
    | requested => cases other
    | ready | answered | failed | closed | stopped => cases one
  · exact Option.some.inj (one.symm.trans other)

/-- In lockstep there is one way to go. -/
theorem reached_comparable
    (lockstep : ∀ session, ReflTransGen (Advances modulus files) first session → Lockstep session)
    (one : ReflTransGen (Advances modulus files) first left)
    (other : ReflTransGen (Advances modulus files) first right) :
    ReflTransGen (Advances modulus files) left right ∨
      ReflTransGen (Advances modulus files) right left := by
  induction one with
  | refl => exact .inl other
  | tail before advanced ih =>
      rcases ih with onward | back
      · rcases onward.cases_head with rfl | ⟨next, advances, onward⟩
        · exact .inr (.single advanced)
        · obtain rfl := (lockstep _ before).unique advanced advances
          exact .inl onward
      · exact .inr (back.tail advanced)

theorem not_advances_closed {last : State} {server : Option Table} :
    ¬ Advances modulus files ⟨.closed, last, [], [], server⟩ session := by
  rintro ⟨party, advanced⟩
  cases party with
  | client => cases advanced
  | server => cases server <;> cases advanced

theorem failed_stays (reached : ReflTransGen (Advances modulus files) session left)
    (failed : session.server = none) : left.server = none := by
  induction reached with
  | refl => exact failed
  | tail _ advanced ih =>
      obtain ⟨party, advanced⟩ := advanced
      cases party with
      | client => exact (advanceClient_table advanced).trans ih
      | server =>
          rw [advance, advanceServer, ih] at advanced
          cases advanced

/-- Wherever such a session is, it comes to its end, and the server lives. -/
theorem asks_reached (wellFormed : WellFormed table)
    (complete : asks files state lines = some commands) (proper : ∀ command ∈ commands, Proper command)
    (reached : ReflTransGen (Advances modulus files)
      ⟨.ready lines, state, [], [], some table⟩ session) :
    ∃ answers after last, performAll modulus table commands = .ok (answers, after) ∧
      ReflTransGen (Advances modulus files) session ⟨.closed, last, [], [], some after⟩ := by
  obtain ⟨answers, after, last, done, ended⟩ :=
    session_performs modulus wellFormed complete proper
  have lockstep : ∀ between, ReflTransGen (Advances modulus files)
      ⟨.ready lines, state, [], [], some table⟩ between → Lockstep between := by
    intro between reached
    rcases lockstep_or_stuck (.ready wellFormed) reached with lockstep | ⟨_, line, member, unmatched⟩
    · exact lockstep
    · exact absurd unmatched (not_unmatched_of_asks complete line member)
  refine ⟨answers, after, last, done, ?_⟩
  rcases reached_comparable lockstep reached ended with onward | back
  · exact onward
  · rcases back.cases_head with same | ⟨next, advances, _⟩
    · exact same ▸ .refl
    · exact absurd advances not_advances_closed

end Files

section Clients

variable {n modulus : Nat} {files : Fin n → CStr → Option (List Char)} {requests : Fin n → List Char}
  {commands : Fin n → List Request} {start after : Table} {service : Service n} {dag : CStr}
  {order : List (Fin n)} {history : List (Event (Service n) (Move n) Unit)}

/-- Sessions one after another do what all their request files together ask for. -/
theorem Turns.performs (wellFormed : WellFormed start)
    (complete : ∀ i, asks (files i) {} (getlines (requests i)) = some (commands i))
    (proper : ∀ i, ∀ command ∈ commands i, Proper command)
    (turns : Turns modulus files requests start order after) :
    ∃ answers, performAll modulus start (order.flatMap commands) = .ok (answers, after) := by
  induction turns with
  | nil => exact ⟨[], rfl⟩
  | @snoc past i before after session turns reached ended nothing alive ih =>
      obtain ⟨answers, done⟩ := ih
      obtain ⟨more, last, _, performed, onward⟩ :=
        asks_reached (turns.wellFormed wellFormed) (complete i) (proper i) reached
      have same : after = last := by
        rcases onward.cases_head with rfl | ⟨next, ⟨party, advanced⟩, _⟩
        · exact (Option.some.inj alive).symm
        · cases party with
          | client =>
              rw [advance, advanceClient_isOver ended] at advanced
              cases advanced
          | server =>
              rw [advance, advanceServer, nothing] at advanced
              simp at advanced
      rw [List.flatMap_append, List.flatMap_singleton]
      exact ⟨answers ++ more, performAll_append done (same ▸ performed)⟩

theorem InTurn.alive (inTurn : InTurn modulus files requests start service)
    (wellFormed : WellFormed start)
    (complete : ∀ i, asks (files i) {} (getlines (requests i)) = some (commands i))
    (proper : ∀ i, ∀ command ∈ commands i, Proper command) : service.server ≠ none := by
  intro failed
  cases serving : service.serving with
  | none =>
      obtain ⟨after, present, _⟩ := inTurn.between serving
      cases failed.symm.trans present
  | some i =>
      obtain ⟨_, before, _, turns, reached⟩ := inTurn.current i serving
      obtain ⟨_, after, last, _, onward⟩ :=
        asks_reached (turns.wellFormed wellFormed) (complete i) (proper i) reached
      cases failed_stays onward failed

def twoCommands : Fin 2 → List Request := ![[.returnWinner], [.openPolls ['R']]]

theorem two_clients_ask : ∀ i, asks (fun _ => none) {} (getlines
    ((!["Return_Winner\n".toList, "Open_Polls R\n".toList] : Fin 2 → List Char) i)) =
      some (twoCommands i) := by
  decide

theorem two_clients_proper : ∀ i, ∀ command ∈ twoCommands i, Proper command := by
  have visible : ∀ c ∈ ['R'], ¬ isspace c := List.forall_mem_singleton.mpr (by decide)
  exact Fin.forall_fin_two.mpr ⟨List.forall_mem_singleton.mpr trivial,
    List.forall_mem_singleton.mpr ⟨by decide, visible, by decide⟩⟩

end Clients

end VoteCounting.Client
