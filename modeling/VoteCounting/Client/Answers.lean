import VoteCounting.Client.Commands
import VoteCounting.Server.Election

namespace VoteCounting.Client

open Counters CString Server

/-- The response the client takes next. -/
def Session.taken (session : Session) : Option Response :=
  match session.client with
  | .waiting _ => session.toClient.head?
  | .ready _ | .closed | .stopped => none

/-- What a client has been answered. -/
def received {n : Nat} (history : List (Event (Service n) (Move n) Unit)) (i : Fin n) :
    List Response :=
  history.filterMap fun event =>
    if event.input = .client i then (event.before.view i).taken else none

section Handling

variable (modulus : Nat) (files : CStr → Option (List Char)) (start : Table) (commands : List Request)

/-- Where a session is in the commands of its file, and what the client has been answered: the
answers to the commands done, except the one in flight. -/
inductive Handling : Session → List Response → Prop
  | ready {lines : List (List Char)} {state : State} {table : Table} {done rest : List Request}
      {got : List Response} (asked : asks files state lines = some rest)
      (split : commands = done ++ rest) (performed : performAll modulus start done = .ok (got, table)) :
      Handling ⟨.ready lines, state, [], [], some table⟩ got
  | requested {lines : List (List Char)} {state : State} {table : Table} {done rest : List Request}
      {request : Request} {got : List Response} (maxData : Nat)
      (asked : asks files state lines = some rest) (split : commands = done ++ request :: rest)
      (performed : performAll modulus start done = .ok (got, table)) :
      Handling ⟨.waiting lines, state, [encode maxData request], [], some table⟩ got
  | answered {lines : List (List Char)} {state : State} {table : Table} {done rest : List Request}
      {got : List Response} {response : Response} (asked : asks files state lines = some rest)
      (split : commands = done ++ rest)
      (performed : performAll modulus start done = .ok (got ++ [response], table)) :
      Handling ⟨.waiting lines, state, [], [response], some table⟩ got
  | closed {state : State} {table : Table} {got : List Response}
      (performed : performAll modulus start commands = .ok (got, table)) :
      Handling ⟨.closed, state, [], [], some table⟩ got

variable {modulus files start commands} {session after : Session} {got : List Response}

theorem Handling.client (handling : Handling modulus files start commands session got)
    (advanced : advanceClient files session = some after) :
    Handling modulus files start commands after (got ++ session.taken.toList) := by
  cases handling with
  | @ready lines state table done rest got asked split performed =>
      rw [Session.taken, Option.toList_none, List.append_nil]
      cases lines with
      | nil =>
          cases advanced
          cases asked
          rw [List.append_nil] at split
          exact .closed (split ▸ performed)
      | cons line lines =>
          obtain ⟨request, sent, later, _, dispatched, remaining, rfl⟩ := asks_cons asked
          rw [advanceClient] at advanced
          simp only [dispatched] at advanced
          cases advanced
          exact .requested _ remaining split performed
  | requested => cases advanced
  | answered asked split performed =>
      cases advanced
      exact .ready asked split performed
  | closed => cases advanced

/-- Every proper command has one answer. -/
theorem performAll_length {table : Table} {answers : List Response} (wellFormed : WellFormed start)
    (proper : ∀ command ∈ commands, Proper command)
    (performed : performAll modulus start commands = .ok (answers, table)) :
    answers.length = commands.length ∧ WellFormed table := by
  induction commands generalizing start answers with
  | nil =>
      cases performed
      exact ⟨rfl, wellFormed⟩
  | cons request rest ih =>
      obtain ⟨own, others⟩ := List.forall_mem_cons.mp proper
      obtain ⟨response, middle, first, _, formed⟩ := performs modulus wellFormed own
      rw [performAll] at performed
      obtain ⟨head, one, performed⟩ := bind_ok performed
      obtain ⟨tail, remaining, same⟩ := bind_ok performed
      cases one.symm.trans first
      cases same
      obtain ⟨count, last⟩ := ih formed others remaining
      exact ⟨by simp [count], last⟩

theorem Handling.server (wellFormed : WellFormed start) (proper : ∀ command ∈ commands, Proper command)
    (handling : Handling modulus files start commands session got)
    (advanced : advanceServer modulus session = some after) :
    Handling modulus files start commands after got := by
  cases handling with
  | ready | answered | closed => cases advanced
  | @requested lines state table done rest request got maxData asked split performed =>
      subst split
      obtain ⟨_, formed⟩ := performAll_length wellFormed
        (fun command held => proper command (List.mem_append_left _ held)) performed
      obtain ⟨response, next, one, dispatched, _⟩ :=
        performs modulus formed (proper request (by simp))
      rw [advanceServer] at advanced
      simp only [dispatched] at advanced
      cases advanced
      have split : done ++ request :: rest = (done ++ [request]) ++ rest := by simp
      exact .answered asked split (performAll_append performed (performAll_one one))

/-- A session that is over has been answered all its commands. -/
theorem Handling.ended (handling : Handling modulus files start commands session got)
    (ended : session.client.isOver = true) : session.client = .closed ∧ session.toServer = [] ∧
      ∃ table, session.server = some table ∧ performAll modulus start commands = .ok (got, table) := by
  cases handling with
  | ready | requested | answered => cases ended
  | closed performed => exact ⟨rfl, rfl, _, rfl, performed⟩

/-- At most one answer is in flight. -/
theorem Handling.sofar (handling : Handling modulus files start commands session got) :
    ∃ done rest flying table, commands = done ++ rest ∧ session.server = some table ∧
      performAll modulus start done = .ok (got ++ flying, table) ∧ flying.length ≤ 1 := by
  cases handling with
  | ready asked split performed =>
      exact ⟨_, _, [], _, split, rfl, (List.append_nil _).symm ▸ performed, Nat.zero_le 1⟩
  | requested maxData asked split performed =>
      exact ⟨_, _, [], _, split, rfl, (List.append_nil _).symm ▸ performed, Nat.zero_le 1⟩
  | answered asked split performed => exact ⟨_, _, _, _, split, rfl, performed, le_refl 1⟩
  | closed performed =>
      exact ⟨_, [], [], _, (List.append_nil _).symm, rfl, (List.append_nil _).symm ▸ performed,
        Nat.zero_le 1⟩

end Handling

section Clients

variable {n : Nat} (modulus : Nat) (files : Fin n → CStr → Option (List Char))
  (commands : Fin n → List Request) (start : Table)

/-- Whoever has been served was answered all its commands, from the table of those before it. -/
structure Answering (got : Fin n → List Response) (service : Service n) : Prop where
  queued : ∀ i ∉ service.accepted, got i = [] ∧ (service.seat i).toClient = [] ∧
    ∀ table, Handling modulus (files i) table (commands i)
      { service.view i with server := some table } []
  current : ∀ i, service.serving = some i → ∃ past before, service.accepted = past ++ [i] ∧
    performAll modulus start (past.flatMap commands) = .ok (past.flatMap got, before) ∧
    Handling modulus (files i) before (commands i) (service.view i) (got i)
  between : service.serving = none → ∃ after, service.server = some after ∧
    performAll modulus start (service.accepted.flatMap commands) =
      .ok (service.accepted.flatMap got, after)
  closed : ∀ i ∈ service.accepted, service.serving ≠ some i →
    (service.seat i).client = .closed ∧ (got i).length = (commands i).length

variable {modulus files commands start} {got after : Fin n → List Response}
  {requests : Fin n → List Char} {service next : Service n} {session : Session} {i : Fin n}
  {history : List (Event (Service n) (Move n) Unit)}

theorem received_snoc (event : Event (Service n) (Move n) Unit) : received (history ++ [event]) i =
    received history i ++
      (if event.input = .client i then (event.before.view i).taken else none).toList := by
  rw [received, List.filterMap_append, ← received]
  rfl

theorem flatMap_other {past : List (Fin n)} (fresh : i ∉ past) (others : ∀ j ≠ i, after j = got j) :
    past.flatMap after = past.flatMap got :=
  List.flatMap_congr fun j held => others j fun same => fresh (same ▸ held)

/-- A step of the connection that is being served. -/
theorem Answering.serving (answering : Answering modulus files commands start got service)
    (nodup : service.accepted.Nodup) (mine : service.serving = some i)
    (others : ∀ j ≠ i, after j = got j)
    (kept : ∀ (past : List (Fin n)) (before : Table) (answers : List Response),
      performAll modulus start (past.flatMap commands) = .ok (answers, before) →
      Handling modulus (files i) before (commands i) (service.view i) (got i) →
      Handling modulus (files i) before (commands i) session (after i)) :
    Answering modulus files commands start after (service.put i session) where
  queued j fresh := by
    obtain ⟨past, _, shape, _⟩ := answering.current i mine
    have other : j ≠ i := by
      rintro rfl
      exact fresh (shape ▸ by simp)
    obtain ⟨none, nothing, handling⟩ := answering.queued j fresh
    rw [others j other, Service.view, Service.seat_put_other other]
    exact ⟨none, nothing, handling⟩
  current j serving := by
    obtain rfl := Option.some.inj (serving.symm.trans mine)
    obtain ⟨past, before, shape, performed, handling⟩ := answering.current j mine
    have fresh : j ∉ past := fun held => by
      rw [shape] at nodup
      exact (List.nodup_append.mp nodup).2.2 j held j (by simp) rfl
    refine ⟨past, before, shape, ?_, Service.view_put ▸ kept past before _ performed handling⟩
    rw [flatMap_other fresh others]
    exact performed
  between free := by cases mine.symm.trans free
  closed j member other := by
    have apart : j ≠ i := fun same => other (same ▸ mine)
    rw [Service.seat_put_other apart, others j apart]
    exact answering.closed j member other

theorem advanceClient_nothing {files : CStr → Option (List Char)}
    (advanced : advanceClient files session = some after') (nothing : session.toClient = []) :
    session.taken = none ∧ after'.toClient = [] := by
  obtain ⟨client, state, toServer, toClient, server⟩ := session
  obtain rfl : toClient = [] := nothing
  rw [advanceClient] at advanced
  cases client with
  | ready lines =>
      cases lines with
      | nil =>
          cases advanced
          exact ⟨rfl, rfl⟩
      | cons line rest =>
          simp only at advanced
          split at advanced <;> cases advanced <;> exact ⟨rfl, rfl⟩
  | waiting | closed | stopped => cases advanced

/-- A step of a client, accepted or not. -/
theorem Answering.client (answering : Answering modulus files commands start got service)
    (nodup : service.accepted.Nodup) (others : ∀ j ≠ i, after j = got j)
    (own : after i = got i ++ (service.view i).taken.toList)
    (advanced : advanceClient (files i) (service.view i) = some session) :
    Answering modulus files commands start after (service.put i session) := by
  by_cases accepted : i ∈ service.accepted
  · by_cases mine : service.serving = some i
    · exact answering.serving nodup mine others fun _ _ _ _ handling => own ▸ handling.client advanced
    · obtain ⟨ended, _⟩ := answering.closed i accepted mine
      have isOver : (service.view i).client.isOver = true := by
        rw [Service.view, ended]
        rfl
      rw [advanceClient_isOver isOver] at advanced
      cases advanced
  · obtain ⟨none, nothing, handling⟩ := answering.queued i accepted
    obtain ⟨untaken, quiet⟩ := advanceClient_nothing advanced nothing
    obtain rfl : after = got := funext fun j => by
      by_cases same : j = i
      · rw [same, own, untaken, Option.toList_none, List.append_nil]
      · exact others j same
    have table : (service.put i session).server = service.server := advanceClient_table advanced
    have apart : ∀ j ∈ service.accepted, j ≠ i := fun j member same => accepted (same ▸ member)
    refine ⟨fun j fresh => ?_, fun j serving => ?_, ?_, fun j member other => ?_⟩
    · by_cases same : j = i
      · subst same
        rw [Service.view_put]
        refine ⟨none, ?_, fun before => ?_⟩
        · have own : (service.put j session).seat j = session.seat := Function.update_self ..
          rw [own]
          exact quiet
        · have moved := (handling before).client (advanceClient_server advanced (some before))
          have still : Session.taken { service.view j with server := some before } = .none := untaken
          rwa [still] at moved
      · rw [Service.view, Service.seat_put_other same]
        exact answering.queued j fresh
    · obtain ⟨past, before, shape, performed, handled⟩ := answering.current j serving
      refine ⟨past, before, shape, performed, ?_⟩
      rw [Service.view, Service.seat_put_other (apart j (shape ▸ by simp)), table]
      exact handled
    · rw [table]
      exact answering.between
    · rw [Service.seat_put_other (apart j member)]
      exact answering.closed j member other

theorem Answering.accept (answering : Answering modulus files commands start got service)
    (free : service.serving = none) (fresh : i ∉ service.accepted) :
    Answering modulus files commands start got
      { service with serving := some i, accepted := service.accepted ++ [i] } where
  queued j later := answering.queued j fun member => later (List.mem_append_left _ member)
  current j serving := by
    obtain rfl := Option.some.inj serving
    obtain ⟨before, present, performed⟩ := answering.between free
    obtain ⟨none, _, handling⟩ := answering.queued i fresh
    refine ⟨service.accepted, before, rfl, performed, ?_⟩
    have connected := handling before
    rw [← present] at connected
    exact none.symm ▸ connected
  between := by simp
  closed j member other := by
    rcases List.mem_append.mp member with old | new
    · exact answering.closed j old (by simp [free])
    · rw [List.mem_singleton.mp new] at other
      exact absurd rfl other

theorem proper_flatMap {past : List (Fin n)} (proper : ∀ i, ∀ command ∈ commands i, Proper command) :
    ∀ command ∈ past.flatMap commands, Proper command := by
  intro command held
  obtain ⟨i, _, own⟩ := List.mem_flatMap.mp held
  exact proper i command own

theorem Answering.join (wellFormed : WellFormed start)
    (proper : ∀ i, ∀ command ∈ commands i, Proper command)
    (answering : Answering modulus files commands start got service)
    (serving : service.serving = some i) (ended : (service.seat i).client.isOver = true) :
    Answering modulus files commands start got { service with serving := none } := by
  obtain ⟨past, before, shape, performed, handling⟩ := answering.current i serving
  obtain ⟨closed, _, table, alive, answered⟩ := handling.ended ended
  obtain ⟨_, formed⟩ := performAll_length wellFormed (proper_flatMap proper) performed
  refine ⟨answering.queued, by simp, fun _ => ⟨table, alive, ?_⟩, fun j member _ => ?_⟩
  · rw [show ({ service with serving := none } : Service n).accepted = past ++ [i] from shape,
      List.flatMap_append, List.flatMap_append, List.flatMap_singleton, List.flatMap_singleton]
    exact performAll_append performed answered
  · by_cases own : j = i
    · exact own ▸ ⟨closed, (performAll_length formed (proper i) answered).1⟩
    · exact answering.closed j member fun mine => own (Option.some.inj (mine.symm.trans serving))

/-- Every step is answered as the commands are. -/
theorem Answering.step {move : Move n} {output : Unit} (wellFormed : WellFormed start)
    (proper : ∀ i, ∀ command ∈ commands i, Proper command) (nodup : service.accepted.Nodup)
    (answering : Answering modulus files commands start (received history) service)
    (done : Service.step modulus files service move = .ok (output, next)) :
    Answering modulus files commands start (received (history ++ [⟨service, move, output⟩])) next := by
  have others : ∀ j, move ≠ .client j →
      received (history ++ [⟨service, move, output⟩]) j = received history j := fun j other => by
    rw [received_snoc, if_neg other, Option.toList_none, List.append_nil]
  cases move with
  | client i =>
      rw [Service.step] at done
      split at done
      · cases done
      · cases done
        refine answering.client nodup (fun j other => others j fun same => ?_) ?_ ‹_›
        · exact other (Move.client.inj same).symm
        · rw [received_snoc, if_pos rfl]
  | accept i =>
      obtain same : received (history ++ [⟨service, .accept i, output⟩]) = received history :=
        funext fun j => others j (by simp)
      rw [same]
      rw [Service.step] at done
      split at done
      · rename_i ready
        split at done
        · cases done
          exact answering.accept ready.1 (Service.isAccepted_eq_false.mp ready.2.2)
        · cases done
      · cases done
  | serve i =>
      obtain same : received (history ++ [⟨service, .serve i, output⟩]) = received history :=
        funext fun j => others j (by simp)
      rw [same]
      rw [Service.step] at done
      split at done
      · rename_i serving
        split at done
        · cases done
        · rename_i advanced
          cases done
          refine answering.serving nodup serving (fun _ _ => rfl)
            fun past before answers performed handling => ?_
          obtain ⟨_, formed⟩ := performAll_length wellFormed (proper_flatMap proper) performed
          exact handling.server formed (proper i) advanced
      · cases done
  | join i =>
      obtain same : received (history ++ [⟨service, .join i, output⟩]) = received history :=
        funext fun j => others j (by simp)
      rw [same]
      rw [Service.step] at done
      split at done
      · rename_i ready
        cases done
        exact answering.join wellFormed proper ready.1 ready.2.2.1
      · cases done

theorem listening_answering
    (complete : ∀ i, asks (files i) {} (getlines (requests i)) = some (commands i)) :
    Answering modulus files commands start (received []) (listening start requests) where
  queued i _ := ⟨rfl, rfl, fun _ => .ready (complete i) (List.nil_append _).symm rfl⟩
  current := by
    intro i serving
    cases serving
  between _ := ⟨start, rfl, rfl⟩
  closed := by
    intro i member
    cases member

theorem run_answering (wellFormed : WellFormed start)
    (complete : ∀ i, asks (files i) {} (getlines (requests i)) = some (commands i))
    (proper : ∀ i, ∀ command ∈ commands i, Proper command)
    (run : Run (Service.step modulus files) (listening start requests) history service) :
    Answering modulus files commands start (received history) service := by
  induction run with
  | nil => exact listening_answering complete
  | snoc run answered ih => exact ih.step wellFormed proper (run_inTurn run).nodup answered

/-- Up to one answer in flight, all answers so far are those to the commands so far. -/
theorem Answering.sofar (answering : Answering modulus files commands start got service) :
    ∃ done rest flying table, service.accepted.flatMap commands = done ++ rest ∧
      service.server = some table ∧ flying.length ≤ 1 ∧
      performAll modulus start done = .ok (service.accepted.flatMap got ++ flying, table) := by
  cases serving : service.serving with
  | none =>
      obtain ⟨table, alive, performed⟩ := answering.between serving
      exact ⟨_, [], [], table, (List.append_nil _).symm, alive, Nat.zero_le 1,
        (List.append_nil _).symm ▸ performed⟩
  | some i =>
      obtain ⟨past, before, shape, performed, handling⟩ := answering.current i serving
      obtain ⟨done, rest, flying, table, split, alive, answered, few⟩ := handling.sofar
      refine ⟨past.flatMap commands ++ done, rest, flying, table, ?_, alive, few, ?_⟩
      · rw [shape, List.flatMap_append, List.flatMap_singleton, split, List.append_assoc]
      · rw [shape, List.flatMap_append, List.flatMap_singleton, List.append_assoc]
        exact performAll_append performed answered

/-- At the end everyone has all its answers. -/
theorem run_answered (wellFormed : WellFormed start) (few : n ≤ 100)
    (complete : ∀ i, asks (files i) {} (getlines (requests i)) = some (commands i))
    (proper : ∀ i, ∀ command ∈ commands i, Proper command)
    (run : Run (Service.step modulus files) (listening start requests) history service)
    (last : ∀ move result, Service.step modulus files service move ≠ .ok result) :
    service.accepted.Perm (List.finRange n) ∧
      (∀ i, (service.seat i).client = .closed ∧
        (received history i).length = (commands i).length) ∧
      ∃ table, service.server = some table ∧
        performAll modulus start (service.accepted.flatMap commands) =
          .ok (service.accepted.flatMap (received history), table) := by
  have answering := run_answering wellFormed complete proper run
  have inTurn := run_inTurn run
  obtain ⟨everyone, table, alive, _⟩ :
    (∀ i, i ∈ service.accepted ∧ (service.seat i).client.isOver = true) ∧
      ∃ table, service.server = some table ∧
        Turns modulus files requests start service.accepted table := by
    rcases inTurn.ended few wellFormed last with failed | ⟨i, _, _, line, member, unmatched⟩ | served
    · exact absurd failed (inTurn.alive wellFormed complete proper)
    · exact absurd unmatched (not_unmatched_of_asks (complete i) line member)
    · exact served
  have free : service.serving = none := by
    by_contra busy
    obtain ⟨i, serving⟩ := Option.ne_none_iff_exists'.mp busy
    obtain ⟨_, _, _, _, handling⟩ := answering.current i serving
    obtain ⟨_, nothing, _⟩ := handling.ended (everyone i).2
    exact last (.join i) _ (if_pos ⟨serving, by rw [alive]; rfl, (everyone i).2, nothing⟩)
  refine ⟨?_, fun i => ?_, answering.between free⟩
  · rw [List.perm_ext_iff_of_nodup inTurn.nodup (List.nodup_finRange n)]
    exact fun i => iff_of_true (everyone i).1 (List.mem_finRange i)
  · exact answering.closed i (everyone i).1 (by simp [free])

end Clients

/-- One client opens the polls, one closes them and asks for the winner, and the others add the
votes of their sheets. -/
structure Campaign {n : Nat} (root : CStr) (opener closer : Fin n) (sheets : Fin n → List Sheet)
    (commands : Fin n → List Request) : Prop where
  opens : commands opener = [.openPolls root]
  closes : commands closer = [.closePolls root, .returnWinner]
  adds : ∀ i, i ≠ opener → i ≠ closer → commands i = (sheets i).map Sheet.request
  officials : sheets opener = [] ∧ sheets closer = []

section Elections

variable {n : Nat} {files : Fin n → CStr → Option (List Char)} {requests : Fin n → List Char}
  {commands : Fin n → List Request} {start : Table} {sheets : Fin n → List Sheet}
  {service : Service n} {opener closer : Fin n} {root : CStr}
  {history : List (Event (Service n) (Move n) Unit)}

/-- What all clients together ask for is one election, whatever order the voters come in. -/
theorem Campaign.together (campaign : Campaign root opener closer sheets commands)
    {voters : List (Fin n)} (nodup : (opener :: (voters ++ [closer])).Nodup) :
    (opener :: (voters ++ [closer])).flatMap commands = election root (voters.flatMap sheets) := by
  have own : voters.flatMap commands = (voters.flatMap sheets).map Sheet.request := by
    rw [List.map_flatMap]
    refine List.flatMap_congr fun i member => campaign.adds i ?_ ?_
    · rintro rfl
      exact (List.nodup_cons.mp nodup).1 (List.mem_append_left _ member)
    · rintro rfl
      exact (List.nodup_append.mp (List.nodup_cons.mp nodup).2).2.2 i member i (by simp) rfl
  rw [List.flatMap_cons, List.flatMap_append, List.flatMap_singleton, campaign.opens, own,
    campaign.closes]
  rfl

/-- One vote for `x` in the only leaf. -/
def oneVote : Fin 3 → List Sheet := ![[], [⟨['A'], [⟨['x'], 1⟩]⟩], []]

def oneVoteRequests : Fin 3 → List Char :=
  !["Open_Polls R".toList, "Add_Votes A f".toList, "Close_Polls R\nReturn_Winner".toList]

def oneVoteCommands : Fin 3 → List Request :=
  ![[.openPolls ['R']], [.addVotes ['A'] [⟨['x'], 1⟩]], [.closePolls ['R'], .returnWinner]]

def oneVoteTable : Table := ⟨[{ name := ['R'], children := [1] }, { name := ['A'] }]⟩

theorem oneVote_electoral : Electoral oneVoteTable where
  named := .of_names (by decide)
    (List.forall_mem_cons.mpr ⟨by decide, List.forall_mem_singleton.mpr (by decide)⟩)
  reached i inside := by
    have small : i < 2 := inside
    obtain rfl | rfl : i = 0 ∨ i = 1 := by omega
    · exact .refl
    · exact .single (by decide)
  inner := by decide

theorem oneVote_sheets : ProperSheets oneVoteTable ((List.finRange 3).flatMap oneVote) := by
  have shape : (List.finRange 3).flatMap oneVote = [⟨['A'], [⟨['x'], 1⟩]⟩] := by decide
  rw [shape]
  refine ⟨List.forall_mem_singleton.mpr ⟨1, by decide, by decide⟩,
    List.forall_mem_singleton.mpr (List.forall_mem_singleton.mpr (by decide)), fun name => ?_⟩
  simp only [votesFor, List.map_cons, List.map_nil, List.sum_cons, List.sum_nil, add_zero,
    total_cons, total_nil]
  split <;> omega

theorem oneVote_proper : ∀ i, ∀ command ∈ oneVoteCommands i, Proper command := by
  have named : ∀ c, ¬ isspace c → c ≠ ';' → RegionName [c] := fun c visible other =>
    ⟨by simp, List.forall_mem_singleton.mpr visible, fun held =>
      other (List.mem_singleton.mp held).symm⟩
  intro i
  fin_cases i
  · exact List.forall_mem_singleton.mpr (named 'R' (by decide) (by decide))
  · exact List.forall_mem_singleton.mpr ⟨named 'A' (by decide) (by decide), by decide,
      List.forall_mem_singleton.mpr
        ⟨by decide, by decide, by decide, by decide, by decide, by decide, by decide⟩⟩
  · exact List.forall_mem_cons.mpr
      ⟨named 'R' (by decide) (by decide), List.forall_mem_singleton.mpr trivial⟩

theorem oneVote_served : ∃ history, ∃ service : Service 3,
    Run (Service.step intModulus fun _ _ => some ['x']) (listening oneVoteTable oneVoteRequests)
      history service ∧ service.accepted = [0, 1, 2] ∧ service.serving = none ∧
      ∀ i, (service.seat i).client = .closed :=
  ⟨_, _, .of_execute
    [.accept 0, .client 0, .serve 0, .client 1, .client 0, .client 0, .join 0, .accept 1, .serve 1,
      .client 1, .client 1, .join 1, .accept 2, .client 2, .serve 2, .client 2, .client 2,
    .serve 2, .client 2, .client 2, .join 2] rfl, rfl, rfl, by decide⟩

end Elections

end VoteCounting.Client
