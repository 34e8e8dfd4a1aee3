import VoteCounting.Client.Session
import VoteCounting.Data.Run
import Mathlib.Algebra.BigOperators.Fin
import Mathlib.Data.Fintype.Card

namespace VoteCounting.Client

open CString Server Relation

/-- A client and the messages in flight on its connection, which the kernel queues until it is
accepted. -/
structure Seat where
  client : Phase
  state : State := {}
  toServer : List CStr := []
  toClient : List Response := []
deriving DecidableEq, Repr

def Session.seat (session : Session) : Seat :=
  ⟨session.client, session.state, session.toServer, session.toClient⟩

/-- `serving` is the connection whose thread runs, `accepted` are all connections so far. -/
structure Service (n : Nat) where
  seat : Fin n → Seat
  serving : Option (Fin n) := none
  accepted : List (Fin n) := []
  server : Option Table

inductive Move (n : Nat) where
  | client (i : Fin n)
  | accept (i : Fin n)
  | serve (i : Fin n)
  | join (i : Fin n)
deriving DecidableEq, Repr

inductive Delay where
  | waiting
  | full
deriving DecidableEq, Repr

/-- The connection of the client is closed. -/
def Phase.isOver : Phase → Bool
  | .closed | .stopped => true
  | .ready _ | .waiting _ => false

/-- The lines the client has not dispatched. -/
def Phase.lines : Phase → List (List Char)
  | .ready lines | .waiting lines => lines
  | .closed | .stopped => []

variable {n : Nat}

namespace Service

/-- One client together with the server. -/
def view (service : Service n) (i : Fin n) : Session where
  client := (service.seat i).client
  state := (service.seat i).state
  toServer := (service.seat i).toServer
  toClient := (service.seat i).toClient
  server := service.server

def put (service : Service n) (i : Fin n) (session : Session) : Service n :=
  { service with
    seat := Function.update service.seat i session.seat
    server := session.server }

/-- The client has a connection of its own. -/
def isAccepted (service : Service n) (i : Fin n) : Bool := service.accepted.contains i

section Step

variable (modulus : Nat) (files : Fin n → CStr → Option (List Char))

/-- `main` has 100 threads, and `runThread` returns when `read` finds the connection closed. -/
def step (service : Service n) : Move n → Except Delay (Unit × Service n)
  | .client i =>
      match advanceClient (files i) (service.view i) with
      | none => .error .waiting
      | some session => .ok ((), service.put i session)
  | .accept i =>
      if service.serving = none ∧ service.server.isSome ∧ service.isAccepted i = false then
        if service.accepted.length < 100 then
          .ok ((), { service with serving := some i, accepted := service.accepted ++ [i] })
        else .error .full
      else .error .waiting
  | .serve i =>
      if service.serving = some i then
        match advanceServer modulus (service.view i) with
        | none => .error .waiting
        | some session => .ok ((), service.put i session)
      else .error .waiting
  | .join i =>
      if service.serving = some i ∧ service.server.isSome ∧ (service.seat i).client.isOver ∧
          (service.seat i).toServer = [] then
        .ok ((), { service with serving := none })
      else .error .waiting

end Step

end Service

/-- The server before the first connection, and the request files of the clients. -/
def listening (table : Table) (requests : Fin n → List Char) : Service n where
  seat i := { client := .ready (getlines (requests i)) }
  server := some table

section Turns

variable (modulus : Nat) (files : Fin n → CStr → Option (List Char)) (requests : Fin n → List Char)

/-- Whole sessions of one client with the server, each from the table the one before it left. -/
inductive Turns (start : Table) : List (Fin n) → Table → Prop
  | nil : Turns start [] start
  | snoc {past : List (Fin n)} {i : Fin n} {before after : Table} {session : Session} :
      Turns start past before →
      ReflTransGen (Advances modulus (files i)) (connected before (requests i)) session →
      session.client.isOver = true → session.toServer = [] → session.server = some after →
      Turns start (past ++ [i]) after

/-- Whatever has happened on the server are sessions of one client each, the last one perhaps not
at its end. -/
structure InTurn (start : Table) (service : Service n) : Prop where
  nodup : service.accepted.Nodup
  few : service.accepted.length ≤ 100
  queued : ∀ i ∉ service.accepted, ∀ table, ReflTransGen (Advances modulus (files i))
    (connected table (requests i)) { service.view i with server := some table }
  current : ∀ i, service.serving = some i → ∃ past before, service.accepted = past ++ [i] ∧
    Turns modulus files requests start past before ∧
    ReflTransGen (Advances modulus (files i)) (connected before (requests i)) (service.view i)
  between : service.serving = none → ∃ after, service.server = some after ∧
    Turns modulus files requests start service.accepted after
  closed : ∀ i ∈ service.accepted, service.serving ≠ some i → (service.seat i).client.isOver = true

end Turns

section Sessions

variable {modulus : Nat} {files : CStr → Option (List Char)} {session after : Session}

/-- The client does not see the table. -/
theorem advanceClient_server (advanced : advanceClient files session = some after)
    (server : Option Table) :
    advanceClient files { session with server } = some { after with server } := by
  obtain ⟨client, state, toServer, toClient, _⟩ := session
  rw [advanceClient] at advanced ⊢
  cases client with
  | ready lines =>
      cases lines with
      | nil =>
          cases advanced
          rfl
      | cons line rest =>
          simp only at advanced ⊢
          split at advanced <;> cases advanced <;> rfl
  | waiting lines =>
      cases toClient with
      | nil => cases advanced
      | cons response later =>
          cases advanced
          rfl
  | closed | stopped => cases advanced

theorem advanceClient_table (advanced : advanceClient files session = some after) :
    after.server = session.server := by
  have same : advanceClient files session = some { after with server := session.server } :=
    advanceClient_server advanced session.server
  have table := congrArg Session.server (Option.some.inj (advanced.symm.trans same))
  exact table

theorem advanceServer_client (advanced : advanceServer modulus session = some after) :
    after.client = session.client := by
  rw [advanceServer] at advanced
  split at advanced
  · split at advanced <;>
    · cases advanced
      rfl
  · cases advanced

theorem not_advances_of_stuck {party : Party} (stuck : Stuck session) :
    advance modulus files session party = none := by
  obtain ⟨⟨lines, waiting⟩, alive, noRequest, noResponse⟩ := stuck
  cases party with
  | client => rw [advance, advanceClient, waiting, noResponse]
  | server =>
      obtain ⟨table, present⟩ := Option.isSome_iff_exists.mp alive
      rw [advance, advanceServer, present, noRequest]

theorem advanceClient_lines (advanced : advanceClient files session = some after) :
    after.client.lines ⊆ session.client.lines := by
  obtain ⟨client, state, toServer, toClient, server⟩ := session
  rw [advanceClient] at advanced
  cases client with
  | ready lines =>
      cases lines with
      | nil =>
          cases advanced
          exact List.Subset.refl _
      | cons line rest =>
          simp only at advanced
          split at advanced <;> cases advanced
          · exact List.nil_subset _
          · exact List.subset_cons_self line rest
  | waiting lines =>
      cases toClient with
      | nil => cases advanced
      | cons response later =>
          cases advanced
          exact List.Subset.refl _
  | closed | stopped => cases advanced

theorem lines_subset {first : Session} (reached : ReflTransGen (Advances modulus files) first session) :
    session.client.lines ⊆ first.client.lines := by
  induction reached with
  | refl => exact List.Subset.refl _
  | tail _ advanced ih =>
      obtain ⟨party, advanced⟩ := advanced
      cases party with
      | client => exact List.Subset.trans (advanceClient_lines advanced) ih
      | server => exact (advanceServer_client advanced).symm ▸ ih

/-- A session is in lockstep until it is stuck at a line that is no command. -/
theorem lockstep_or_stuck {first : Session} (start : Lockstep first)
    (reached : ReflTransGen (Advances modulus files) first session) :
    Lockstep session ∨
      Stuck session ∧ ∃ line ∈ first.client.lines, Unmatched (strcpy line) := by
  induction reached with
  | refl => exact .inl start
  | @tail earlier later before advanced ih =>
      obtain ⟨party, advanced⟩ := advanced
      rcases ih with lockstep | ⟨stuck, _⟩
      · cases party with
        | server => exact .inl (lockstep.server advanced)
        | client =>
            by_cases faces : Faces earlier
            · obtain ⟨next, stepped, stuck⟩ := lockstep.stuck_of_faces faces
              rw [advance, stepped] at advanced
              obtain ⟨line, rest, ready, unmatched⟩ := faces
              have mine : line ∈ earlier.client.lines := by
                rw [ready]
                exact List.mem_cons_self
              exact .inr ⟨Option.some.inj advanced ▸ stuck, line, lines_subset before mine, unmatched⟩
            · exact .inl (lockstep.client advanced faces)
      · rw [not_advances_of_stuck stuck] at advanced
        cases advanced

/-- A session in lockstep goes on until the client has closed the connection. -/
theorem Lockstep.goes_on (lockstep : Lockstep session) (alive : session.server ≠ none) :
    (∃ after, advanceClient files session = some after) ∨
      (∃ after, advanceServer modulus session = some after) ∨
        session.client.isOver = true ∧ session.toServer = [] := by
  cases lockstep with
  | @ready lines state table wellFormed =>
      left
      cases lines with
      | nil => exact ⟨_, rfl⟩
      | cons line rest =>
          rw [advanceClient]
          simp only
          split <;> exact ⟨_, rfl⟩
  | requested wellFormed =>
      right
      left
      rw [advanceServer]
      simp only
      split <;> exact ⟨_, rfl⟩
  | answered wellFormed => exact .inl ⟨_, rfl⟩
  | failed => exact absurd rfl alive
  | closed | stopped => exact .inr (.inr ⟨rfl, rfl⟩)

theorem table_wellFormed {first : Session} (start : ∀ table, first.server = some table → WellFormed table)
    (reached : ReflTransGen (Advances modulus files) first session) {table : Table}
    (present : session.server = some table) : WellFormed table := by
  induction reached generalizing table with
  | refl => exact start table present
  | @tail earlier later _ advanced ih =>
      obtain ⟨party, advanced⟩ := advanced
      cases party with
      | client => exact ih ((advanceClient_table advanced).symm.trans present)
      | server =>
          rw [advance, advanceServer] at advanced
          split at advanced
          · rename_i before str later held _
            split at advanced
            · cases advanced
              cases present
            · rename_i answered
              cases advanced
              cases present
              exact (ih held).step answered
          · cases advanced

end Sessions

section Steps

variable {modulus : Nat} {files : Fin n → CStr → Option (List Char)} {requests : Fin n → List Char}
  {start table : Table} {service after : Service n} {session : Session} {i j : Fin n}

namespace Service

theorem view_put : (service.put i session).view i = session := by
  simp [view, put, Session.seat]

theorem seat_put_other (other : j ≠ i) : (service.put i session).seat j = service.seat j :=
  Function.update_of_ne other ..

/-- What a step does. -/
inductive Stepped (modulus : Nat) (files : Fin n → CStr → Option (List Char)) (service : Service n) :
    Service n → Prop
  | client {i : Fin n} {session : Session}
      (advanced : advanceClient (files i) (service.view i) = some session) :
      Stepped modulus files service (service.put i session)
  | accept {i : Fin n} (free : service.serving = none) (table : Table)
      (alive : service.server = some table) (fresh : i ∉ service.accepted)
      (room : service.accepted.length < 100) :
      Stepped modulus files service
        { service with serving := some i, accepted := service.accepted ++ [i] }
  | serve {i : Fin n} {session : Session} (serving : service.serving = some i)
      (advanced : advanceServer modulus (service.view i) = some session) :
      Stepped modulus files service (service.put i session)
  | join {i : Fin n} (serving : service.serving = some i) (table : Table)
      (alive : service.server = some table) (ended : (service.seat i).client.isOver = true)
      (nothing : (service.seat i).toServer = []) :
      Stepped modulus files service { service with serving := none }

theorem isAccepted_eq_false : service.isAccepted i = false ↔ i ∉ service.accepted := by
  rw [isAccepted, Bool.eq_false_iff, Ne, List.contains_iff_mem]

theorem step_stepped {move : Move n} {output : Unit}
    (done : step modulus files service move = .ok (output, after)) :
    Stepped modulus files service after := by
  cases move with
  | client i =>
      rw [step] at done
      split at done
      · cases done
      · cases done
        exact .client ‹_›
  | accept i =>
      rw [step] at done
      split at done
      · rename_i free
        obtain ⟨free, alive, fresh⟩ := free
        obtain ⟨table, alive⟩ := Option.isSome_iff_exists.mp alive
        split at done
        · cases done
          exact .accept free table alive (isAccepted_eq_false.mp fresh) ‹_›
        · cases done
      · cases done
  | serve i =>
      rw [step] at done
      split at done
      · rename_i serving
        split at done
        · cases done
        · cases done
          exact .serve serving ‹_›
      · cases done
  | join i =>
      rw [step] at done
      split at done
      · rename_i ready
        obtain ⟨serving, alive, ended, nothing⟩ := ready
        obtain ⟨table, alive⟩ := Option.isSome_iff_exists.mp alive
        cases done
        exact .join serving table alive ended nothing
      · cases done

end Service

open Service

theorem advanceClient_isOver (ended : session.client.isOver = true)
    {files : CStr → Option (List Char)} : advanceClient files session = none := by
  rw [advanceClient]
  split <;> simp_all [Phase.isOver]

theorem listening_inTurn : InTurn modulus files requests start (listening start requests) where
  nodup := List.nodup_nil
  few := Nat.zero_le 100
  queued _ _ _ := .refl
  current := by
    intro i serving
    cases serving
  between _ := ⟨start, rfl, .nil⟩
  closed := by
    intro i member
    cases member

/-- A step of one connection keeps what is known of the others. -/
theorem InTurn.put (inTurn : InTurn modulus files requests start service)
    (queued : i ∉ service.accepted → ∀ table, ReflTransGen (Advances modulus (files i))
      (connected table (requests i)) { session with server := some table })
    (current : ∀ before, service.serving = some i →
      ReflTransGen (Advances modulus (files i)) (connected before (requests i)) (service.view i) →
      ReflTransGen (Advances modulus (files i)) (connected before (requests i)) session)
    (table : service.serving ≠ some i → session.server = service.server)
    (opened : i ∈ service.accepted → service.serving = some i) :
    InTurn modulus files requests start (service.put i session) where
  nodup := inTurn.nodup
  few := inTurn.few
  queued := by
    intro j fresh other
    by_cases own : j = i
    · subst own
      rw [view_put]
      exact queued fresh other
    · rw [view, seat_put_other own]
      exact inTurn.queued j fresh other
  current := by
    intro j serving
    obtain ⟨past, before, shape, turns, reached⟩ := inTurn.current j serving
    refine ⟨past, before, shape, turns, ?_⟩
    by_cases own : j = i
    · subst own
      rw [view_put]
      exact current before serving reached
    · have same : (service.put i session).server = service.server := by
        apply table
        intro mine
        exact own (Option.some.inj (serving.symm.trans mine))
      rw [view, seat_put_other own, same]
      exact reached
  between := by
    intro free
    have same : (service.put i session).server = service.server := by
      apply table
      rw [show service.serving = none from free]
      simp
    rw [same]
    exact inTurn.between free
  closed := by
    intro j member other
    by_cases own : j = i
    · subst own
      exact absurd (opened member) other
    · rw [seat_put_other own]
      exact inTurn.closed j member other

theorem InTurn.step (inTurn : InTurn modulus files requests start service)
    (stepped : Stepped modulus files service after) :
    InTurn modulus files requests start after := by
  cases stepped with
  | @client i session advanced =>
      refine inTurn.put ?_ ?_ (fun _ => advanceClient_table advanced) ?_
      · exact fun fresh table => (inTurn.queued i fresh table).tail
          ⟨.client, advanceClient_server advanced (some table)⟩
      · exact fun _ _ reached => reached.tail ⟨.client, advanced⟩
      · intro member
        by_contra other
        rw [advanceClient_isOver (inTurn.closed i member other)] at advanced
        cases advanced
  | @serve i session serving advanced =>
      have mine : i ∈ service.accepted := by
        obtain ⟨past, _, shape, _⟩ := inTurn.current i serving
        simp [shape]
      exact inTurn.put (fun fresh => absurd mine fresh)
        (fun _ _ reached => reached.tail ⟨.server, advanced⟩) (fun other => absurd serving other)
        fun _ => serving
  | @accept i free table alive fresh room =>
      obtain ⟨before, present, turns⟩ := inTurn.between free
      refine ⟨?_, ?_, ?_, ?_, by simp, ?_⟩
      · exact List.nodup_append.mpr ⟨inTurn.nodup, List.nodup_singleton i, by
          rintro j member _ (_ | ⟨_, nothing⟩) rfl
          · exact fresh member
          · cases nothing⟩
      · rw [List.length_append, List.length_singleton]
        exact room
      · intro j later other
        exact inTurn.queued j (fun member => later (List.mem_append_left _ member)) other
      · intro j serving
        obtain rfl := Option.some.inj serving
        refine ⟨service.accepted, before, rfl, turns, ?_⟩
        have queued := inTurn.queued i fresh before
        rw [← present] at queued
        exact queued
      · intro j member other
        rcases List.mem_append.mp member with old | new
        · exact inTurn.closed j old (by simp [free])
        · rw [List.mem_singleton.mp new] at other
          exact absurd rfl other
  | @join i serving table alive ended nothing =>
      obtain ⟨past, before, shape, turns, reached⟩ := inTurn.current i serving
      refine ⟨inTurn.nodup, inTurn.few, inTurn.queued, by simp, fun _ => ⟨table, alive, ?_⟩, ?_⟩
      · exact shape ▸ turns.snoc reached ended nothing alive
      · intro j member _
        by_cases own : j = i
        · exact own ▸ ended
        · exact inTurn.closed j member fun mine =>
            own (Option.some.inj (mine.symm.trans serving))

end Steps

/-- The steps a client can still make, and the answers to its requests. -/
def Seat.left (seat : Seat) : Nat :=
  seat.toServer.length + match seat.client with
    | .ready lines => 3 * lines.length + 1
    | .waiting lines => 3 * lines.length + 2
    | .closed | .stopped => 0

/-- Acceptance and the join of the thread are counted with the client. -/
def Service.left (service : Service n) (i : Fin n) : Nat :=
  (service.seat i).left + (if service.isAccepted i then 0 else 2) +
    (if service.serving = some i then 1 else 0)

section Ending

variable {modulus : Nat} {files : Fin n → CStr → Option (List Char)} {requests : Fin n → List Char}
  {start : Table} {service after : Service n} {session : Session} {i j : Fin n}

open Service

theorem left_put_other (other : j ≠ i) : (service.put i session).left j = service.left j := by
  rw [Service.left, seat_put_other other]
  rfl

theorem left_put (less : session.seat.left < (service.seat i).left) :
    (service.put i session).left i < service.left i := by
  have own : (service.put i session).seat i = session.seat := Function.update_self ..
  rw [Service.left, Service.left, own]
  exact Nat.add_lt_add_right (Nat.add_lt_add_right less _) _

theorem advanceClient_falls {files : CStr → Option (List Char)} {session after : Session}
    (advanced : advanceClient files session = some after) :
    after.seat.left < session.seat.left := by
  obtain ⟨client, state, toServer, toClient, server⟩ := session
  rw [advanceClient] at advanced
  cases client with
  | ready lines =>
      cases lines with
      | nil =>
          cases advanced
          simp [Seat.left, Session.seat]
      | cons line rest =>
          simp only at advanced
          split at advanced
          · cases advanced
            simp [Seat.left, Session.seat]
          · rename_i message state dispatched
            cases advanced
            have sent : message.toList.length ≤ 1 := by cases message <;> simp
            simp only [Seat.left, Session.seat, List.length_append, List.length_cons]
            omega
  | waiting lines =>
      cases toClient with
      | nil => cases advanced
      | cons response later =>
          cases advanced
          simp [Seat.left, Session.seat]
  | closed | stopped => cases advanced

theorem advanceServer_falls {session after : Session}
    (advanced : advanceServer modulus session = some after) :
    after.seat.left < session.seat.left := by
  have same := advanceServer_client advanced
  rw [advanceServer] at advanced
  split at advanced
  · rename_i table str later _ request
    rw [Seat.left, Seat.left, Session.seat, Session.seat, same, request]
    split at advanced <;>
    · cases advanced
      simp
  · cases advanced

theorem Service.Stepped.falls (stepped : Stepped modulus files service after) :
    ∑ i, after.left i < ∑ i, service.left i := by
  have one : ∃ i, after.left i < service.left i ∧ ∀ j ≠ i, after.left j = service.left j := by
    cases stepped with
    | client advanced =>
        exact ⟨_, left_put (advanceClient_falls advanced), fun _ other => left_put_other other⟩
    | serve serving advanced =>
        exact ⟨_, left_put (advanceServer_falls advanced), fun _ other => left_put_other other⟩
    | @accept i free table alive fresh room =>
        refine ⟨i, ?_, fun j other => ?_⟩
        · simp [Service.left, fresh, free, isAccepted]
        · simp [Service.left, free, isAccepted, other, other.symm]
    | @join i serving table alive ended nothing =>
        refine ⟨i, ?_, fun j other => ?_⟩
        · simp [Service.left, serving, isAccepted]
        · simp [Service.left, serving, isAccepted, other.symm]
  obtain ⟨i, less, others⟩ := one
  refine Finset.sum_lt_sum (fun j _ => ?_) ⟨i, Finset.mem_univ i, less⟩
  by_cases own : j = i
  · exact own ▸ less.le
  · exact (others j own).le

theorem Turns.wellFormed (wellFormed : WellFormed start) {order : List (Fin n)} {last : Table}
    (turns : Turns modulus files requests start order last) : WellFormed last := by
  induction turns with
  | nil => exact wellFormed
  | snoc _ reached _ _ present ih =>
      refine table_wellFormed ?_ reached present
      rintro table same
      exact Option.some.inj same ▸ ih

theorem InTurn.lockstep (inTurn : InTurn modulus files requests start service)
    (wellFormed : WellFormed start) (serving : service.serving = some i) :
    Lockstep (service.view i) ∨ Stuck (service.view i) ∧
      ∃ line ∈ getlines (requests i), Unmatched (strcpy line) := by
  obtain ⟨_, before, _, turns, reached⟩ := inTurn.current i serving
  exact lockstep_or_stuck (.ready (turns.wellFormed wellFormed)) reached

/-- The server goes on until it fails, everyone is served, or the client it serves is silent. -/
theorem InTurn.ended (inTurn : InTurn modulus files requests start service) (few : n ≤ 100)
    (wellFormed : WellFormed start)
    (last : ∀ move result, Service.step modulus files service move ≠ .ok result) :
    service.server = none ∨
      (∃ i, service.serving = some i ∧ Stuck (service.view i) ∧
        ∃ line ∈ getlines (requests i), Unmatched (strcpy line)) ∨
      (∀ i, i ∈ service.accepted ∧ (service.seat i).client.isOver = true) ∧
        ∃ after, service.server = some after ∧
          Turns modulus files requests start service.accepted after := by
  cases alive : service.server with
  | none => exact .inl rfl
  | some table =>
      right
      cases serving : service.serving with
      | some i =>
          left
          refine ⟨i, rfl, ?_⟩
          rcases inTurn.lockstep wellFormed serving with lockstep | stuck
          · exfalso
            have goes : (∃ session, advanceClient (files i) (service.view i) = some session) ∨
                (∃ session, advanceServer modulus (service.view i) = some session) ∨
                  (service.seat i).client.isOver = true ∧ (service.seat i).toServer = [] :=
              lockstep.goes_on fun failed => absurd (alive.symm.trans failed) (Option.some_ne_none _)
            rcases goes with ⟨session, advanced⟩ | ⟨session, advanced⟩ | ⟨ended, nothing⟩
            · exact last (.client i) ((), service.put i session) (by rw [Service.step, advanced])
            · exact last (.serve i) ((), service.put i session)
                (by rw [Service.step, if_pos serving, advanced])
            · exact last (.join i) ((), { service with serving := none })
                (if_pos ⟨serving, by rw [alive]; rfl, ended, nothing⟩)
          · exact stuck
      | none =>
          right
          have everyone : ∀ i, i ∈ service.accepted := by
            intro i
            by_contra fresh
            have room : service.accepted.length < 100 := by
              have distinct := (List.nodup_cons.mpr ⟨fresh, inTurn.nodup⟩).length_le_card
              rw [List.length_cons, Fintype.card_fin] at distinct
              omega
            have ready : service.serving = none ∧ service.server.isSome ∧ service.isAccepted i = false :=
              ⟨serving, by rw [alive]; rfl, isAccepted_eq_false.mpr fresh⟩
            exact last (.accept i) _ ((if_pos ready).trans (if_pos room))
          have turns := inTurn.between serving
          rw [alive] at turns
          exact ⟨fun i => ⟨everyone i, inTurn.closed i (everyone i) (by simp [serving])⟩, turns⟩

/-- The client the server waits for has no request in flight, and sends none. -/
structure Blocked (service : Service n) (i : Fin n) : Prop where
  serving : service.serving = some i
  noRequest : (service.seat i).toServer = []
  noAnswer : (service.seat i).toClient = []
  silent : (∃ lines, (service.seat i).client = .waiting lines) ∨ Faces (service.view i)

theorem Blocked.step (blocked : Blocked service i) (stepped : Stepped modulus files service after) :
    Blocked after i ∧ after.accepted = service.accepted ∧ after.server = service.server := by
  obtain ⟨serving, noRequest, noAnswer, silent⟩ := blocked
  cases stepped with
  | @client j session advanced =>
      refine ⟨?_, rfl, advanceClient_table advanced⟩
      by_cases own : j = i
      · subst own
        have same : (service.put j session).seat j = session.seat := Function.update_self ..
        rcases silent with ⟨lines, waiting⟩ | ⟨line, rest, ready, unmatched⟩
        · rw [advanceClient, view] at advanced
          simp [waiting, noAnswer] at advanced
        · rw [advanceClient, ready] at advanced
          simp only [dispatchLine_unmatched unmatched] at advanced
          cases advanced
          refine ⟨serving, ?_, ?_, .inl ⟨rest, ?_⟩⟩ <;> rw [same]
          · exact (List.append_nil _).trans noRequest
          · exact noAnswer
          · rfl
      · have same : (service.put j session).seat i = service.seat i := seat_put_other (Ne.symm own)
        have faces : Faces ((service.put j session).view i) ↔ Faces (service.view i) := by
          rw [Faces, Faces, view, view, same]
        exact ⟨serving, by rw [same]; exact noRequest, by rw [same]; exact noAnswer,
          by rw [same, faces]; exact silent⟩
  | accept free => rw [serving] at free; cases free
  | @serve j session mine advanced =>
      obtain rfl := Option.some.inj (mine.symm.trans serving)
      rw [advanceServer, view] at advanced
      simp [noRequest] at advanced
  | @join j mine table alive ended =>
      obtain rfl := Option.some.inj (mine.symm.trans serving)
      rcases silent with ⟨lines, waiting⟩ | ⟨line, rest, ready, unmatched⟩
      · rw [waiting] at ended
        cases ended
      · rw [show (service.seat j).client = _ from ready] at ended
        cases ended

end Ending

section Runs

variable {modulus : Nat} {files : Fin n → CStr → Option (List Char)} {requests : Fin n → List Char}
  {start : Table} {service final : Service n} {dag : CStr} {i : Fin n}
  {history future : List (Event (Service n) (Move n) Unit)}

theorem run_inTurn
    (run : Run (Service.step modulus files) (listening start requests) history service) :
    InTurn modulus files requests start service :=
  run.invariant_state (InTurn modulus files requests start) listening_inTurn
    fun inTurn done => inTurn.step (Service.step_stepped done)

/-- However the clients and the server take turns, the table is what whole sessions of one client
each make of it, in the order in which the clients were accepted, each once. -/
theorem clients_in_turn
    (run : Run (Service.step modulus files) (listening start requests) history service) :
    service.accepted.Nodup ∧ service.accepted.length ≤ 100 ∧
      (∀ i, service.serving = some i → ∃ past before, service.accepted = past ++ [i] ∧
        Turns modulus files requests start past before ∧
        ReflTransGen (Advances modulus (files i)) (connected before (requests i)) (service.view i)) ∧
      (service.serving = none → ∃ after, service.server = some after ∧
        Turns modulus files requests start service.accepted after) := by
  have inTurn := run_inTurn run
  exact ⟨inTurn.nodup, inTurn.few, inTurn.current, inTurn.between⟩

/-- The first of two clients sends its request before it is accepted, and is served last. -/
theorem two_clients : ∃ history, ∃ service : Service 2,
    Run (Service.step (2 ^ 32) fun _ _ => none)
      (listening ⟨[{ name := ['R'] }]⟩ !["Return_Winner\n".toList, "Open_Polls R\n".toList])
      history service ∧ service.accepted = [1, 0] ∧ service.serving = none ∧
      service.server.isSome ∧ ∀ i, (service.seat i).client = .closed :=
  ⟨_, _, .of_execute [.client 0, .accept 1, .client 1, .serve 1, .client 1, .client 1, .join 1,
    .accept 0, .serve 0, .client 0, .client 0, .join 0] rfl, rfl, rfl, rfl, by decide⟩

theorem clients_in_turn_sample : ∃ history, ∃ service : Service 2,
    Run (Service.step (2 ^ 32) fun _ _ => none)
      (listening ⟨[{ name := ['R'] }]⟩ !["Return_Winner\n".toList, "Open_Polls R\n".toList])
      history service ∧ ∃ after, service.server = some after ∧
      Turns (2 ^ 32) (fun _ _ => none) !["Return_Winner\n".toList, "Open_Polls R\n".toList]
        ⟨[{ name := ['R'] }]⟩ [1, 0] after := by
  obtain ⟨history, service, run, accepted, free, _⟩ := two_clients
  obtain ⟨_, _, _, between⟩ := clients_in_turn run
  rw [accepted] at between
  exact ⟨history, service, run, between free⟩

theorem not_step_of_closed (free : service.serving = none)
    (closed : ∀ i, i ∈ service.accepted ∧ (service.seat i).client = .closed) (move : Move n)
    (result : Unit × Service n) : Service.step modulus files service move ≠ .ok result := by
  cases move with
  | client i => simp [Service.step, advanceClient, Service.view, (closed i).2]
  | accept i => simp [Service.step, Service.isAccepted, (closed i).1]
  | serve i | join i => simp [Service.step, free]

/-- Once the client being served comes to a line that is no command, the server accepts no
other client. -/
theorem clients_blocked (created : createDAG dag = some start)
    (run : Run (Service.step modulus files) (listening start requests) history service)
    (serving : service.serving = some i) (faces : Faces (service.view i))
    (later : Run (Service.step modulus files) service future final) :
    final.accepted = service.accepted ∧ final.server = service.server := by
  have blocked : Blocked service i := by
    obtain ⟨line, rest, ready, _⟩ := id faces
    have lockstep := (run_inTurn run).lockstep (createDAG_initial created).wellFormed serving
    rcases lockstep with lockstep | ⟨⟨⟨lines, waiting⟩, _⟩, _⟩
    · have nothing : (service.view i).toServer = [] ∧ (service.view i).toClient = [] := by
        generalize service.view i = session at lockstep ready
        cases lockstep with
        | ready => exact ⟨rfl, rfl⟩
        | requested | answered | failed | closed | stopped => cases ready
      exact ⟨serving, nothing.1, nothing.2, .inr faces⟩
    · cases ready.symm.trans waiting
  have kept : Blocked final i ∧ final.accepted = service.accepted ∧ final.server = service.server := by
    apply later.invariant_state fun state =>
      Blocked state i ∧ state.accepted = service.accepted ∧ state.server = service.server
    · exact ⟨blocked, rfl, rfl⟩
    · rintro state move output after ⟨still, accepted, server⟩ done
      obtain ⟨next, sameAccepted, sameServer⟩ := still.step (Service.step_stepped done)
      exact ⟨next, sameAccepted.trans accepted, sameServer.trans server⟩
  exact kept.2

/-- A blank line of the first client keeps the server from the second. -/
theorem clients_blocked_sample : ∃ history future, ∃ service final : Service 2,
    Run (Service.step (2 ^ 32) fun _ _ => none)
      (listening ⟨[{ name := ['R'] }]⟩ !["\n".toList, "Return_Winner\n".toList]) history service ∧
      Run (Service.step (2 ^ 32) fun _ _ => none) service future final ∧ future.length = 2 ∧
      final.accepted = service.accepted ∧ final.server = service.server := by
  have whole : ∃ history future, ∃ service final : Service 2,
      Run (Service.step (2 ^ 32) fun _ _ => none)
        (listening ⟨[{ name := ['R'] }]⟩ !["\n".toList, "Return_Winner\n".toList]) history service ∧
        Run (Service.step (2 ^ 32) fun _ _ => none) service future final ∧ future.length = 2 ∧
        service.serving = some 0 ∧ Faces (service.view 0) :=
    ⟨_, _, _, _, .of_execute [.accept 0] rfl, .of_execute [.client 0, .client 1] rfl, rfl, rfl,
      ⟨_, _, rfl, _, rfl, by decide⟩⟩
  obtain ⟨history, future, service, final, run, later, length, serving, faces⟩ := whole
  have created : createDAG ['R'] = some ⟨[{ name := ['R'] }]⟩ := by decide
  exact ⟨history, future, service, final, run, later, length,
    clients_blocked created run serving faces later⟩

end Runs

end VoteCounting.Client
