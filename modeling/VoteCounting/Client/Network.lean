import VoteCounting.Client.Wire
import VoteCounting.Data.Simulation

namespace VoteCounting.Client

open Counters CString Server

/-- The server and its clients, as in `Service`. -/
structure Network (n : Nat) where
  port : Fin n → Port
  serving : Option (Fin n) := none
  accepted : List (Fin n) := []
  server : Option Table

inductive Transfer (n : Nat) where
  | client (i : Fin n) (ret : Nat)
  | accept (i : Fin n)
  | serve (i : Fin n)
  | join (i : Fin n)
deriving DecidableEq, Repr

namespace Network

variable {n : Nat}

def put (network : Network n) (i : Fin n) (port : Port) (server : Option Table) : Network n :=
  { network with
    port := Function.update network.port i port
    server }

section Step

variable (modulus : Nat) (files : Fin n → CStr → Option (List Char))

def step (network : Network n) : Transfer n → Except Delay (Unit × Network n)
  | .client i ret =>
      match (network.port i).advanceClient (files i) ret with
      | none => .error .waiting
      | some port => .ok ((), network.put i port network.server)
  | .accept i =>
      if network.serving = none ∧ network.server.isSome ∧ network.accepted.contains i = false then
        if network.accepted.length < 100 then
          .ok ((), { network with serving := some i, accepted := network.accepted ++ [i] })
        else .error .full
      else .error .waiting
  | .serve i =>
      if network.serving = some i then
        match network.server.bind fun table => (network.port i).advanceThread modulus table with
        | none => .error .waiting
        | some (port, server) => .ok ((), network.put i port server)
      else .error .waiting
  | .join i =>
      if network.serving = some i ∧ network.server.isSome ∧ (network.port i).client.isOver ∧
          (network.port i).toServer = [] then
        .ok ((), { network with serving := none })
      else .error .waiting

end Step

end Network

/-- The server before the first connection. -/
def listeningWire {n : Nat} (table : Table) (requests : Fin n → List Char) : Network n where
  port i := { client := .ready (getlines (requests i)) }
  server := some table

section Networks

variable {n modulus : Nat} {files : Fin n → CStr → Option (List Char)} {requests : Fin n → List Char}
  {start : Table} {network next : Network n} {service : Service n} {session : Session} {port : Port}
  {cut cutAfter : Fin n → Prop} {got after : Fin n → List Response} {i j : Fin n}
  {history : List (Event (Network n) (Transfer n) Unit)} {past : List (Event (Service n) (Move n) Unit)}

/-- A write of the client has left out a terminator. -/
def Cut (history : List (Event (Network n) (Transfer n) Unit)) (i : Fin n) : Prop :=
  ∃ event ∈ history, ∃ ret, event.input = .client i ret ∧ (event.before.port i).Cuts ret

/-- The bytes of each connection stand for its messages. -/
structure Represents (network : Network n) (service : Service n) (cut : Fin n → Prop)
    (got : Fin n → List Response) : Prop where
  port : ∀ i, ∃ flag : Bool, (flag = true ↔ cut i) ∧
    Conveys flag (network.port i) (service.seat i) (got i)
  clean : ∀ i, Clean (service.seat i).state
  serving : network.serving = service.serving
  accepted : network.accepted = service.accepted
  server : network.server = service.server

theorem cut_snoc (event : Event (Network n) (Transfer n) Unit) : Cut (history ++ [event]) i ↔
    Cut history i ∨ ∃ ret, event.input = .client i ret ∧ (event.before.port i).Cuts ret := by
  simp [Cut, or_and_right, exists_or]

theorem Network.port_put {server : Option Table} : (network.put i port server).port i = port :=
  Function.update_self ..

theorem Network.port_put_other {server : Option Table} (other : j ≠ i) :
    (network.put i port server).port j = network.port j :=
  Function.update_of_ne other ..

def Network.bytes (network : Network n) : Nat := ∑ i, (network.port i).bytes

theorem bytes_put {server : Option Table} (less : port.bytes < (network.port i).bytes) :
    (network.put i port server).bytes < network.bytes := by
  refine Finset.sum_lt_sum (fun j _ => ?_) ⟨i, Finset.mem_univ i, by rwa [Network.port_put]⟩
  by_cases same : j = i
  · rw [same, Network.port_put]
    exact less.le
  · rw [Network.port_put_other same]

theorem seat_put : (service.put i session).seat i = session.seat := Function.update_self ..

theorem put_view : service.put i (service.view i) = service := by
  have same : (service.view i).seat = service.seat i := rfl
  rw [Service.put, same, Function.update_eq_self]
  rfl

/-- A step of one connection. -/
theorem Represents.put (represents : Represents network service cut got)
    (others : ∀ j ≠ i, (cutAfter j ↔ cut j) ∧ after j = got j)
    (own : ∃ flag : Bool, (flag = true ↔ cutAfter i) ∧ Conveys flag port session.seat (after i))
    (clean : Clean session.state) :
    Represents (network.put i port session.server) (service.put i session) cutAfter after where
  port j := by
    by_cases same : j = i
    · subst same
      rw [Network.port_put, seat_put]
      exact own
    · obtain ⟨flag, cuts, conveys⟩ := represents.port j
      rw [Network.port_put_other same, Service.seat_put_other same, (others j same).2]
      exact ⟨flag, cuts.trans (others j same).1.symm, conveys⟩
  clean j := by
    by_cases same : j = i
    · subst same
      rw [seat_put]
      exact clean
    · rw [Service.seat_put_other same]
      exact represents.clean j
  serving := represents.serving
  accepted := represents.accepted
  server := rfl

theorem Represents.client {ret : Nat} (represents : Represents network service cut got)
    (advanced : (network.port i).advanceClient (files i) ret = some port)
    (others : ∀ j ≠ i, (cutAfter j ↔ cut j))
    (own : cutAfter i ↔ cut i ∨ (network.port i).Cuts ret) :
    Represents (network.put i port network.server) service cutAfter got ∧
        (network.put i port network.server).bytes < network.bytes ∨
      ∃ session, advanceClient (files i) (service.view i) = some session ∧
        ∀ after, (∀ j ≠ i, after j = got j) → after i = got i ++ (service.view i).taken.toList →
          Represents (network.put i port network.server) (service.put i session) cutAfter after := by
  obtain ⟨flag, cuts, conveys⟩ := represents.port i
  have server : network.server = (service.view i).server := represents.server
  rw [server]
  rcases conveys.client service.server (represents.clean i) advanced with
    ⟨same, less⟩ | ⟨session, stepped, clean, conveys, still⟩
  · refine .inl ⟨?_, bytes_put less⟩
    have own : ∃ flag : Bool, (flag = true ↔ cutAfter i) ∧
        Conveys flag port (service.view i).seat (got i) := by
      rcases same with ⟨conveys, still⟩ | ⟨conveys, now⟩
      · exact ⟨flag, by rw [cuts, own, or_iff_left still], conveys⟩
      · exact ⟨true, by simp [own, now], conveys⟩
    have next := represents.put (fun j other => ⟨others j other, rfl⟩) own (represents.clean i)
    rwa [put_view] at next
  · refine .inr ⟨session, stepped, fun after same heard => ?_⟩
    have kept : session.server = (service.view i).server := advanceClient_table stepped
    rw [← kept]
    exact represents.put (fun j other => ⟨others j other, same j other⟩)
      ⟨flag, by rw [cuts, own, or_iff_left still], heard ▸ conveys⟩ clean

theorem Represents.serve {server : Option Table} {table : Table}
    (represents : Represents network service cut got)
    (wellFormed : WellFormed table) (alive : network.server = some table)
    (advanced : (network.port i).advanceThread modulus table = some (port, server)) :
    Represents (network.put i port server) service cut got ∧
        (network.put i port server).bytes < network.bytes ∨
      ∃ session, advanceServer modulus (service.view i) = some session ∧
        Represents (network.put i port server) (service.put i session) cut got := by
  obtain ⟨flag, cuts, conveys⟩ := represents.port i
  have present : service.server = some table := represents.server.symm.trans alive
  have view : service.view i = (service.seat i).session (some table) := by
    rw [← present]
    rfl
  rcases conveys.thread wellFormed advanced with
    ⟨⟨conveys, rfl⟩, less⟩ | ⟨session, stepped, rfl, state, conveys⟩
  · refine .inl ⟨?_, bytes_put less⟩
    have next := represents.put (fun _ _ => ⟨Iff.rfl, rfl⟩)
      (⟨flag, cuts, conveys⟩ : ∃ flag : Bool, (flag = true ↔ cut i) ∧
        Conveys flag port (service.view i).seat (got i)) (represents.clean i)
    rw [put_view, view] at next
    exact next
  · refine .inr ⟨session, view ▸ stepped, ?_⟩
    exact represents.put (fun _ _ => ⟨Iff.rfl, rfl⟩) ⟨flag, cuts, conveys⟩ (state ▸ represents.clean i)

theorem Represents.accept (represents : Represents network service cut got) :
    Represents { network with serving := some i, accepted := network.accepted ++ [i] }
      { service with serving := some i, accepted := service.accepted ++ [i] } cut got where
  port := represents.port
  clean := represents.clean
  serving := rfl
  accepted := congrArg (· ++ [i]) represents.accepted
  server := represents.server

theorem Represents.join (represents : Represents network service cut got) :
    Represents { network with serving := none } { service with serving := none } cut got where
  port := represents.port
  clean := represents.clean
  serving := rfl
  accepted := represents.accepted
  server := represents.server

/-- Each transfer is a step between messages, or none. -/
theorem Represents.step {move : Transfer n} {output : Unit}
    (represents : Represents network service (Cut history) (received past))
    (wellFormed : ∀ table, service.server = some table → WellFormed table)
    (done : Network.step modulus files network move = .ok (output, next)) :
    Represents next service (Cut (history ++ [⟨network, move, output⟩])) (received past) ∧
        next.bytes < network.bytes ∨
      ∃ turn later, Service.step modulus files service turn = .ok ((), later) ∧
        Represents next later (Cut (history ++ [⟨network, move, output⟩]))
          (received (past ++ [⟨service, turn, ()⟩])) := by
  have unheard : ∀ turn j, turn ≠ .client j →
      received (past ++ [⟨service, turn, ()⟩]) j = received past j := fun turn j other => by
    rw [received_snoc, if_neg other, Option.toList_none, List.append_nil]
  have uncut : (∀ j ret, move ≠ .client j ret) →
      Cut (history ++ [⟨network, move, output⟩]) = Cut history := fun other => funext fun j =>
    propext ⟨fun cut => (cut_snoc _).mp cut |>.resolve_right fun ⟨ret, same, _⟩ => other j ret same,
      fun cut => (cut_snoc _).mpr (.inl cut)⟩
  cases move with
  | client i ret =>
      rw [Network.step] at done
      split at done
      · cases done
      · rename_i port advanced
        cases done
        have others : ∀ j ≠ i, (Cut (history ++ [⟨network, .client i ret, ()⟩]) j ↔ Cut history j) := by
          intro j other
          rw [cut_snoc, or_iff_left]
          rintro ⟨_, ⟨⟩, _⟩
          exact other rfl
        have own : Cut (history ++ [⟨network, .client i ret, ()⟩]) i ↔
            Cut history i ∨ (network.port i).Cuts ret := by
          rw [cut_snoc]
          refine or_congr_right ⟨?_, fun cut => ⟨ret, rfl, cut⟩⟩
          rintro ⟨_, ⟨⟩, cut⟩
          exact cut
        rcases represents.client advanced others own with still | ⟨session, stepped, moved⟩
        · exact .inl still
        · refine .inr ⟨.client i, service.put i session, by rw [Service.step, stepped], moved _ ?_ ?_⟩
          · exact fun j other => unheard _ _ fun same => other (by cases same; rfl)
          · rw [received_snoc, if_pos rfl]
  | accept i =>
      rw [uncut (by simp)]
      rw [Network.step] at done
      split at done
      · rename_i ready
        split at done
        · rename_i room
          cases done
          rw [represents.serving, represents.server, represents.accepted] at ready
          rw [represents.accepted] at room
          refine .inr ⟨.accept i, _, (if_pos ready).trans (if_pos room), ?_⟩
          rw [funext fun j => unheard (.accept i) j (by simp)]
          exact represents.accept
        · cases done
      · cases done
  | serve i =>
      rw [uncut (by simp)]
      rw [Network.step] at done
      split at done
      · rename_i serving
        split at done
        · cases done
        · rename_i port server advanced
          cases done
          obtain ⟨table, alive, advanced⟩ := Option.bind_eq_some_iff.mp advanced
          have present : service.server = some table := represents.server.symm.trans alive
          rcases represents.serve (wellFormed table present) alive advanced with still
            | ⟨session, stepped, moved⟩
          · exact .inl still
          · refine .inr ⟨.serve i, service.put i session, ?_, ?_⟩
            · rw [Service.step, if_pos (represents.serving ▸ serving), stepped]
            · rw [funext fun j => unheard (.serve i) j (by simp)]
              exact moved
      · cases done
  | join i =>
      rw [uncut (by simp)]
      rw [Network.step] at done
      split at done
      · rename_i ready
        cases done
        obtain ⟨serving, alive, ended, _⟩ := ready
        obtain ⟨flag, _, conveys⟩ := represents.port i
        obtain ⟨same, nothing⟩ := conveys.over
        rw [represents.serving] at serving
        rw [represents.server] at alive
        refine .inr ⟨.join i, { service with serving := none }, ?_, ?_⟩
        · rw [Service.step, if_pos ⟨serving, alive, same ▸ ended, (nothing ended).2.1⟩]
        · rw [funext fun j => unheard (.join i) j (by simp)]
          exact represents.join
      · cases done

theorem InTurn.wellFormed {table : Table} (inTurn : InTurn modulus files requests start service)
    (wellFormed : WellFormed start) (alive : service.server = some table) : WellFormed table := by
  cases serving : service.serving with
  | none =>
      obtain ⟨last, present, turns⟩ := inTurn.between serving
      rw [Option.some.inj (alive.symm.trans present)]
      exact turns.wellFormed wellFormed
  | some i =>
      obtain ⟨_, before, _, turns, reached⟩ := inTurn.current i serving
      refine table_wellFormed ?_ reached alive
      rintro table same
      exact Option.some.inj same ▸ turns.wellFormed wellFormed

theorem listening_represents :
    Represents (listeningWire start requests) (listening start requests) (Cut []) (received []) where
  port i := ⟨false, by simp [Cut], @Conveys.ready (getlines (requests i)) {} []⟩
  clean i := by
    intro slot held
    cases held
  serving := rfl
  accepted := rfl
  server := rfl

/-- Whatever is sent in pieces is a run between messages. -/
theorem run_represents (wellFormed : WellFormed start)
    (run : Run (Network.step modulus files) (listeningWire start requests) history network) :
    ∃ past service, Run (Service.step modulus files) (listening start requests) past service ∧
      Represents network service (Cut history) (received past) := by
  induction run with
  | nil => exact ⟨[], _, .nil, listening_represents⟩
  | snoc run answered ih =>
      obtain ⟨past, service, messages, represents⟩ := ih
      have formed : ∀ table, service.server = some table → WellFormed table := fun table alive =>
        (run_inTurn messages).wellFormed wellFormed alive
      rcases represents.step formed answered with still | ⟨turn, later, stepped, moved⟩
      · exact ⟨past, service, messages, still.1⟩
      · exact ⟨_, later, messages.snoc stepped, moved⟩

/-- Where no terminator is missing, nothing but messages is left to do. -/
theorem Represents.last (represents : Represents network service cut got) (whole : ∀ i, ¬ cut i)
    (last : ∀ move result, Network.step modulus files network move ≠ .ok result) (move : Move n)
    (result : Unit × Service n) : Service.step modulus files service move ≠ .ok result := by
  have silent : ∀ i ret, (network.port i).advanceClient (files i) ret = none := by
    intro i ret
    cases advanced : (network.port i).advanceClient (files i) ret with
    | none => rfl
    | some port => exact absurd (by rw [Network.step, advanced]) (last (.client i ret) ((), _))
  intro done
  obtain ⟨output, after⟩ := result
  cases move with
  | client i =>
      rw [Service.step] at done
      split at done
      · cases done
      · obtain ⟨flag, _, conveys⟩ := represents.port i
        obtain ⟨ret, port, advanced⟩ := conveys.client_moves ‹_›
        rw [silent] at advanced
        cases advanced
  | accept i =>
      rw [Service.step] at done
      split at done
      · rename_i ready
        split at done
        · rename_i room
          rw [← represents.serving, ← represents.server, Service.isAccepted,
            ← represents.accepted] at ready
          rw [← represents.accepted] at room
          exact last (.accept i) _ ((if_pos ready).trans (if_pos room))
        · cases done
      · cases done
  | serve i =>
      rw [Service.step] at done
      split at done
      · rename_i serving
        split at done
        · cases done
        · rename_i session stepped
          obtain ⟨flag, cuts, conveys⟩ := represents.port i
          obtain rfl : flag = false := by
            rw [Bool.eq_false_iff, Ne, cuts]
            exact whole i
          rcases conveys.thread_moves stepped (files i) with ⟨port, advanced⟩ | some
          · rw [silent] at advanced
            cases advanced
          · cases alive : service.server with
            | none =>
                rw [advanceServer, show (service.view i).server = none from alive] at stepped
                cases stepped
            | some table =>
                obtain ⟨⟨port, server⟩, advanced⟩ := advanceThread_moves modulus table some
                refine last (.serve i) ((), network.put i port server) ?_
                rw [Network.step, if_pos (represents.serving.trans serving), represents.server, alive,
                  Option.bind_some, advanced]
      · cases done
  | join i =>
      rw [Service.step] at done
      split at done
      · rename_i ready
        obtain ⟨serving, alive, ended, _⟩ := ready
        obtain ⟨_, _, conveys⟩ := represents.port i
        obtain ⟨same, nothing⟩ := conveys.over
        rw [← represents.serving] at serving
        rw [← represents.server] at alive
        rw [← same] at ended
        exact last (.join i) _ (if_pos ⟨serving, alive, ended, (nothing ended).1⟩)
      · cases done

theorem Network.not_step_of_closed (free : network.serving = none)
    (closed : ∀ i, i ∈ network.accepted ∧ (network.port i).client = .closed) (move : Transfer n)
    (result : Unit × Network n) : Network.step modulus files network move ≠ .ok result := by
  cases move with
  | client i => simp [Network.step, Port.advanceClient, (closed i).2]
  | accept i => simp [Network.step, (closed i).1]
  | serve i | join i => simp [Network.step, free]

/-- The clients of `two_clients`. -/
def twoWires : Network 2 :=
  listeningWire ⟨[{ name := ['R'] }]⟩ !["Return_Winner\n".toList, "Open_Polls R\n".toList]

/-- The first client's request is written in two pieces. -/
def twoWireMoves : List (Transfer 2) :=
  [.client 0 0, .client 0 2, .accept 1, .client 1 0, .client 1 20] ++
    List.replicate 20 (.serve 1) ++ List.replicate 5 (.client 1 0) ++ [.join 1, .accept 0, .serve 0,
    .client 0 2, .serve 0, .serve 0, .serve 0] ++ List.replicate 7 (.client 0 0) ++ [.join 0]

theorem two_wires : ∃ history, ∃ network : Network 2,
    Run (Network.step (2 ^ 32) fun _ _ => none) twoWires history network ∧
      network.accepted = [1, 0] ∧ network.serving = none ∧ ∀ i, (network.port i).client = .closed :=
  ⟨_, _, .of_execute twoWireMoves rfl, rfl, rfl, by decide⟩

/-- A network between whose messages some run leads to the service. -/
def Follows (modulus : Nat) (files : Fin n → CStr → Option (List Char)) (requests : Fin n → List Char)
    (start : Table) (network : Network n) (service : Service n) : Prop :=
  ∃ history past, Run (Service.step modulus files) (listening start requests) past service ∧
    Represents network service (Cut history) (received past)

/-- No run goes on for ever, whatever each write takes. -/
theorem wire_ends {dag : CStr} (created : createDAG dag = some start) (states : Nat → Network n)
    (first : states 0 = listeningWire start requests) :
    ¬ ∀ k, ∃ move output, Network.step modulus files (states k) move =
      .ok (output, states (k + 1)) := by
  have initial : Follows modulus files requests start (states 0) (listening start requests) :=
    ⟨[], [], .nil, first ▸ listening_represents⟩
  refine not_endless (fun service => ∑ i, service.left i) Network.bytes ?_ states initial
  rintro network service move output next ⟨history, past, run, represents⟩ answered
  have formed : ∀ table, service.server = some table → WellFormed table := fun table alive =>
    (run_inTurn run).wellFormed (createDAG_initial created).wellFormed alive
  rcases represents.step formed answered with ⟨still, less⟩ | ⟨turn, later, stepped, moved⟩
  · exact .inl ⟨⟨_, past, run, still⟩, less⟩
  · exact .inr ⟨later, ⟨_, _, run.snoc stepped, moved⟩, (Service.step_stepped stepped).falls⟩

/-- The states of `two_wires` one after another, and its last state for ever. -/
def twoWireStates (k : Nat) : Network 2 :=
  match execute (Network.step (2 ^ 32) fun _ _ => none) twoWires (twoWireMoves.take k) with
  | .ok (_, network) => network
  | .error _ => twoWires

theorem wire_ends_sample : ¬ ∀ k, ∃ move output,
    Network.step (2 ^ 32) (fun _ _ => none) (twoWireStates k) move =
      .ok (output, twoWireStates (k + 1)) := by
  have created : createDAG ['R'] = some ⟨[{ name := ['R'] }]⟩ := by decide
  exact wire_ends created twoWireStates rfl

variable {commands : Fin n → List Request} {dag : CStr}

end Networks

end VoteCounting.Client
