import VoteCounting.Client.Requests
import VoteCounting.Server.Structure
import Mathlib.Logic.Relation

namespace VoteCounting.Client

open CString Server Relation

inductive Phase where
  | ready (lines : List (List Char))
  | waiting (lines : List (List Char))
  | closed
  | stopped
deriving DecidableEq, Repr

/-- `toServer` and `toClient` are the messages in flight.  A server that followed a null
pointer is `none`. -/
structure Session where
  client : Phase
  state : State := {}
  toServer : List CStr := []
  toClient : List Response := []
  server : Option Table
deriving DecidableEq, Repr

inductive Party where
  | client
  | server
deriving DecidableEq, Repr

section Advance

variable (modulus : Nat) (files : CStr → Option (List Char))

/-- One line is dispatched, or one response is taken in `getResponse`. -/
def advanceClient (session : Session) : Option Session :=
  match session.client with
  | .ready [] => some { session with client := .closed }
  | .ready (line :: lines) =>
      match dispatchLine files session.state (strcpy line) with
      | none => some { session with client := .stopped }
      | some (message, state) => some
          { session with
            client := .waiting lines
            state
            toServer := session.toServer ++ message.toList }
  | .waiting lines =>
      match session.toClient with
      | [] => none
      | _ :: later => some { session with client := .ready lines, toClient := later }
  | .closed | .stopped => none

/-- One request is read and answered. -/
def advanceServer (session : Session) : Option Session :=
  match session.server, session.toServer with
  | some table, str :: later =>
      match dispatchCode modulus table str with
      | .error _ => some { session with server := none, toServer := later }
      | .ok (answer, after) => some
          { session with
            server := some after
            toServer := later
            toClient := session.toClient ++ answer }
  | _, _ => none

def advance (session : Session) : Party → Option Session
  | .client => advanceClient files session
  | .server => advanceServer modulus session

def Advances (session after : Session) : Prop :=
  ∃ party, advance modulus files session party = some after

end Advance

def connected (table : Table) (requests : List Char) : Session :=
  { client := .ready (getlines requests), server := some table }

/-- The client waits for a response, the server waits for a request, and nothing is in flight. -/
def Stuck (session : Session) : Prop :=
  (∃ lines, session.client = .waiting lines) ∧ session.server.isSome ∧
    session.toServer = [] ∧ session.toClient = []

def commandNames : List CStr :=
  ["Open_Polls", "Add_Votes", "Count_Votes", "Close_Polls", "Return_Winner", "Remove_Votes",
    "Add_Region"].map String.toList

/-- A line whose first word is none of the commands, such as an empty one. -/
def Unmatched (str : CStr) : Prop :=
  ∃ word, (makeargv str ' ').head? = some word ∧ trimwhitespaceBuffer word ∉ commandNames

/-- The client dispatches such a line next. -/
def Faces (session : Session) : Prop :=
  ∃ line lines, session.client = .ready (line :: lines) ∧ Unmatched (strcpy line)

section Lockstep

variable {modulus : Nat} {files : CStr → Option (List Char)} {state after : State}
  {str : CStr} {message : Option CStr}

theorem dispatchLine_unmatched (unmatched : Unmatched str) :
    dispatchLine files state str = some (none, state) := by
  obtain ⟨word, first, unknown⟩ := unmatched
  have others : ∀ name ∈ commandNames, trimwhitespaceBuffer word ≠ name := fun name held same =>
    unknown (same ▸ held)
  simp only [commandNames, List.map_cons, List.map_nil, List.forall_mem_cons] at others
  obtain ⟨opens, adds, counts, closes, wins, removes, region, _⟩ := others
  simp only [dispatchLine, first, if_neg opens, if_neg adds, if_neg counts, if_neg closes,
    if_neg wins, if_neg removes, if_neg region]

theorem dispatchLine_matched (dispatched : dispatchLine files state str = some (message, after))
    (matched : ¬ Unmatched str) : ∃ request, message = some request := by
  cases first : (makeargv str ' ').head? with
  | none => simp [dispatchLine, first] at dispatched
  | some word =>
      have known : trimwhitespaceBuffer word ∈ commandNames := by
        by_contra unknown
        exact matched ⟨word, first, unknown⟩
      simp only [commandNames, List.map_cons, List.map_nil, List.mem_cons, List.not_mem_nil,
        or_false] at known
      cases message with
      | some request => exact ⟨request, rfl⟩
      | none =>
          rcases known with cmd | cmd | cmd | cmd | cmd | cmd | cmd <;>
            simp [dispatchLine, first, cmd] at dispatched

/-- At most one message is in flight, and it is the turn of the party it goes to. -/
inductive Lockstep : Session → Prop
  | ready {lines : List (List Char)} {state : State} {table : Table} :
      WellFormed table → Lockstep ⟨.ready lines, state, [], [], some table⟩
  | requested {lines : List (List Char)} {state : State} {str : CStr} {table : Table} :
      WellFormed table → Lockstep ⟨.waiting lines, state, [str], [], some table⟩
  | answered {lines : List (List Char)} {state : State} {response : Response} {table : Table} :
      WellFormed table → Lockstep ⟨.waiting lines, state, [], [response], some table⟩
  | failed {lines : List (List Char)} {state : State} : Lockstep ⟨.waiting lines, state, [], [], none⟩
  | closed {state : State} {table : Table} : Lockstep ⟨.closed, state, [], [], some table⟩
  | stopped {state : State} {table : Table} : Lockstep ⟨.stopped, state, [], [], some table⟩

theorem Lockstep.not_stuck {session : Session} (lockstep : Lockstep session) : ¬ Stuck session := by
  intro ⟨⟨lines, waiting⟩, alive, noRequest, noResponse⟩
  cases lockstep with
  | ready => cases waiting
  | requested => cases noRequest
  | answered => cases noResponse
  | failed => cases alive
  | closed => cases waiting
  | stopped => cases waiting

theorem Lockstep.client {session after : Session} (lockstep : Lockstep session)
    (advanced : advanceClient files session = some after) (matched : ¬ Faces session) :
    Lockstep after := by
  cases lockstep with
  | @ready lines state table wellFormed =>
      cases lines with
      | nil =>
          cases advanced
          exact .closed
      | cons line rest =>
          simp only [advanceClient] at advanced
          split at advanced
          · cases advanced
            exact .stopped
          · rename_i dispatched
            cases advanced
            have known : ¬ Unmatched (strcpy line) :=
              fun unmatched => matched ⟨line, rest, rfl, unmatched⟩
            obtain ⟨request, rfl⟩ := dispatchLine_matched dispatched known
            exact .requested wellFormed
  | requested => cases advanced
  | answered wellFormed =>
      cases advanced
      exact .ready wellFormed
  | failed => cases advanced
  | closed => cases advanced
  | stopped => cases advanced

/-- After an unknown first word both parties wait. -/
theorem Lockstep.stuck_of_faces {session : Session} (lockstep : Lockstep session)
    (faces : Faces session) : ∃ after, advanceClient files session = some after ∧ Stuck after := by
  obtain ⟨line, rest, next, unmatched⟩ := faces
  cases lockstep with
  | ready =>
      cases next
      simp only [advanceClient, dispatchLine_unmatched unmatched]
      exact ⟨_, rfl, ⟨rest, rfl⟩, rfl, rfl, rfl⟩
  | requested => cases next
  | answered => cases next
  | failed => cases next
  | closed => cases next
  | stopped => cases next

theorem Lockstep.server {session after : Session} (lockstep : Lockstep session)
    (advanced : advanceServer modulus session = some after) : Lockstep after := by
  cases lockstep with
  | ready => cases advanced
  | @requested lines state str table wellFormed =>
      simp only [advanceServer] at advanced
      split at advanced
      · cases advanced
        exact .failed
      · rename_i answer next answered
        cases advanced
        obtain ⟨response, rfl⟩ := (dispatchCode_step wellFormed.nonempty answered).single
        exact .answered (wellFormed.step answered)
  | answered => cases advanced
  | failed => cases advanced
  | closed => cases advanced
  | stopped => cases advanced

end Lockstep

theorem Lockstep.reached {modulus : Nat} {files : CStr → Option (List Char)} {first session : Session}
    (start : Lockstep first)
    (matched : ∀ between, ReflTransGen (Advances modulus files) first between → Lockstep between →
      ¬ Faces between)
    (reached : ReflTransGen (Advances modulus files) first session) : Lockstep session := by
  induction reached with
  | refl => exact start
  | @tail earlier later before advanced ih =>
      obtain ⟨party, advanced⟩ := advanced
      cases party with
      | client => exact ih.client advanced (matched earlier before ih)
      | server => exact ih.server advanced

/-- Client and server never wait for each other exactly where the client never reaches a line
with an unknown first word. -/
theorem never_stuck_iff (modulus : Nat) (files : CStr → Option (List Char)) (dag : CStr)
    (requests : List Char) {table : Table} (created : createDAG dag = some table) :
    (∀ session, ReflTransGen (Advances modulus files) (connected table requests) session →
        ¬ Stuck session) ↔
      ∀ session, ReflTransGen (Advances modulus files) (connected table requests) session →
        ¬ Faces session := by
  have start : Lockstep (connected table requests) := .ready (createDAG_initial created).wellFormed
  constructor
  · intro free
    have matched : ∀ session, ReflTransGen (Advances modulus files) (connected table requests) session →
        Lockstep session → ¬ Faces session := by
      intro session reached lockstep faces
      obtain ⟨after, advanced, stuck⟩ := lockstep.stuck_of_faces faces
      exact free after (reached.tail ⟨.client, advanced⟩) stuck
    exact fun session reached => matched session reached (start.reached matched reached)
  · intro matched session reached
    exact (start.reached (fun between before _ => matched between before) reached).not_stuck

theorem never_stuck_sample : (∀ session,
      ReflTransGen (Advances (2 ^ 32) fun _ => none)
        (connected ⟨[{ name := ['R'] }]⟩ "Return_Winner\n\n".toList) session → ¬ Stuck session) ↔
    ∀ session, ReflTransGen (Advances (2 ^ 32) fun _ => none)
      (connected ⟨[{ name := ['R'] }]⟩ "Return_Winner\n\n".toList) session → ¬ Faces session :=
  never_stuck_iff (2 ^ 32) (fun _ => none) "R".toList "Return_Winner\n\n".toList (by decide)

/-- A blank line leaves both parties waiting. -/
theorem stuck_at_blank_line : ∃ (dag : CStr) (requests : List Char) (table : Table) (session : Session),
    createDAG dag = some table ∧
    ReflTransGen (Advances (2 ^ 32) fun _ => none) (connected table requests) session ∧
    Stuck session := by
  refine ⟨"R".toList, "\n".toList, ⟨[{ name := ['R'] }]⟩,
    ⟨.waiting [], {}, [], [], some ⟨[{ name := ['R'] }]⟩⟩,
    by decide, .single ⟨.client, by decide⟩, ⟨[], rfl⟩, rfl, rfl, rfl⟩

end VoteCounting.Client
