import VoteCounting.Client.Answers
import VoteCounting.Client.Framing

namespace VoteCounting.Client

open Counters CString Server

/-- The names in `canidate_names` are C strings. -/
def Clean (state : State) : Prop := ∀ slot ∈ state.tally, NUL ∉ slot.name

section Clean

variable {files : CStr → Option (List Char)} {state after : State} {tally : List Slot}
  {str name file code ending message : CStr} {maxData : Nat}

theorem free_trimwhitespaceBuffer (free : NUL ∉ str) : NUL ∉ trimwhitespaceBuffer str := by
  rw [trimwhitespaceBuffer]
  split
  · exact free
  · exact fun held => free (trimEnd_sub.subset held)

theorem free_getD_words (free : NUL ∉ str) (i : Nat) : NUL ∉ (makeargv str ' ').getD i [] := by
  rw [List.getD_eq_getElem?_getD]
  cases found : (makeargv str ' ')[i]? with
  | none => exact List.not_mem_nil
  | some word => exact fun held => free (mem_of_mem_tokens (List.mem_of_getElem? found) held)

theorem free_capReq (free : NUL ∉ str) : NUL ∉ capReq maxData str := by
  rw [capReq, List.mem_append, List.mem_replicate]
  rintro (held | ⟨_, same⟩)
  · exact free held
  · exact absurd same (by decide)

theorem free_stringPad (free : NUL ∉ str) : NUL ∉ stringPad str := by
  rw [stringPad, List.mem_append, List.mem_replicate]
  rintro (held | ⟨_, same⟩)
  · exact free held
  · exact absurd same (by decide)

theorem free_regionRequest (codeFree : NUL ∉ code) (free : NUL ∉ name) (endingFree : NUL ∉ ending) :
    NUL ∉ regionRequest maxData code name ending := by
  refine free_capReq ?_
  rw [List.mem_append, List.mem_append]
  rintro ((held | held) | held)
  · exact codeFree held
  · exact free_stringPad (free_trimwhitespaceBuffer free) held
  · exact endingFree held

theorem placeVote_clean (clean : ∀ slot ∈ tally, NUL ∉ slot.name) (free : NUL ∉ name) :
    ∀ slot ∈ placeVote name tally, NUL ∉ slot.name := by
  induction tally with
  | nil => exact List.forall_mem_singleton.mpr free
  | cons slot rest ih =>
      obtain ⟨own, others⟩ := List.forall_mem_cons.mp clean
      rw [placeVote]
      split
      · exact List.forall_mem_cons.mpr ⟨free, others⟩
      · split
        · exact List.forall_mem_cons.mpr ⟨own, others⟩
        · exact List.forall_mem_cons.mpr ⟨own, ih others⟩

theorem leafcounter_clean (clean : ∀ slot ∈ tally, NUL ∉ slot.name) (text : List Char) :
    ∀ slot ∈ leafcounter tally text, NUL ∉ slot.name := by
  rw [leafcounter]
  generalize getlines text = lines
  induction lines generalizing tally with
  | nil => exact clean
  | cons line rest ih =>
      exact ih (placeVote_clean clean (free_trimwhitespaceBuffer (nul_not_mem_strcpy line)))

theorem clear_clean (clean : ∀ slot ∈ tally, NUL ∉ slot.name) :
    ∀ slot ∈ clear tally, NUL ∉ slot.name := by
  intro slot held
  obtain ⟨i, inside, rfl⟩ := List.mem_mapIdx.mp held
  have own := clean _ (List.getElem_mem inside)
  split
  · split
    · exact List.not_mem_nil
    · exact own
  · exact own

theorem printFileIntoData_clean (clean : Clean state) (free : NUL ∉ code) :
    NUL ∉ (printFileIntoData state code).1 ∧ (printFileIntoData state code).1 ≠ [] ∧
      Clean (printFileIntoData state code).2 := by
  refine ⟨free_capReq ?_, by simp [printFileIntoData, capReq], clear_clean clean⟩
  rw [List.mem_append]
  rintro (held | held)
  · rcases List.mem_append.mp (List.mem_of_mem_dropLast held) with held | held
    · exact free held
    · obtain ⟨slot, live, held⟩ := List.mem_flatMap.mp held
      have own := clean slot ((List.takeWhile_prefix _).subset live)
      rw [voteText] at held
      simp only [List.append_assoc, List.mem_append, List.cons_append, List.mem_cons] at held
      rcases held with held | same | held | same
      · exact own held
      · exact absurd same (by decide)
      · exact mem_decimal_ne held (by decide) (by decide) rfl
      · exact absurd same (by decide)
  · exact absurd held (by decide)

theorem voteRequest_clean {sent : CStr × State} (clean : Clean state) (codeFree : NUL ∉ code)
    (free : NUL ∉ name) (done : voteRequest files state code name file = some sent) :
    NUL ∉ sent.1 ∧ sent.1 ≠ [] ∧ Clean sent.2 := by
  obtain ⟨text, opened, done⟩ := Option.bind_eq_some_iff.mp done
  cases done
  refine printFileIntoData_clean (leafcounter_clean clean text) ?_
  rw [List.mem_append, List.mem_append]
  rintro ((held | held) | held)
  · exact codeFree held
  · exact free_stringPad (free_trimwhitespaceBuffer free) held
  · exact absurd held (by decide)

/-- What is sent for a line is a C string, and not an empty one. -/
theorem dispatchLine_clean {sent : Option CStr} (clean : Clean state) (free : NUL ∉ str)
    (dispatched : dispatchLine files state str = some (sent, after)) :
    (∀ message, sent = some message → NUL ∉ message ∧ message ≠ []) ∧ Clean after := by
  have regionFree := free_getD_words free 1
  have fileFree := free_getD_words free 2
  have named : ∀ code name ending, NUL ∉ code → NUL ∉ name → NUL ∉ ending → code ≠ [] →
      (∀ message, some (regionRequest state.maxData code name ending) = some message →
        NUL ∉ message ∧ message ≠ []) ∧ Clean state := by
    intro code name ending codeFree nameFree endingFree nonempty
    refine ⟨?_, clean⟩
    rintro _ ⟨⟩
    exact ⟨free_regionRequest codeFree nameFree endingFree, by simp [regionRequest, capReq, nonempty]⟩
  have voted : ∀ code (request : Option (CStr × State)), NUL ∉ code →
      voteRequest files state code ((makeargv str ' ').getD 1 [])
        ((makeargv str ' ').getD 2 []) = request →
      request.map (fun sent => (some sent.1, sent.2)) = some (sent, after) →
      (∀ message, sent = some message → NUL ∉ message ∧ message ≠ []) ∧ Clean after := by
    rintro code request codeFree asked dispatched
    obtain ⟨built, found, same⟩ := Option.map_eq_some_iff.mp dispatched
    cases same
    obtain ⟨messageFree, nonempty, last⟩ :=
      voteRequest_clean clean codeFree regionFree (asked.trans found)
    exact ⟨fun _ same => Option.some.inj same ▸ ⟨messageFree, nonempty⟩, last⟩
  rw [dispatchLine] at dispatched
  simp only at dispatched
  split at dispatched
  · cases dispatched
  · split_ifs at dispatched
    · cases dispatched
      exact named _ _ _ (by decide) regionFree (by decide) (by decide)
    · exact voted _ _ (by decide) rfl dispatched
    · cases dispatched
      exact named _ _ _ (by decide) regionFree (by decide) (by decide)
    · cases dispatched
      exact named _ _ _ (by decide) regionFree (by decide) (by decide)
    · cases dispatched
      exact ⟨fun _ same => Option.some.inj same ▸
        ⟨free_capReq (by decide), by simp [returnWinner, capReq]⟩, clean⟩
    · exact voted _ _ (by decide) rfl dispatched
    · cases dispatched
      refine named _ _ _ (by decide) regionFree ?_ (by decide)
      rw [List.mem_cons]
      rintro (same | held)
      · exact absurd same (by decide)
      · exact free_trimwhitespaceBuffer fileFree held
    · cases dispatched
      refine ⟨?_, clean⟩
      rintro _ ⟨⟩

end Clean

/-- `writing` is the loop of `write_all` before a `write` of the `len + 1` bytes from `str` on, and
`reading` the loop of `getResponse`. -/
inductive Stage where
  | ready (lines : List (List Char))
  | writing (str : List Char) (len : Int) (lines : List (List Char))
  | reading (buffer : CStr) (lines : List (List Char))
  | closed
  | stopped
deriving DecidableEq, Repr

/-- `printed` are the responses the client has printed, `toServer` and `toClient` the bytes in
flight, and `buffer` is the `buffer_r` of the thread of the connection. -/
structure Port where
  client : Stage
  state : State := {}
  printed : List CStr := []
  toServer : List Char := []
  toClient : List Char := []
  buffer : CStr := []
deriving DecidableEq, Repr

/-- The memory a `send` of `strlen + 1` bytes is given. -/
def sendBytes (response : Response) : List Char := strcpy response.text ++ [NUL]

/-- `getResponse` puts a blank for each semicolon. -/
def responseByte (byte : Char) : Char := if byte = ';' then ' ' else byte

def responseLine (buffer : CStr) : CStr :=
  "Received response from server: ".toList ++
    if buffer = "SC ".toList then "SC (null)".toList else buffer

/-- What the client prints for a response. -/
def shown (response : Response) : CStr := responseLine ((strcpy response.text).map responseByte)

/-- The test of the loop in `write_all`. -/
def writeOn (str : List Char) (len : Int) (lines : List (List Char)) : Stage :=
  if 0 < len then .writing str len lines else .reading [] lines

section Advance

variable (modulus : Nat) (files : CStr → Option (List Char))

/-- The next step of the client, up to the next `write` or `read`; `ret` are the bytes a `write`
takes. -/
def Port.advanceClient (ret : Nat) (port : Port) : Option Port :=
  match port.client with
  | .ready [] => some { port with client := .closed }
  | .ready (line :: lines) =>
      match dispatchLine files port.state (strcpy line) with
      | none => some { port with client := .stopped }
      | some (none, state) => some { port with client := .reading [] lines, state }
      | some (some message, state) => some
          { port with client := writeOn (message ++ [NUL]) message.length lines, state }
  | .writing str len lines =>
      if 1 ≤ ret ∧ (ret : Int) ≤ len + 1 then
        some
          { port with
            client := writeOn (str.drop ret) (len - ret) lines
            toServer := port.toServer ++ str.take ret }
      else none
  | .reading buffer lines =>
      match port.toClient with
      | [] => none
      | byte :: later =>
          if byte = NUL then some
            { port with
              client := .ready lines
              printed := port.printed ++ [responseLine buffer]
              toClient := later }
          else some
            { port with
              client := .reading (buffer ++ [responseByte byte]) lines
              toClient := later }
  | .closed | .stopped => none

/-- One byte is read, and the request dispatched behind its terminator. -/
def Port.advanceThread (table : Table) (port : Port) : Option (Port × Option Table) :=
  match port.toServer with
  | [] => none
  | byte :: later =>
      match runThread (serveRequest modulus) [byte] ⟨port.buffer, [], table⟩ with
      | .error _ => some ({ port with toServer := later }, none)
      | .ok thread => some
          ({ port with
              toServer := later
              toClient := port.toClient ++ thread.server.1.flatMap sendBytes
              buffer := thread.buffer }, some thread.server.2)

end Advance

/-- The client has closed the connection. -/
def Stage.isOver : Stage → Bool
  | .closed | .stopped => true
  | .ready _ | .writing .. | .reading .. => false

/-- The messages in flight that the bytes of a connection stand for, and the responses the client
has printed; where `cut` is true, the terminator of the last request has not been sent. -/
inductive Conveys : Bool → Port → Seat → List Response → Prop
  | ready {lines : List (List Char)} {state : State} {got : List Response} :
      Conveys false ⟨.ready lines, state, got.map shown, [], [], []⟩ ⟨.ready lines, state, [], []⟩ got
  | writing {lines : List (List Char)} {state : State} {got : List Response}
      {buffer toServer rest message : CStr} (whole : buffer ++ toServer ++ rest = message)
      (free : NUL ∉ message) (more : rest ≠ []) :
      Conveys false
        ⟨.writing (rest ++ [NUL]) rest.length lines, state, got.map shown, toServer, [], buffer⟩
        ⟨.waiting lines, state, [message], []⟩ got
  | written {lines : List (List Char)} {state : State} {got : List Response}
      {buffer toServer message : CStr} (whole : buffer ++ toServer = message) (free : NUL ∉ message) :
      Conveys false ⟨.reading [] lines, state, got.map shown, toServer ++ [NUL], [], buffer⟩
        ⟨.waiting lines, state, [message], []⟩ got
  | cut {lines : List (List Char)} {state : State} {got : List Response}
      {buffer toServer message : CStr} (whole : buffer ++ toServer = message) (free : NUL ∉ message) :
      Conveys true ⟨.reading [] lines, state, got.map shown, toServer, [], buffer⟩
        ⟨.waiting lines, state, [message], []⟩ got
  | answered {lines : List (List Char)} {state : State} {got : List Response} {heard rest : CStr}
      {response : Response} (whole : heard ++ rest = strcpy response.text) :
      Conveys false
        ⟨.reading (heard.map responseByte) lines, state, got.map shown, [], rest ++ [NUL], []⟩
        ⟨.waiting lines, state, [], [response]⟩ got
  | silent {lines : List (List Char)} {state : State} {got : List Response} {buffer : CStr} :
      Conveys false ⟨.reading [] lines, state, got.map shown, [], [], buffer⟩
        ⟨.waiting lines, state, [], []⟩ got
  | closed {state : State} {got : List Response} :
      Conveys false ⟨.closed, state, got.map shown, [], [], []⟩ ⟨.closed, state, [], []⟩ got
  | stopped {state : State} {got : List Response} :
      Conveys false ⟨.stopped, state, got.map shown, [], [], []⟩ ⟨.stopped, state, [], []⟩ got

/-- A write takes all bytes but the terminator. -/
def Port.Cuts (port : Port) (ret : Nat) : Prop :=
  ∃ str lines, port.client = .writing str ret lines

/-- A byte is written before it is read. -/
def Stage.bytes : Stage → Nat
  | .writing str _ _ => 2 * str.length
  | .ready _ | .reading .. | .closed | .stopped => 0

def Port.bytes (port : Port) : Nat :=
  port.client.bytes + port.toServer.length + port.toClient.length

def Seat.session (seat : Seat) (server : Option Table) : Session :=
  ⟨seat.client, seat.state, seat.toServer, seat.toClient, server⟩

section Carrying

variable {modulus : Nat} {files : CStr → Option (List Char)} {port next : Port} {seat : Seat}
  {got : List Response} {table : Table} {server : Option Table} {cut : Bool} {ret : Nat}

/-- A write takes some bytes of a request, and its terminator with the last of them or not. -/
theorem Conveys.write (lines : List (List Char)) (state : State) (got : List Response)
    {buffer toServer rest message : CStr}
    (whole : buffer ++ toServer ++ rest = message) (free : NUL ∉ message) (positive : 1 ≤ ret)
    (fits : (ret : Int) ≤ rest.length + 1) :
    Conveys (decide (ret = rest.length))
      ⟨writeOn ((rest ++ [NUL]).drop ret) (rest.length - ret) lines, state, got.map shown,
        toServer ++ (rest ++ [NUL]).take ret, [], buffer⟩
      ⟨.waiting lines, state, [message], []⟩ got := by
  rcases Nat.lt_trichotomy ret rest.length with inside | all | beyond
  · have left : 0 < (rest.drop ret).length := by
      rw [List.length_drop]
      omega
    have count : (rest.length : Int) - ret = (rest.drop ret).length := by
      rw [List.length_drop]
      omega
    have further : buffer ++ (toServer ++ rest.take ret) ++ rest.drop ret = message := by
      rw [← whole, List.append_assoc, List.append_assoc, List.take_append_drop, List.append_assoc]
    rw [decide_eq_false inside.ne, List.drop_append_of_le_length inside.le,
      List.take_append_of_le_length inside.le, count, writeOn, if_pos (by omega)]
    exact .writing further free (List.length_pos_iff.mp left)
  · subst all
    rw [decide_eq_true rfl, List.take_left, writeOn, if_neg (by omega)]
    exact .cut (by rw [← whole, List.append_assoc]) free
  · obtain rfl : ret = (rest ++ [NUL]).length := by
      rw [List.length_append, List.length_singleton]
      omega
    rw [decide_eq_false (by simp), List.take_length, writeOn, if_neg (by simp), ← List.append_assoc]
    exact .written (by rw [← whole, List.append_assoc]) free

theorem write_bytes {lines : List (List Char)} {state : State} {printed : List CStr}
    {buffer toServer rest : CStr} (positive : 1 ≤ ret) (fits : (ret : Int) ≤ rest.length + 1) :
    Port.bytes ⟨writeOn ((rest ++ [NUL]).drop ret) (rest.length - ret) lines, state, printed,
        toServer ++ (rest ++ [NUL]).take ret, [], buffer⟩ <
      Port.bytes
        ⟨.writing (rest ++ [NUL]) rest.length lines, state, printed, toServer, [], buffer⟩ := by
  have less : (writeOn ((rest ++ [NUL]).drop ret) (rest.length - ret) lines).bytes ≤
      2 * ((rest ++ [NUL]).length - ret) := by
    rw [← List.length_drop, writeOn]
    split
    · exact le_refl _
    · exact Nat.zero_le _
  simp only [Port.bytes, Stage.bytes, List.length_append, List.length_take, List.length_singleton,
    List.length_nil] at less ⊢
  omega

/-- A step of the client is one of its steps between messages, or nothing but bytes. -/
theorem Conveys.client (server : Option Table) (conveys : Conveys cut port seat got)
    (clean : Clean seat.state) (advanced : port.advanceClient files ret = some next) :
    (Conveys cut next seat got ∧ ¬ port.Cuts ret ∨ Conveys true next seat got ∧ port.Cuts ret) ∧
        next.bytes < port.bytes ∨
      ∃ session, advanceClient files (seat.session server) = some session ∧ Clean session.state ∧
        Conveys cut next session.seat (got ++ (seat.session server).taken.toList) ∧
        ¬ port.Cuts ret := by
  cases conveys with
  | @ready lines state got =>
      have still : ¬ Port.Cuts ⟨.ready lines, state, got.map shown, [], [], []⟩ ret := by
        rintro ⟨str, later, same⟩
        cases same
      right
      cases lines with
      | nil =>
          cases advanced
          refine ⟨_, rfl, clean, ?_, still⟩
          rw [show (Seat.session ⟨.ready [], state, [], []⟩ server).taken = none from rfl,
            Option.toList_none, List.append_nil]
          exact .closed
      | cons line lines =>
          rw [Port.advanceClient] at advanced
          rw [show (Seat.session ⟨.ready (line :: lines), state, [], []⟩ server).taken = none from rfl,
            Option.toList_none, List.append_nil]
          cases dispatched : dispatchLine files state (strcpy line) with
          | none =>
              simp only [dispatched] at advanced
              cases advanced
              refine ⟨⟨.stopped, state, [], [], server⟩, ?_, clean, .stopped, still⟩
              rw [advanceClient, Seat.session]
              simp only [dispatched]
          | some result =>
              obtain ⟨message, after⟩ := result
              obtain ⟨sent, formed⟩ := dispatchLine_clean clean (nul_not_mem_strcpy line) dispatched
              refine ⟨⟨.waiting lines, after, message.toList, [], server⟩, ?_, formed, ?_, still⟩
              · rw [advanceClient, Seat.session]
                simp only [dispatched, List.nil_append]
              · cases message with
                | none =>
                    simp only [dispatched] at advanced
                    cases advanced
                    exact .silent
                | some message =>
                    obtain ⟨free, nonempty⟩ := sent message rfl
                    have more : 0 < (message.length : Int) := by
                      have positive := List.length_pos_iff.mpr nonempty
                      omega
                    simp only [dispatched, writeOn, if_pos more] at advanced
                    cases advanced
                    exact .writing rfl free nonempty
  | @writing lines state got buffer toServer rest message whole free more =>
      left
      rw [Port.advanceClient] at advanced
      simp only at advanced
      split at advanced
      · rename_i takes
        cases advanced
        have wrote := Conveys.write lines state got whole free takes.1 takes.2
        refine ⟨?_, write_bytes takes.1 takes.2⟩
        by_cases all : ret = rest.length
        · exact .inr ⟨by simpa [all] using wrote, ⟨_, _, by rw [all]⟩⟩
        · refine .inl ⟨by simpa [all] using wrote, ?_⟩
          rintro ⟨str, later, same⟩
          cases same
          exact all (by omega)
      · cases advanced
  | written whole free => cases advanced
  | cut whole free => cases advanced
  | @answered lines state got heard rest response whole =>
      have still : ∀ heard toClient,
          ¬ Port.Cuts ⟨.reading heard lines, state, got.map shown, [], toClient, []⟩ ret := by
        rintro heard toClient ⟨str, later, same⟩
        cases same
      rw [Port.advanceClient] at advanced
      cases rest with
      | nil =>
          right
          cases advanced
          refine ⟨_, rfl, clean, ?_, still _ _⟩
          have printed : got.map shown ++ [responseLine (heard.map responseByte)] =
              (got ++ [response]).map shown := by
            rw [List.map_append, List.map_singleton, shown, ← whole, List.append_nil]
          rw [show (Seat.session ⟨.waiting lines, state, [], [response]⟩ server).taken =
            some response from rfl, Option.toList_some, printed]
          exact .ready
      | cons byte rest =>
          left
          simp only [List.cons_append] at advanced
          have other : byte ≠ NUL := by
            rintro rfl
            exact nul_not_mem_strcpy response.text (whole ▸ by simp)
          rw [if_neg other] at advanced
          cases advanced
          refine ⟨.inl ⟨?_, still _ _⟩, by simp [Port.bytes, Stage.bytes]⟩
          have further : (heard ++ [byte]) ++ rest = strcpy response.text := by rw [← whole]; simp
          rw [← List.map_singleton, ← List.map_append]
          exact .answered further
  | silent => cases advanced
  | closed => cases advanced
  | stopped => cases advanced

theorem advanceThread_byte {client : Stage} {state : State} {printed : List CStr} {byte : Char}
    {later toClient : List Char} {buffer : CStr} (other : byte ≠ NUL) :
    Port.advanceThread modulus table ⟨client, state, printed, byte :: later, toClient, buffer⟩ =
      some (⟨client, state, printed, later, toClient, buffer ++ [byte]⟩, some table) := by
  simp only [Port.advanceThread, runThread, if_neg other, List.flatMap_nil, List.append_nil]

theorem advanceThread_dispatched {client : Stage} {state : State} {printed : List CStr}
    {later toClient : List Char} {buffer : CStr} {answer : List Response} {after : Table}
    (dispatched : dispatchCode modulus table buffer = .ok (answer, after)) :
    Port.advanceThread modulus table ⟨client, state, printed, NUL :: later, toClient, buffer⟩ =
      some (⟨client, state, printed, later, toClient ++ answer.flatMap sendBytes, []⟩, some after) := by
  simp only [Port.advanceThread, runThread, if_pos, serveRequest, dispatched]
  rfl

theorem advanceThread_failed {client : Stage} {state : State} {printed : List CStr}
    {later toClient : List Char} {buffer : CStr} {fault : Fault}
    (dispatched : dispatchCode modulus table buffer = .error fault) :
    Port.advanceThread modulus table ⟨client, state, printed, NUL :: later, toClient, buffer⟩ =
      some (⟨client, state, printed, later, toClient, buffer⟩, none) := by
  simp only [Port.advanceThread, runThread, if_pos, serveRequest, dispatched]
  rfl

/-- So is a step of the thread. -/
theorem Conveys.thread (wellFormed : WellFormed table) (conveys : Conveys cut port seat got)
    (advanced : port.advanceThread modulus table = some (next, server)) :
    (Conveys cut next seat got ∧ server = some table) ∧ next.bytes < port.bytes ∨
      ∃ session, advanceServer modulus (seat.session (some table)) = some session ∧
        session.server = server ∧ session.state = seat.state ∧ Conveys cut next session.seat got := by
  cases conveys with
  | @writing lines state got buffer toServer rest message whole free more =>
      cases toServer with
      | nil => cases advanced
      | cons byte later =>
          have other : byte ≠ NUL := by
            rintro rfl
            exact free (whole ▸ by simp)
          rw [advanceThread_byte other] at advanced
          cases advanced
          exact .inl ⟨⟨.writing (by rw [← whole]; simp) free more, rfl⟩, by simp [Port.bytes]⟩
  | @written lines state got buffer toServer message whole free =>
      cases toServer with
      | nil =>
          rw [List.append_nil] at whole
          subst whole
          right
          rw [List.nil_append] at advanced
          cases dispatched : dispatchCode modulus table buffer with
          | error fault =>
              rw [advanceThread_failed dispatched] at advanced
              cases advanced
              refine ⟨⟨.waiting lines, state, [], [], none⟩, ?_, rfl, rfl, .silent⟩
              rw [advanceServer, Seat.session]
              simp only [dispatched]
          | ok result =>
              obtain ⟨answer, after⟩ := result
              obtain ⟨response, rfl⟩ := (dispatchCode_step wellFormed.nonempty dispatched).single
              rw [advanceThread_dispatched dispatched] at advanced
              cases advanced
              refine ⟨⟨.waiting lines, state, [], [response], some after⟩, ?_, rfl, rfl, ?_⟩
              · rw [advanceServer, Seat.session]
                simp only [dispatched, List.nil_append]
              · have sent : [response].flatMap sendBytes = strcpy response.text ++ [NUL] :=
                  List.flatMap_singleton ..
                rw [List.nil_append, sent]
                exact .answered (List.nil_append _)
      | cons byte later =>
          have other : byte ≠ NUL := by
            rintro rfl
            exact free (whole ▸ by simp)
          rw [List.cons_append, advanceThread_byte other] at advanced
          cases advanced
          exact .inl ⟨⟨.written (by rw [← whole]; simp) free, rfl⟩, by simp [Port.bytes]⟩
  | @cut lines state got buffer toServer message whole free =>
      cases toServer with
      | nil => cases advanced
      | cons byte later =>
          have other : byte ≠ NUL := by
            rintro rfl
            exact free (whole ▸ by simp)
          rw [advanceThread_byte other] at advanced
          cases advanced
          exact .inl ⟨⟨.cut (by rw [← whole]; simp) free, rfl⟩, by simp [Port.bytes]⟩
  | ready => cases advanced
  | answered => cases advanced
  | silent => cases advanced
  | closed => cases advanced
  | stopped => cases advanced

/-- A connection is closed with no bytes left on it. -/
theorem Conveys.over (conveys : Conveys cut port seat got) :
    port.client.isOver = seat.client.isOver ∧
      (port.client.isOver = true → port.toServer = [] ∧ seat.toServer = [] ∧ cut = false) := by
  cases conveys <;> exact ⟨rfl, fun ended => by first | exact ⟨rfl, rfl, rfl⟩ | cases ended⟩

theorem Conveys.closed_iff (conveys : Conveys cut port seat got) :
    port.client = .closed ↔ seat.client = .closed := by
  cases conveys <;> simp

theorem Conveys.printed_eq (conveys : Conveys cut port seat got) : port.printed = got.map shown := by
  cases conveys <;> rfl

/-- Where a client can go on between messages, it can do so on the wire. -/
theorem Conveys.client_moves {session : Session} (conveys : Conveys cut port seat got)
    (stepped : advanceClient files (seat.session server) = some session) :
    ∃ ret after, port.advanceClient files ret = some after := by
  cases conveys with
  | @ready lines =>
      refine ⟨0, ?_⟩
      cases lines with
      | nil => exact ⟨_, rfl⟩
      | cons line lines =>
          rw [Port.advanceClient]
          simp only
          split <;> exact ⟨_, rfl⟩
  | @answered lines state got heard rest =>
      refine ⟨0, ?_⟩
      rw [Port.advanceClient]
      cases rest with
      | nil => exact ⟨_, rfl⟩
      | cons byte rest =>
          simp only [List.cons_append]
          split <;> exact ⟨_, rfl⟩
  | writing | written | cut | silent | closed | stopped => cases stepped

/-- Where the server has a request, it is still being written or the thread can read. -/
theorem Conveys.thread_moves {session : Session} (conveys : Conveys false port seat got)
    (stepped : advanceServer modulus (seat.session server) = some session)
    (files : CStr → Option (List Char)) :
    (∃ after, port.advanceClient files 1 = some after) ∨ port.toServer ≠ [] := by
  cases conveys with
  | writing =>
      left
      rw [Port.advanceClient]
      simp only
      exact ⟨_, if_pos ⟨le_refl 1, by omega⟩⟩
  | written => exact .inr (by simp)
  | ready | answered | silent | closed | stopped => cases server <;> cases stepped

theorem advanceThread_moves (modulus : Nat) (table : Table) (some : port.toServer ≠ []) :
    ∃ result, port.advanceThread modulus table = .some result := by
  obtain ⟨byte, later, shape⟩ := List.exists_cons_of_ne_nil some
  rw [Port.advanceThread, shape]
  simp only
  split <;> exact ⟨_, rfl⟩

end Carrying

end VoteCounting.Client
