import VoteCounting.Recitations.Transfer
import VoteCounting.Strings

namespace VoteCounting.Recitations.BankServer

open Buffer CString
open Transfer (cleared strcpy_fill)

universe u

/-- `atof`, and the text that `"New Balance=%f\n"` prints. -/
structure Format (α : Type u) where
  atof : CStr → α
  newBalance : α → CStr

inductive Fault where
  | nullPointer
  | outside
  | overflow
deriving DecidableEq, Repr

/-- `i` is the next thread of the pool. -/
structure Bank (α : Type u) where
  balance : Nat → α
  i : Int := 0

/-- What a client is called with. -/
structure Order where
  accountNumber : CStr
  change : CStr
deriving DecidableEq, Repr

inductive Phase where
  | start
  | connected
  | waiting
  | printed (buffer : CStr)
deriving DecidableEq, Repr

/-- `toServer` and `toClient` hold what was sent and not received, `queue` the connections that
wait for `accept`. -/
structure System (α : Type u) (n : Nat) where
  client : Fin n → Phase := fun _ => .start
  toServer : Fin n → List Char := fun _ => []
  toClient : Fin n → List Char := fun _ => []
  queue : List (Fin n) := []
  clientfd : Option (Fin n) := none
  server : Except Fault (Bank α)

/-- The call that returns next; `recv` takes as many bytes as have arrived by then. -/
inductive Move (n : Nat) where
  | connect (i : Fin n)
  | send (i : Fin n)
  | accept
  | recv (arrived : Nat)
  | read (i : Fin n) (arrived : Nat)
deriving DecidableEq, Repr

inductive Halt where
  | blocked
deriving DecidableEq, Repr

def Order.request (order : Order) : CStr := order.accountNumber ++ ',' :: order.change

/-- What `recv` leaves in a cleared buffer, as a string. -/
def received (stream : List Char) (arrived : Nat) : CStr := strcpy (fill cleared (stream.take arrived))

/-- The arguments of the server and its clients, and the balances that `malloc` happens to find. -/
structure Setup (α : Type u) (n : Nat) where
  format : Format α
  bankSize : Int
  threadNum : Int
  orders : Fin n → Order
  balance : Nat → α

section Steps

variable {α : Type u} [Add α] {n : Nat} (setup : Setup α n)

def Setup.opened : System α n where
  server := .ok { balance := setup.balance }

/-- The new balance is sent as a whole buffer. -/
def Setup.threadFunction (bank : Bank α) (accountNumber : Int) (change : α) :
    Except Fault (Bank α × List Char) :=
  if 0 ≤ accountNumber ∧ accountNumber < setup.bankSize then
    let index := accountNumber.toNat
    let balance := bank.balance index + change
    let buffer := setup.format.newBalance balance
    if buffer.length < 256 then
      .ok ({ bank with balance := Function.update bank.balance index balance }, fill cleared buffer)
    else .error .overflow
  else .error .outside

/-- `main` from `makeargv` on.  Where there is no thread left the client gets no answer. -/
def Setup.handle (bank : Bank α) (buffer : CStr) : Except Fault (Bank α × List Char) :=
  match makeargv buffer ',' with
  | [] => .error .nullPointer
  | accountNumber :: fields =>
      if bank.i < setup.threadNum then
        match fields with
        | [] => .error .nullPointer
        | change :: _ => do
            let (bank, answer) ←
              setup.threadFunction bank (atoi accountNumber) (setup.format.atof change)
            -- modulo 2, whatever the size of the pool
            .ok ({ bank with i := (bank.i + 1) % 2 }, answer)
      else .ok (bank, [])

def Setup.step (system : System α n) : Move n → Except Halt (Unit × System α n)
  | .connect i =>
      if system.client i = .start then
        .ok ((), { system with
          client := Function.update system.client i .connected
          queue := system.queue ++ [i] })
      else .error .blocked
  | .send i =>
      if system.client i = .connected then
        .ok ((), { system with
          client := Function.update system.client i .waiting
          toServer := Function.update system.toServer i (fill cleared (setup.orders i).request) })
      else .error .blocked
  | .accept =>
      match system.server, system.clientfd, system.queue with
      | .ok _, none, i :: queue => .ok ((), { system with queue, clientfd := some i })
      | _, _, _ => .error .blocked
  | .recv arrived =>
      match system.server, system.clientfd with
      | .ok bank, some i =>
          if 0 < arrived ∧ arrived ≤ min 256 (system.toServer i).length then
            match setup.handle bank (received (system.toServer i) arrived) with
            | .ok (bank, answer) => .ok ((), { system with
                toServer := Function.update system.toServer i ((system.toServer i).drop arrived)
                toClient := Function.update system.toClient i answer
                clientfd := none
                server := .ok bank })
            | .error fault => .ok ((), { system with server := .error fault })
          else .error .blocked
      | _, _ => .error .blocked
  | .read i arrived =>
      if system.client i = .waiting ∧ 0 < arrived ∧ arrived ≤ min 256 (system.toClient i).length then
        .ok ((), { system with
          client := Function.update system.client i (.printed (received (system.toClient i) arrived))
          toClient := Function.update system.toClient i ((system.toClient i).drop arrived) })
      else .error .blocked

/-- What one call does. -/
inductive Moved (system : System α n) : Move n → System α n → Prop
  | connect {i : Fin n} (away : system.client i = .start) :
      Moved system (.connect i) { system with
        client := Function.update system.client i .connected
        queue := system.queue ++ [i] }
  | send {i : Fin n} (connected : system.client i = .connected) :
      Moved system (.send i) { system with
        client := Function.update system.client i .waiting
        toServer := Function.update system.toServer i (fill cleared (setup.orders i).request) }
  | accept {i : Fin n} {queue : List (Fin n)} {bank : Bank α} (alive : system.server = .ok bank)
      (idle : system.clientfd = none) (queued : system.queue = i :: queue) :
      Moved system .accept { system with queue, clientfd := some i }
  | answer {i : Fin n} {arrived : Nat} {bank next : Bank α} {answer : List Char}
      (alive : system.server = .ok bank) (busy : system.clientfd = some i) (positive : 0 < arrived)
      (few : arrived ≤ min 256 (system.toServer i).length)
      (handled : setup.handle bank (received (system.toServer i) arrived) =
        .ok (next, answer)) :
      Moved system (.recv arrived) { system with
        toServer := Function.update system.toServer i ((system.toServer i).drop arrived)
        toClient := Function.update system.toClient i answer
        clientfd := none
        server := .ok next }
  | crash {i : Fin n} {arrived : Nat} {bank : Bank α} {fault : Fault}
      (alive : system.server = .ok bank) (busy : system.clientfd = some i) (positive : 0 < arrived)
      (few : arrived ≤ min 256 (system.toServer i).length)
      (failed : setup.handle bank (received (system.toServer i) arrived) =
        .error fault) :
      Moved system (.recv arrived) { system with server := .error fault }
  | read {i : Fin n} {arrived : Nat} (waiting : system.client i = .waiting) (positive : 0 < arrived)
      (few : arrived ≤ min 256 (system.toClient i).length) :
      Moved system (.read i arrived) { system with
        client := Function.update system.client i (.printed (received (system.toClient i) arrived))
        toClient := Function.update system.toClient i ((system.toClient i).drop arrived) }

theorem step_moved {setup : Setup α n} {system after : System α n} {move : Move n} {output : Unit}
    (done : setup.step system move = .ok (output, after)) : Moved setup system move after := by
  cases move with
  | connect i =>
      rw [Setup.step] at done
      split at done
      · cases done
        exact .connect ‹_›
      · cases done
  | send i =>
      rw [Setup.step] at done
      split at done
      · cases done
        exact .send ‹_›
      · cases done
  | accept =>
      rw [Setup.step] at done
      split at done
      · cases done
        exact .accept ‹_› ‹_› ‹_›
      · cases done
  | recv arrived =>
      rw [Setup.step] at done
      split at done
      · split at done
        · rename_i some_bytes
          split at done
          · cases done
            exact .answer ‹_› ‹_› some_bytes.1 some_bytes.2 ‹_›
          · cases done
            exact .crash ‹_› ‹_› some_bytes.1 some_bytes.2 ‹_›
        · cases done
      · cases done
  | read i arrived =>
      rw [Setup.step] at done
      split at done
      · rename_i ready
        cases done
        exact .read ready.1 ready.2.1 ready.2.2
      · cases done

theorem Moved.step {setup : Setup α n} {system after : System α n} {move : Move n}
    (moved : Moved setup system move after) : setup.step system move = .ok ((), after) := by
  cases moved with
  | connect away => rw [Setup.step, if_pos away]
  | send connected => rw [Setup.step, if_pos connected]
  | accept alive idle queued => simp only [Setup.step, alive, idle, queued]
  | answer alive busy positive few handled =>
      simp only [Setup.step, alive, busy, positive, few, handled, and_self, if_true]
  | crash alive busy positive few failed =>
      simp only [Setup.step, alive, busy, positive, few, failed, and_self, if_true]
  | read waiting positive few => rw [Setup.step, if_pos ⟨waiting, positive, few⟩]

end Steps

section Meaning

variable {α : Type u} [Add α] {n : Nat} (setup : Setup α n)

def Setup.account (i : Fin n) : Nat := (atoi (setup.orders i).accountNumber).toNat

/-- The balances after the change of one client. -/
def Setup.credit (balance : Nat → α) (i : Fin n) : Nat → α :=
  Function.update balance (setup.account i)
    (balance (setup.account i) + setup.format.atof (setup.orders i).change)

def Setup.credited (clients : List (Fin n)) : Nat → α := clients.foldl setup.credit setup.balance

/-- The clients that get an answer, of those handled: a pool of one serves only the first. -/
def Setup.answered (handled : List (Fin n)) : List (Fin n) :=
  if 2 ≤ setup.threadNum then handled else handled.take setup.threadNum.toNat

/-- A client is told the balance of its account right after its own change. -/
def Setup.Told (answered : List (Fin n)) (i : Fin n) (text : CStr) : Prop :=
  ∃ before after, answered = before ++ i :: after ∧
    text = setup.format.newBalance (setup.credited (before ++ [i]) (setup.account i))

/-- The server once it has handled some clients. -/
def Setup.bank (handled : List (Fin n)) : Bank α where
  balance := setup.credited (setup.answered handled)
  i := ((setup.answered handled).length : Int) % 2

structure Order.Proper (bankSize : Int) (order : Order) : Prop where
  text : NUL ∉ order.request
  short : order.request.length < 256
  account_field : ',' ∉ order.accountNumber ∧ order.accountNumber ≠ []
  change_field : ',' ∉ order.change ∧ order.change ≠ []
  inside : 0 ≤ atoi order.accountNumber ∧ atoi order.accountNumber < bankSize

/-- The requests are well formed, and every balance they can lead to fits the buffer as text. -/
structure Setup.Proper : Prop where
  orders : ∀ i, (setup.orders i).Proper setup.bankSize
  text : ∀ balance, NUL ∉ setup.format.newBalance balance
  fits : ∀ clients : List (Fin n), clients.Nodup → ∀ act,
    (setup.format.newBalance (setup.credited clients act)).length < 256

variable {setup} {i : Fin n} {order : Order} {text : CStr} {arrived : Nat}
  {handled answered clients : List (Fin n)}

theorem credited_concat :
    setup.credited (clients ++ [i]) = setup.credit (setup.credited clients) i := by
  rw [Setup.credited, List.foldl_concat, Setup.credited]

/-- The place in the pool follows from the number of answers. -/
theorem answered_concat (handled : List (Fin n)) (i : Fin n) :
    setup.answered (handled ++ [i]) =
      if (setup.bank handled).i < setup.threadNum then
        setup.answered handled ++ [i]
      else setup.answered handled := by
  by_cases wide : 2 ≤ setup.threadNum
  · simp only [Setup.answered, Setup.bank, if_pos wide]
    rw [if_pos (by omega)]
  · simp only [Setup.answered, Setup.bank, if_neg wide]
    rcases lt_or_ge 0 setup.threadNum with one | none
    · obtain single : setup.threadNum = 1 := by omega
      rw [single]
      cases handled with
      | nil => simp
      | cons first rest => simp
    · rw [Int.toNat_of_nonpos none]
      simp [none]

omit [Add α] in
theorem answered_front : setup.answered handled <+: handled := by
  rw [Setup.answered]
  split
  · exact List.prefix_rfl
  · exact List.take_prefix ..

theorem Setup.Told.mono {more : List (Fin n)} (told : setup.Told answered i text)
    (longer : answered <+: more) : setup.Told more i text := by
  obtain ⟨before, after, same, said⟩ := told
  obtain ⟨rest, rfl⟩ := longer
  exact ⟨before, after ++ rest, by rw [same, List.append_assoc, List.cons_append], said⟩

theorem Setup.Told.free (told : setup.Told answered i text) (proper : setup.Proper) :
    NUL ∉ text := by
  obtain ⟨_, _, _, rfl⟩ := told
  exact proper.text _

theorem Setup.Told.mem (told : setup.Told answered i text) : i ∈ answered := by
  obtain ⟨before, after, rfl, _⟩ := told
  exact List.mem_append_right _ List.mem_cons_self

theorem length_cleared : cleared.length = 256 := List.length_replicate

/-- A message that came whole. -/
theorem received_whole (free : NUL ∉ text) (whole : text.length ≤ arrived) :
    received (fill cleared text) arrived = text := by
  have padded : fill cleared text = text ++ List.replicate (256 - text.length) NUL := by
    rw [fill, cleared, List.drop_replicate]
  rw [received, padded, strcpy_fill free, List.take_of_length_le whole]

theorem strcpy_filled (free : NUL ∉ text) : strcpy (fill cleared text) = text := by
  rw [fill, cleared, List.drop_replicate, Transfer.strcpy_padded free]

theorem threadFunction_credit {bank : Bank α} (order : (setup.orders i).Proper setup.bankSize)
    (fits : (setup.format.newBalance (setup.credit bank.balance i (setup.account i))).length < 256) :
    setup.threadFunction bank (atoi (setup.orders i).accountNumber)
        (setup.format.atof (setup.orders i).change) =
      .ok ({ bank with balance := setup.credit bank.balance i },
        fill cleared (setup.format.newBalance (setup.credit bank.balance i (setup.account i)))) := by
  rw [Setup.credit, Function.update_self] at fits ⊢
  rw [Setup.threadFunction, if_pos order.inside]
  exact if_pos fits

/-- A request is answered where a thread is left, and taken without an answer otherwise. -/
theorem handle_next (proper : setup.Proper) (fresh : (handled ++ [i]).Nodup) :
    ∃ reply, setup.handle (setup.bank handled) (setup.orders i).request =
        .ok (setup.bank (handled ++ [i]), reply) ∧
      (reply = [] ∧ i ∉ setup.answered (handled ++ [i]) ∨
        ∃ text, reply = fill cleared text ∧ text.length < 256 ∧
          setup.Told (setup.answered (handled ++ [i])) i text) := by
  have order := proper.orders i
  have fields : makeargv (setup.orders i).request ',' =
      [(setup.orders i).accountNumber, (setup.orders i).change] := by
    rw [makeargv, Order.request, tokens_word_delim order.account_field.1 order.account_field.2,
      tokens_word order.change_field.1 order.change_field.2]
  have next : setup.answered (handled ++ [i]) = _ := answered_concat handled i
  by_cases room : (setup.bank handled).i < setup.threadNum
  · rw [if_pos room] at next
    have credited : setup.credited (setup.answered handled ++ [i]) =
        setup.credit (setup.bank handled).balance i := credited_concat
    have fits : (setup.format.newBalance (setup.credited (setup.answered handled ++ [i])
        (setup.account i))).length < 256 := by
      refine proper.fits _ ?_ _
      rw [← next]
      exact answered_front.sublist.nodup fresh
    refine ⟨_, ?_, .inr ⟨_, rfl, fits, setup.answered handled, [], next, rfl⟩⟩
    rw [credited] at fits ⊢
    simp only [Setup.handle, fields, room, if_true, threadFunction_credit order fits]
    have turn : ((setup.bank handled).i + 1) % 2 = (setup.bank (handled ++ [i])).i := by
      simp only [Setup.bank, next, List.length_append, List.length_singleton]
      omega
    have books : setup.credit (setup.bank handled).balance i =
        (setup.bank (handled ++ [i])).balance := by
      rw [← credited, ← next, Setup.bank]
    change Except.ok _ = _
    simp only [turn, books]
  · rw [if_neg room] at next
    refine ⟨[], ?_, .inl ⟨rfl, fun got => ?_⟩⟩
    · rw [Setup.handle, fields]
      simp only [room, if_false]
      rw [Setup.bank, Setup.bank, next]
    · rw [next] at got
      exact List.disjoint_of_nodup_append fresh (answered_front.subset got) (List.mem_singleton_self i)

end Meaning

/-- The client that comes with a call. -/
def Move.arrival {n : Nat} : Move n → Option (Fin n)
  | .connect i => some i
  | _ => none

section Runs

variable {α : Type u} [Add α] {n : Nat}

/-- The clients in the order in which they connected. -/
def arrivals (history : List (Event (System α n) (Move n) Unit)) : List (Fin n) :=
  history.filterMap fun event => event.input.arrival

omit [Add α] in
theorem arrivals_snoc (history : List (Event (System α n) (Move n) Unit))
    (event : Event (System α n) (Move n) Unit) :
    arrivals (history ++ [event]) = arrivals history ++ event.input.arrival.toList := by
  cases arrival : event.input.arrival with
  | none => simp [arrivals, arrival]
  | some i => simp [arrivals, arrival]

/-- The clients that connected and were not handled. -/
def System.waiting (system : System α n) : List (Fin n) := system.clientfd.toList ++ system.queue

/-- A message comes whole. -/
def Setup.Whole (setup : Setup α n) (system : System α n) : Move n → Prop
  | .recv arrived => ∀ i, system.clientfd = some i → (setup.orders i).request.length ≤ arrived
  | .read i arrived => (strcpy (system.toClient i)).length ≤ arrived
  | _ => True

instance (setup : Setup α n) (system : System α n) (move : Move n) :
    Decidable (setup.Whole system move) :=
  match move with
  | .recv arrived => inferInstanceAs (Decidable
      (∀ i, system.clientfd = some i → (setup.orders i).request.length ≤ arrived))
  | .read i arrived => inferInstanceAs (Decidable ((strcpy (system.toClient i)).length ≤ arrived))
  | .connect _ | .send _ | .accept => inferInstanceAs (Decidable True)

/-- Where a client is, with what was sent to the server and what was sent back. -/
inductive Stands (setup : Setup α n) (handled waiting : List (Fin n)) (i : Fin n) :
    Phase → List Char → List Char → Prop
  | away (unknown : i ∉ handled ++ waiting) : Stands setup handled waiting i .start [] []
  | connected (queued : i ∈ waiting) : Stands setup handled waiting i .connected [] []
  | asking (queued : i ∈ waiting) :
      Stands setup handled waiting i .waiting (fill cleared (setup.orders i).request) []
  | answered {unread : List Char} {text : CStr} (told : setup.Told (setup.answered handled) i text)
      (short : text.length < 256) :
      Stands setup handled waiting i .waiting unread (fill cleared text)
  | refused {unread : List Char} (known : i ∈ handled) (missed : i ∉ setup.answered handled) :
      Stands setup handled waiting i .waiting unread []
  | shown {unread rest : List Char} {text : CStr}
      (told : setup.Told (setup.answered handled) i text) :
      Stands setup handled waiting i (.printed text) unread rest

/-- The server has handled the first of the clients that came. -/
structure Keeps (setup : Setup α n) (arrived : List (Fin n)) (system : System α n)
    (handled : List (Fin n)) : Prop where
  order : arrived = handled ++ system.waiting
  once : arrived.Nodup
  server : system.server = .ok (setup.bank handled)
  stands : ∀ i, Stands setup handled system.waiting i (system.client i) (system.toServer i)
    (system.toClient i)

variable {setup : Setup α n} {system after : System α n} {move : Move n} {i j : Fin n}
  {arrived handled waiting : List (Fin n)} {phase : Phase} {toServer toClient : List Char}

theorem answered_grows (handled : List (Fin n)) (i : Fin n) :
    setup.answered handled <+: setup.answered (handled ++ [i]) := by
  rw [answered_concat]
  split
  · exact List.prefix_append ..
  · exact List.prefix_rfl

/-- The other clients stand where they were when one more connects. -/
theorem Stands.joined (stands : Stands setup handled waiting j phase toServer toClient)
    (other : j ≠ i) : Stands setup handled (waiting ++ [i]) j phase toServer toClient := by
  cases stands with
  | away unknown =>
      refine .away ?_
      simp only [List.mem_append, List.mem_singleton, not_or] at unknown ⊢
      exact ⟨unknown.1, unknown.2, other⟩
  | connected queued => exact .connected (List.mem_append_left _ queued)
  | asking queued => exact .asking (List.mem_append_left _ queued)
  | answered told short => exact .answered told short
  | refused known missed => exact .refused known missed
  | shown told => exact .shown told

/-- The other clients stand where they were when one is handled. -/
theorem Stands.passed (stands : Stands setup handled (i :: waiting) j phase toServer toClient)
    (other : j ≠ i) : Stands setup (handled ++ [i]) waiting j phase toServer toClient := by
  have grows : setup.answered handled <+: setup.answered (handled ++ [i]) := answered_grows handled i
  cases stands with
  | away unknown => exact .away (by simpa using unknown)
  | connected queued => exact .connected (List.mem_of_ne_of_mem other queued)
  | asking queued => exact .asking (List.mem_of_ne_of_mem other queued)
  | answered told short => exact .answered (told.mono grows) short
  | refused known missed =>
      refine .refused (List.mem_append_left _ known) ?_
      rw [answered_concat]
      split
      · simp [missed, other]
      · exact missed
  | shown told => exact .shown (told.mono grows)

/-- Once a client that waits to be handled has sent something, it was its request. -/
theorem Stands.asked (stands : Stands setup handled waiting i phase toServer toClient)
    (once : (handled ++ waiting).Nodup) (queued : i ∈ waiting) :
    (phase = .connected ∧ toServer = []) ∨
      (phase = .waiting ∧ toServer = fill cleared (setup.orders i).request) := by
  have unhandled : i ∉ handled := fun known => List.disjoint_of_nodup_append once known queued
  have unanswered : i ∉ setup.answered handled := fun got => unhandled (answered_front.subset got)
  cases stands with
  | away unknown => exact absurd (List.mem_append_right _ queued) unknown
  | connected => exact .inl ⟨rfl, rfl⟩
  | asking => exact .inr ⟨rfl, rfl⟩
  | answered told | shown told => exact absurd told.mem unanswered
  | refused known => exact absurd known unhandled

theorem Stands.of_start (stands : Stands setup handled waiting i .start toServer toClient) :
    i ∉ handled ++ waiting ∧ toServer = [] ∧ toClient = [] := by
  cases stands with
  | away unknown => exact ⟨unknown, rfl, rfl⟩

theorem Stands.of_connected (stands : Stands setup handled waiting i .connected toServer toClient) :
    i ∈ waiting ∧ toServer = [] ∧ toClient = [] := by
  cases stands with
  | connected queued => exact ⟨queued, rfl, rfl⟩

theorem Stands.of_reply (stands : Stands setup handled waiting i .waiting toServer toClient)
    (sent : 0 < toClient.length) :
    ∃ text, setup.Told (setup.answered handled) i text ∧ toClient = fill cleared text := by
  cases stands with
  | asking | refused => simp at sent
  | answered told short => exact ⟨_, told, rfl⟩

theorem Stands.of_printed {text : CStr}
    (stands : Stands setup handled waiting i (.printed text) toServer toClient) :
    setup.Told (setup.answered handled) i text := by
  cases stands with
  | shown told => exact told

theorem opened_keeps : Keeps setup [] setup.opened [] where
  order := rfl
  once := List.nodup_nil
  server := by simp [Setup.opened, Setup.bank, Setup.answered, Setup.credited]
  stands i := .away (by simp [System.waiting, Setup.opened])

theorem Keeps.fresh (keeps : Keeps setup arrived system handled) (busy : system.clientfd = some i) :
    (handled ++ [i]).Nodup := by
  have once := keeps.once
  rw [keeps.order, System.waiting, busy] at once
  exact once.sublist (by simp)

/-- The request at the server is the client's own. -/
theorem Keeps.request (keeps : Keeps setup arrived system handled)
    (busy : system.clientfd = some i) (sent : 0 < (system.toServer i).length) :
    system.waiting = i :: system.queue ∧ system.client i = .waiting ∧
      system.toServer i = fill cleared (setup.orders i).request := by
  have waiting : system.waiting = i :: system.queue := by rw [System.waiting, busy]; rfl
  have once : (handled ++ system.waiting).Nodup := keeps.order ▸ keeps.once
  have queued : i ∈ system.waiting := by simp [waiting]
  rcases (keeps.stands i).asked once queued with ⟨_, nothing⟩ | ⟨phase, request⟩
  · simp [nothing] at sent
  · exact ⟨waiting, phase, request⟩

/-- A request that came whole is handled as it was sent, without a fault. -/
theorem Keeps.taken {bytes : Nat} {bank : Bank α} (proper : setup.Proper)
    (keeps : Keeps setup arrived system handled) (alive : system.server = .ok bank)
    (busy : system.clientfd = some i) (positive : 0 < bytes)
    (few : bytes ≤ min 256 (system.toServer i).length)
    (whole : setup.Whole system (.recv bytes)) :
    ∃ reply, setup.handle bank (received (system.toServer i) bytes) =
        .ok (setup.bank (handled ++ [i]), reply) ∧
      ∀ unread, Stands setup (handled ++ [i]) system.queue i .waiting unread reply := by
  obtain ⟨_, _, request⟩ := keeps.request busy (by omega)
  have sent : received (system.toServer i) bytes = (setup.orders i).request := by
    rw [request, received_whole (proper.orders i).text (whole i busy)]
  obtain rfl : setup.bank handled = bank := by
    rw [keeps.server] at alive
    exact Except.ok.inj alive
  obtain ⟨reply, result, stood⟩ := handle_next proper (keeps.fresh busy)
  refine ⟨reply, sent ▸ result, fun unread => ?_⟩
  rcases stood with ⟨rfl, missed⟩ | ⟨text, rfl, short, told⟩
  · exact .refused (by simp) missed
  · exact .answered told short

theorem Keeps.step (proper : setup.Proper) (keeps : Keeps setup arrived system handled)
    (moved : Moved setup system move after) (whole : setup.Whole system move) :
    ∃ now, Keeps setup (arrived ++ move.arrival.toList) after now := by
  obtain ⟨order, once, server, stands⟩ := id keeps
  cases moved with
  | @connect i away =>
      obtain ⟨unknown, noRequest, noReply⟩ := (away ▸ stands i).of_start
      refine ⟨handled, ?_, ?_, server, fun j => ?_⟩
      · simp [order, System.waiting, Move.arrival]
      · rw [← order] at unknown
        exact List.nodup_append'.mpr ⟨once, by simp [Move.arrival], by simpa [Move.arrival]⟩
      · change Stands setup handled (system.clientfd.toList ++ (system.queue ++ [i])) j _ _ _
        rw [← List.append_assoc]
        by_cases same : j = i
        · subst same
          simp only [Function.update_self, noRequest, noReply]
          exact .connected (by simp)
        · simp only [Function.update_of_ne same]
          exact (stands j).joined same
  | @send i connected =>
      obtain ⟨queued, _, noReply⟩ := (connected ▸ stands i).of_connected
      refine ⟨handled, by simpa [Move.arrival, System.waiting] using order,
        by simpa [Move.arrival] using once, server, fun j => ?_⟩
      by_cases same : j = i
      · subst same
        simp only [Function.update_self, noReply]
        exact .asking queued
      · simp only [Function.update_of_ne same]
        exact stands j
  | @accept i queue bank alive idle queued =>
      have still : system.waiting = i :: queue := by simp [System.waiting, idle, queued]
      rw [still] at order stands
      exact ⟨handled, by simpa [Move.arrival, System.waiting] using order,
        by simpa [Move.arrival] using once, server, stands⟩
  | @answer i bytes bank next reply alive busy positive few done =>
      obtain ⟨waiting, phase, _⟩ := keeps.request busy (by omega)
      obtain ⟨answer, result, stood⟩ := keeps.taken proper alive busy positive few whole
      rw [result] at done
      cases done
      rw [waiting] at order stands
      refine ⟨handled ++ [i], by simpa [Move.arrival, System.waiting] using order,
        by simpa [Move.arrival] using once, rfl, fun j => ?_⟩
      by_cases same : j = i
      · subst same
        simp only [Function.update_self, phase]
        exact stood _
      · simp only [Function.update_of_ne same]
        exact (stands j).passed same
  | @crash i bytes bank fault alive busy positive few failed =>
      obtain ⟨answer, result, _⟩ := keeps.taken proper alive busy positive few whole
      rw [result] at failed
      cases failed
  | @read i bytes waits positive few =>
      obtain ⟨text, told, reply⟩ := (waits ▸ stands i).of_reply (by omega)
      refine ⟨handled, by simpa [Move.arrival, System.waiting] using order,
        by simpa [Move.arrival] using once, server, fun j => ?_⟩
      by_cases same : j = i
      · subst same
        have shown : received (system.toClient j) bytes = text := by
          have free : NUL ∉ text := told.free proper
          rw [Setup.Whole, reply, strcpy_filled free] at whole
          rw [reply, received_whole free whole]
        simp only [Function.update_self, shown]
        exact .shown told
      · simp only [Function.update_of_ne same]
        exact stands j

/-- The calls in which a client and its connection are still to come. -/
def Phase.left : Phase → Nat
  | .start => 5
  | .connected => 2
  | .waiting => 1
  | .printed _ => 0

/-- Calls to the end of all clients, and one of a server that fails. -/
def System.left (system : System α n) : Nat :=
  ∑ i, (system.client i).left + 2 * system.queue.length + system.clientfd.toList.length +
    match system.server with
    | .ok _ => 1
    | .error _ => 0

theorem sum_left (client : Fin n → Phase) (i : Fin n) (phase : Phase) :
    ∑ j, (Function.update client i phase j).left + (client i).left =
      ∑ j, (client j).left + phase.left := by
  have others : ∀ j ∈ Finset.univ.erase i, (Function.update client i phase j).left =
      (client j).left := fun j member => by rw [Function.update_of_ne (Finset.ne_of_mem_erase member)]
  rw [← Finset.add_sum_erase _ _ (Finset.mem_univ i), Finset.sum_congr rfl others,
    ← Finset.add_sum_erase _ (fun j => (client j).left) (Finset.mem_univ i), Function.update_self]
  omega

theorem Moved.falls (moved : Moved setup system move after) : after.left < system.left := by
  cases moved with
  | @connect i away =>
      have moved := sum_left system.client i .connected
      rw [away] at moved
      simp only [System.left, List.length_append, List.length_singleton, Phase.left] at moved ⊢
      omega
  | @send i connected =>
      have moved := sum_left system.client i .waiting
      rw [connected] at moved
      simp only [System.left, Phase.left] at moved ⊢
      omega
  | accept alive idle queued =>
      simp only [System.left, idle, queued, Option.toList_none, Option.toList_some,
        List.length_nil, List.length_cons]
      omega
  | answer alive busy => simp [System.left, alive, busy]
  | crash alive busy => simp [System.left, alive, busy]
  | @read i bytes waits =>
      have moved := sum_left system.client i (.printed (received (system.toClient i) bytes))
      rw [waits] at moved
      simp only [System.left, Phase.left] at moved ⊢
      omega

omit [Add α] in
theorem left_opened : (setup.opened).left = 5 * n + 1 := by
  simp [System.left, Setup.opened, Phase.left, mul_comm]

theorem Stands.settled (stands : Stands setup handled [] i phase toServer toClient)
    (came : phase ≠ .start) (asked : phase ≠ .connected) (read : phase = .waiting → toClient = []) :
    i ∈ handled ∧ ((∃ text, phase = .printed text) ↔ i ∈ setup.answered handled) := by
  cases stands with
  | away => exact absurd rfl came
  | connected => exact absurd rfl asked
  | asking queued => exact absurd queued List.not_mem_nil
  | answered told short =>
      have nothing := congrArg List.length (read rfl)
      rw [length_fill, length_cleared, List.length_nil] at nothing
      omega
  | refused known missed => exact ⟨known, by simp [missed]⟩
  | shown told => exact ⟨answered_front.subset told.mem, by simp [told.mem]⟩

/-- Where no call can return, all clients are handled, and an answer that was sent is printed. -/
theorem Keeps.stuck (keeps : Keeps setup arrived system handled)
    (stuck : ∀ move result, setup.step system move ≠ .ok result) (i : Fin n) :
    i ∈ handled ∧ ((∃ text, system.client i = .printed text) ↔ i ∈ setup.answered handled) := by
  have still : ∀ move after, ¬ Moved setup system move after :=
    fun move after moved => stuck move _ moved.step
  have came : ∀ j, system.client j ≠ .start := fun j away => still _ _ (.connect away)
  have asked : ∀ j, system.client j ≠ .connected := fun j connected => still _ _ (.send connected)
  have idle : system.clientfd = none := by
    by_contra busy
    obtain ⟨j, busy⟩ := Option.ne_none_iff_exists'.mp busy
    have queued : j ∈ system.waiting := by simp [System.waiting, busy]
    have once : (handled ++ system.waiting).Nodup := keeps.order ▸ keeps.once
    have request : system.toServer j = fill cleared (setup.orders j).request := by
      rcases (keeps.stands j).asked once queued with ⟨connected, _⟩ | ⟨_, request⟩
      · exact absurd connected (asked j)
      · exact request
    have few : 256 ≤ min 256 (system.toServer j).length := by
      rw [request, length_fill, length_cleared]
      omega
    cases result : setup.handle (setup.bank handled) (received (system.toServer j) 256) with
    | ok outcome => exact still _ _ (.answer keeps.server busy (by omega) few result)
    | error fault => exact still _ _ (.crash keeps.server busy (by omega) few result)
  have empty : system.queue = [] := by
    cases queued : system.queue with
    | nil => rfl
    | cons j rest => exact absurd (.accept keeps.server idle queued) (still _ _)
  have stands := keeps.stands i
  rw [System.waiting, idle, empty] at stands
  refine stands.settled (came i) (asked i) fun waits => ?_
  by_contra unread
  have some_bytes := List.length_pos_of_ne_nil unread
  exact still _ _ (.read waits Nat.one_pos (by omega))

/-- Clients that are sent whole messages are answered in the order in which they connect, each
with the balance right after its own change; a pool of one thread answers only the first. -/
theorem bank_served (proper : setup.Proper)
    {history : List (Event (System α n) (Move n) Unit)} {final : System α n}
    (run : Run setup.step setup.opened history final)
    (whole : Along (fun _ system move => setup.Whole system move) history) :
    history.length ≤ 5 * n ∧ ∃ handled, handled <+: arrivals history ∧
      (arrivals history).Nodup ∧
      final.server = .ok (setup.bank handled) ∧
      (∀ i text, final.client i = .printed text → setup.Told (setup.answered handled) i text) ∧
      ((∀ move result, setup.step final move ≠ .ok result) → ∀ i, i ∈ handled ∧
        ((∃ text, final.client i = .printed text) ↔ i ∈ setup.answered handled)) := by
  have kept : ∃ handled, Keeps setup (arrivals history) final handled := by
    refine run.invariant (fun past system => ∃ handled, Keeps setup (arrivals past) system handled)
      ⟨[], opened_keeps⟩ ?_ whole
    rintro past system move output after _ ⟨handled, keeps⟩ whole done
    obtain ⟨now, next⟩ := keeps.step proper (step_moved done) whole
    rw [arrivals_snoc]
    exact ⟨now, next⟩
  obtain ⟨handled, keeps⟩ := kept
  have used := run.length_le System.left fun done => (step_moved done).falls
  have alive : 1 ≤ final.left := by
    simp [System.left, keeps.server]
  rw [left_opened] at used
  refine ⟨by omega, handled, ⟨final.waiting, keeps.order.symm⟩, keeps.once, keeps.server, ?_,
    keeps.stuck⟩
  intro i text printed
  exact (printed ▸ keeps.stands i).of_printed

/-- Whole amounts, which `%f` prints with six zeros. -/
def wholeAmounts : Format Nat where
  atof text := (atoi text).toNat
  newBalance balance := "New Balance=".toList ++ decimal balance ++ ".000000\n".toList

/-- Two payments into one account, at a server with one thread. -/
def twoPayments : Setup Nat 2 where
  format := wholeAmounts
  bankSize := 2
  threadNum := 1
  orders := ![⟨['1'], ['5']⟩, ⟨['1'], ['7']⟩]
  balance _ := 0

theorem twoPayments_credited (clients : List (Fin 2)) (act : Nat) :
    twoPayments.credited clients act ≤ 7 * clients.length := by
  induction clients using List.reverseRecOn generalizing act with
  | nil => exact Nat.zero_le _
  | append_singleton clients i ih =>
      have amount : ∀ i, twoPayments.format.atof (twoPayments.orders i).change ≤ 7 := by decide
      have less := amount i
      rw [credited_concat, Setup.credit, List.length_append, List.length_singleton]
      by_cases same : act = twoPayments.account i
      · have own := ih (twoPayments.account i)
        rw [same, Function.update_self]
        omega
      · have own := ih act
        rw [Function.update_of_ne same]
        omega

theorem twoPayments_proper : twoPayments.Proper where
  orders := Fin.forall_fin_two.mpr
    ⟨⟨by decide, by decide, by decide, by decide, by decide⟩,
      ⟨by decide, by decide, by decide, by decide, by decide⟩⟩
  text balance := by
    have free : NUL ∉ decimal balance := fun held => mem_decimal_ne held (by decide) (by decide) rfl
    simp only [twoPayments, wholeAmounts, List.mem_append, not_or]
    exact ⟨⟨by decide, free⟩, by decide⟩
  fits clients once act := by
    have few : clients.length ≤ 2 := once.length_le_card
    have small := twoPayments_credited clients act
    have fits : ∀ balance < 15, (twoPayments.format.newBalance balance).length < 256 := by decide
    exact fits _ (by omega)

set_option maxRecDepth 4000 in
theorem bank_served_sample : ∃ history, ∃ final : System Nat 2, ∃ handled,
    Run twoPayments.step twoPayments.opened history final ∧ handled <+: [1, 0] ∧
      final.server = .ok (twoPayments.bank handled) ∧
      twoPayments.Told (twoPayments.answered handled) 1 "New Balance=7.000000\n".toList := by
  have whole : ∃ history final, Run twoPayments.step twoPayments.opened history final ∧
      arrivals history = [1, 0] ∧ final.client 1 = .printed "New Balance=7.000000\n".toList ∧
      Along (fun _ system move => twoPayments.Whole system move) history :=
    ⟨_, _, .of_execute [.connect 1, .connect 0, .send 1, .accept, .recv 256, .send 0, .accept,
      .recv 256, .read 1 256] rfl, rfl, rfl, Run.along_of_forall (by decide)⟩
  obtain ⟨history, final, run, came, printed, whole⟩ := whole
  obtain ⟨_, handled, first, _, server, told, _⟩ := bank_served twoPayments_proper run whole
  exact ⟨history, final, handled, run, came ▸ first, server, told 1 _ printed⟩

end Runs

end VoteCounting.Recitations.BankServer
