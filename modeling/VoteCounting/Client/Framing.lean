import VoteCounting.Server.Dispatch

namespace VoteCounting.Client

open CString Server

/-- The loop of `write_all` from the memory `str` points to.  `accepts` are the bytes each
`write` takes of the `len + 1` it is offered; there is no result where `write` cannot take so many. -/
def writeAll (str : List Char) (len : Int) : List Nat → Option (List Char)
  | [] => if 0 < len then none else some []
  | ret :: accepts =>
      if 0 < len ∧ 1 ≤ ret ∧ (ret : Int) ≤ len + 1 then
        (writeAll (str.drop ret) (len - ret) accepts).map (str.take ret ++ ·)
      else none

/-- Requests sent one after another, each with the bytes its writes take. -/
def writeRequests : List (CStr × List Nat) → Option (List Char)
  | [] => some []
  | (req, accepts) :: rest =>
      (writeAll (req ++ [NUL]) req.length accepts).bind fun first =>
        (writeRequests rest).map (first ++ ·)

section Writing

variable {text : CStr} {accepts : List Nat} {sent : List Char}

theorem writeAll_done {str : List Char} {len : Int} (done : len ≤ 0)
    (written : writeAll str len accepts = some sent) : accepts = [] ∧ sent = [] := by
  cases accepts with
  | nil =>
      rw [writeAll, if_neg (by omega)] at written
      exact ⟨rfl, (Option.some.inj written).symm⟩
  | cons ret rest =>
      rw [writeAll, if_neg (by omega)] at written
      cases written

/-- The terminator is sent with the last bytes of a request or not at all. -/
theorem writeAll_sent (written : writeAll (text ++ [NUL]) text.length accepts = some sent) :
    (accepts.sum = text.length ∧ sent = text) ∨
      (accepts.sum = text.length + 1 ∧ sent = text ++ [NUL]) := by
  induction accepts generalizing text sent with
  | nil =>
      rw [writeAll] at written
      split at written
      · cases written
      · have empty : text = [] := List.eq_nil_of_length_eq_zero (by omega)
        subst empty
        exact .inl ⟨rfl, (Option.some.inj written).symm⟩
  | cons ret rest ih =>
      rw [writeAll] at written
      split at written
      · rename_i taken
        obtain ⟨later, remaining, rfl⟩ := Option.map_eq_some_iff.mp written
        by_cases inside : ret ≤ text.length
        · have dropped : (text ++ [NUL]).drop ret = text.drop ret ++ [NUL] := by
            rw [List.drop_append_of_le_length inside]
          have length : (text.length : Int) - ret = (text.drop ret).length := by
            rw [List.length_drop]
            omega
          rw [dropped, length] at remaining
          rw [List.take_append_of_le_length inside, List.sum_cons]
          have counted := List.length_drop (i := ret) (l := text)
          rcases ih remaining with ⟨sum, same⟩ | ⟨sum, same⟩
          · exact .inl ⟨by omega, by rw [same, List.take_append_drop]⟩
          · refine .inr ⟨by omega, ?_⟩
            rw [same, ← List.append_assoc, List.take_append_drop]
        · obtain ⟨none, nothing⟩ := writeAll_done (by omega) remaining
          have whole : (text ++ [NUL]).take ret = text ++ [NUL] :=
            List.take_of_length_le (by simp; omega)
          refine .inr ⟨?_, by rw [whole, nothing, List.append_nil]⟩
          rw [none, List.sum_cons, List.sum_nil]
          omega
      · cases written

end Writing

section Reading

variable {σ : Type} {dispatch : σ → CStr → Except Fault σ} {server : σ} {buffer text : CStr}

theorem runThread_text (free : NUL ∉ text) (rest : List Char) :
    runThread dispatch (text ++ rest) ⟨buffer, server⟩ =
      runThread dispatch rest ⟨buffer ++ text, server⟩ := by
  induction text generalizing buffer with
  | nil => simp
  | cons byte later ih =>
      have different : byte ≠ NUL := fun same => free (by simp [same])
      rw [List.cons_append, runThread, if_neg different]
      refine (ih fun member => free (List.mem_cons_of_mem _ member)).trans ?_
      simp

theorem runThread_nul (rest : List Char) :
    runThread dispatch (NUL :: rest) ⟨buffer, server⟩ =
      (dispatch server buffer).bind fun server => runThread dispatch rest ⟨[], server⟩ := by
  rw [runThread, if_pos rfl]
  rfl

/-- What arrives of requests with and without their terminator: the strings dispatched and
what is left in the buffer. -/
def arrived : CStr → List (CStr × Bool) → List CStr × CStr
  | buffer, [] => ([], buffer)
  | buffer, (text, true) :: rest =>
      let later := arrived [] rest
      ((buffer ++ text) :: later.1, later.2)
  | buffer, (text, false) :: rest => arrived (buffer ++ text) rest

def bytesOf (pieces : List (CStr × Bool)) : List Char :=
  pieces.flatMap fun piece => if piece.2 then piece.1 ++ [NUL] else piece.1

variable {pieces : List (CStr × Bool)}

theorem runThread_arrived (free : ∀ piece ∈ pieces, NUL ∉ piece.1) :
    runThread dispatch (bytesOf pieces) ⟨buffer, server⟩ =
      ((arrived buffer pieces).1.foldlM dispatch server).map (⟨(arrived buffer pieces).2, ·⟩) := by
  induction pieces generalizing buffer server with
  | nil => rfl
  | cons piece rest ih =>
      obtain ⟨text, terminated⟩ := piece
      have textFree : NUL ∉ text := free _ List.mem_cons_self
      have restFree : ∀ piece ∈ rest, NUL ∉ piece.1 := fun piece member =>
        free piece (List.mem_cons_of_mem _ member)
      cases terminated with
      | false =>
          rw [bytesOf, List.flatMap_cons, ← bytesOf]
          exact (runThread_text textFree _).trans (ih restFree)
      | true =>
          rw [bytesOf, List.flatMap_cons, ← bytesOf, if_pos rfl, List.append_assoc,
            runThread_text textFree, List.singleton_append, runThread_nul]
          rw [arrived, List.foldlM_cons]
          cases dispatch server (buffer ++ text) with
          | error fault => rfl
          | ok after => exact ih restFree

theorem arrived_terminated (strs : List CStr) : arrived [] (strs.map (·, true)) = (strs, []) := by
  induction strs with
  | nil => rfl
  | cons str rest ih => rw [List.map_cons, arrived, ih, List.nil_append]

theorem arrived_length (buffer : CStr) (pieces : List (CStr × Bool)) :
    (arrived buffer pieces).1.length = pieces.countP (·.2) := by
  induction pieces generalizing buffer with
  | nil => rfl
  | cons piece rest ih =>
      obtain ⟨text, terminated⟩ := piece
      cases terminated with
      | false => rw [arrived, ih, List.countP_cons_of_neg (by simp)]
      | true => rw [arrived, List.length_cons, ih, List.countP_cons_of_pos rfl]

end Reading

/-- The thread hands these strings to `dispatchCode`, one by one, and no others, whatever
`dispatchCode` does. -/
def Dispatches (bytes : List Char) (strs : List CStr) : Prop :=
  ∀ (σ : Type) (dispatch : σ → CStr → Except Fault σ) (server : σ),
    runThread dispatch bytes ⟨[], server⟩ = (strs.foldlM dispatch server).map (⟨[], ·⟩)

section Framing

variable {sends : List (CStr × List Nat)} {sent : List Char}

def pieceOf (send : CStr × List Nat) : CStr × Bool := (send.1, send.2.sum ≠ send.1.length)

theorem writeRequests_sent (written : writeRequests sends = some sent) :
    sent = bytesOf (sends.map pieceOf) := by
  induction sends generalizing sent with
  | nil =>
      cases written
      rfl
  | cons send rest ih =>
      obtain ⟨req, accepts⟩ := send
      obtain ⟨first, wrote, remaining⟩ := Option.bind_eq_some_iff.mp written
      obtain ⟨others, wroteOthers, rfl⟩ := Option.map_eq_some_iff.mp remaining
      rw [ih wroteOthers, List.map_cons, bytesOf, bytesOf, List.flatMap_cons]
      rcases writeAll_sent wrote with ⟨sum, rfl⟩ | ⟨sum, rfl⟩
      · simp [pieceOf, sum]
      · simp [pieceOf, sum]

theorem foldlM_log (strs log : List CStr) :
    strs.foldlM (fun log str => (.ok (log ++ [str]) : Except Fault (List CStr))) log =
      .ok (log ++ strs) := by
  induction strs generalizing log with
  | nil => simp [pure, Except.pure]
  | cons str rest ih =>
      rw [List.foldlM_cons]
      apply (ih (log ++ [str])).trans
      simp

/-- The server dispatches what the client sent exactly where no write stopped right before a
terminator. -/
theorem runThread_dispatches_iff (proper : ∀ send ∈ sends, send.1 ≠ [] ∧ NUL ∉ send.1)
    (written : writeRequests sends = some sent) :
    Dispatches sent (sends.map Prod.fst) ↔ ∀ send ∈ sends, send.2.sum ≠ send.1.length := by
  have free : ∀ piece ∈ sends.map pieceOf, NUL ∉ piece.1 := by
    intro piece member
    obtain ⟨send, held, rfl⟩ := List.mem_map.mp member
    exact (proper send held).2
  rw [writeRequests_sent written]
  constructor
  · intro dispatches send held
    have logged := dispatches (List CStr) (fun log str => .ok (log ++ [str])) []
    rw [runThread_arrived free, foldlM_log, foldlM_log] at logged
    obtain ⟨_, strs⟩ : (arrived [] (sends.map pieceOf)).2 = [] ∧
        (arrived [] (sends.map pieceOf)).1 = sends.map Prod.fst := by
      simpa [Except.map] using logged
    have count : (sends.map pieceOf).countP (·.2) = (sends.map pieceOf).length := by
      rw [← arrived_length [], strs, List.length_map, List.length_map]
    have terminated := List.countP_eq_length.mp count (pieceOf send) (List.mem_map_of_mem held)
    simpa [pieceOf] using terminated
  · intro whole σ dispatch server
    have pieces : sends.map pieceOf = (sends.map Prod.fst).map (·, true) := by
      rw [List.map_map]
      apply List.map_congr_left
      intro send held
      simp [pieceOf, whole send held]
    rw [runThread_arrived free, pieces, arrived_terminated]

theorem runThread_dispatches_sample :
    Dispatches ("OP;R".toList ++ [NUL] ++ "CV;R".toList ++ [NUL]) ["OP;R".toList, "CV;R".toList] ↔
      ∀ send ∈ [("OP;R".toList, [5]), ("CV;R".toList, [1, 2, 2])], send.2.sum ≠ send.1.length := by
  have written : writeRequests [("OP;R".toList, [5]), ("CV;R".toList, [1, 2, 2])] =
      some ("OP;R".toList ++ [NUL] ++ "CV;R".toList ++ [NUL]) := by decide
  exact runThread_dispatches_iff (by decide) written

/-- A write takes all bytes but the terminator, and two requests become one. -/
theorem runThread_merges_requests : ∃ (sends : List (CStr × List Nat)) (sent : List Char),
    (∀ send ∈ sends, send.1 ≠ [] ∧ NUL ∉ send.1) ∧ writeRequests sends = some sent ∧
    ¬ Dispatches sent (sends.map Prod.fst) := by
  refine ⟨[("OP;R".toList, [4]), ("CV;R".toList, [5])], "OP;RCV;R".toList ++ [NUL],
    by decide, by decide, fun dispatches => ?_⟩
  have logged := dispatches (List CStr) (fun log str => .ok (log ++ [str])) []
  exact absurd logged (by decide)

end Framing

end VoteCounting.Client
