import VoteCounting.Client.Requests
import VoteCounting.Data.Run

namespace VoteCounting.Client

open Counters CString

/-- A slot that was never written reads as zero. -/
def unused : Slot := ⟨[], 0⟩

/-- The name of a slot without votes is never read. -/
def SameSlot (left right : Slot) : Prop :=
  left.count = right.count ∧ (left.count ≠ 0 → left.name = right.name)

/-- The tallies cannot be told apart in their first slots. -/
def AgreeOn : Nat → List Slot → List Slot → Prop
  | 0, _, _ => True
  | n + 1, left, right => SameSlot (left.headD unused) (right.headD unused) ∧
      AgreeOn n left.tail right.tail

section Slots

variable {n : Nat} {left right tally : List Slot} {name : CStr} {text : List Char}

theorem placeVote_eq (tally : List Slot) : placeVote name tally =
    if (tally.headD unused).count = 0 then ⟨name, 1⟩ :: tally.tail
    else if (tally.headD unused).name = name then
      { tally.headD unused with count := toInt ((tally.headD unused).count + 1) } :: tally.tail
    else tally.headD unused :: placeVote name tally.tail := by
  cases tally <;> rfl

theorem SameSlot.eq {left right : Slot} (same : SameSlot left right) (used : left.count ≠ 0) :
    left = right := by
  obtain ⟨name, count⟩ := left
  obtain ⟨otherName, otherCount⟩ := right
  obtain ⟨counts, names⟩ := same
  obtain rfl : count = otherCount := counts
  obtain rfl : name = otherName := names used
  rfl

/-- A vote goes to the same one of the first slots, or behind them. -/
theorem AgreeOn.placeVote (agree : AgreeOn n left right) :
    AgreeOn n (placeVote name left) (placeVote name right) := by
  induction n generalizing left right with
  | zero => trivial
  | succ n ih =>
      obtain ⟨heads, tails⟩ := agree
      rw [placeVote_eq left, placeVote_eq right]
      by_cases empty : (left.headD unused).count = 0
      · rw [if_pos empty, if_pos (heads.1 ▸ empty)]
        exact ⟨⟨rfl, fun _ => rfl⟩, tails⟩
      · rw [← heads.eq empty, if_neg empty, if_neg empty]
        split
        · exact ⟨⟨rfl, fun _ => rfl⟩, tails⟩
        · exact ⟨⟨rfl, fun _ => rfl⟩, ih tails⟩

theorem AgreeOn.leafcounter (agree : AgreeOn n left right) :
    AgreeOn n (leafcounter left text) (leafcounter right text) := by
  rw [Client.leafcounter, Client.leafcounter]
  generalize getlines text = lines
  induction lines generalizing left right with
  | nil => exact agree
  | cons line rest ih => exact ih agree.placeVote

/-- Tallies that agree where one ends list the same votes. -/
theorem AgreeOn.live_eq (agree : AgreeOn n left right) (short : (live left).length < n) :
    live left = live right := by
  induction n generalizing left right with
  | zero => exact absurd short (Nat.not_lt_zero _)
  | succ n ih =>
      obtain ⟨heads, tails⟩ := agree
      have live_eq : ∀ tally : List Slot, live tally =
          if (tally.headD unused).count = 0 then [] else tally.headD unused :: live tally.tail := by
        intro tally
        cases tally with
        | nil => rfl
        | cons slot rest => by_cases empty : slot.count = 0 <;> simp [live, empty]
      rw [live_eq left] at short ⊢
      rw [live_eq right]
      by_cases empty : (left.headD unused).count = 0
      · rw [if_pos empty, if_pos (heads.1 ▸ empty)]
      · rw [if_neg empty] at short ⊢
        rw [← heads.eq empty, if_neg empty, ih tails (by simpa using short)]

theorem agreeOn_cleared (cleared : ∀ i < n, (tally.getD i unused).count = 0) : AgreeOn n tally [] := by
  induction n generalizing tally with
  | zero => trivial
  | succ n ih =>
      have first := cleared 0 (Nat.succ_pos n)
      have head : tally.headD unused = tally.getD 0 unused := by cases tally <;> rfl
      refine ⟨⟨by rw [head, first]; rfl, fun used => absurd (head ▸ first) used⟩, ih fun i inside => ?_⟩
      have later := cleared (i + 1) (Nat.succ_lt_succ inside)
      cases tally with
      | nil => exact later
      | cons slot rest => exact later

/-- The two `memset` calls empty the first slots, whatever was counted. -/
theorem agreeOn_clear : AgreeOn 1024 (clear tally) [] := by
  refine agreeOn_cleared fun i inside => ?_
  rw [List.getD_eq_getElem?_getD, clear, List.getElem?_mapIdx]
  cases tally[i]? with
  | none => rfl
  | some slot => simp [inside]

end Slots

/-- A request with votes up to the blanks that fill it. -/
def voteBody (code : CStr) (votes : List Slot) : CStr :=
  (code ++ votes.flatMap voteText).dropLast ++ "      ".toList

def Carries (message code : CStr) (votes : List Slot) : Prop :=
  ∃ maxData, message = capReq maxData (voteBody code votes)

/-- The command line of `Add_Votes` or `Remove_Votes`. -/
def VoteCommand (str : CStr) : Prop :=
  ∃ word, (makeargv str ' ').head? = some word ∧
    (trimwhitespaceBuffer word = "Add_Votes".toList ∨ trimwhitespaceBuffer word = "Remove_Votes".toList)

section Requests

variable {files : CStr → Option (List Char)} {state after : State} {str code message : CStr}
  {output : Option CStr} {votes : List Slot}

theorem carries_printFile : Carries (printFileIntoData state code).1 code (live state.tally) :=
  ⟨max state.maxData (voteBody code (live state.tally)).length, rfl⟩

theorem length_voteText (slot : Slot) : 3 ≤ (voteText slot).length := by
  have digits := List.length_pos_of_ne_nil (decimal_ne_nil slot.count)
  simp only [voteText, List.length_append, List.length_cons, List.length_nil]
  omega

theorem length_voteBody : 3 * votes.length ≤ (voteBody code votes).length := by
  have each : 3 * votes.length ≤ (votes.flatMap voteText).length := by
    induction votes with
    | nil => simp
    | cons slot rest ih =>
        have first := length_voteText slot
        simp only [List.flatMap_cons, List.length_append, List.length_cons]
        omega
  have blanks : "      ".toList.length = 6 := rfl
  simp only [voteBody, List.length_append, List.length_dropLast, blanks]
  omega

/-- The blanks at the end are at least as many as the bytes before them. -/
theorem short_of_fits (fits : (printFileIntoData state code).1.length < 4096) :
    (live state.tally).length < 1024 := by
  have body : 3 * (live state.tally).length ≤ (voteBody code (live state.tally)).length :=
    length_voteBody
  have whole : (printFileIntoData state code).1 =
      capReq (max state.maxData (voteBody code (live state.tally)).length)
        (voteBody code (live state.tally)) := rfl
  rw [whole, capReq, List.length_append, List.length_replicate] at fits
  omega

/-- What is counted depends on the vote file and the tally only. -/
theorem voteRequest_cases {code name file : CStr} {sent : CStr × State}
    (requested : voteRequest files state code name file = some sent) :
    ∃ code' text, ∀ other : State, voteRequest files other code name file =
      some (printFileIntoData { other with tally := leafcounter other.tally text } code') := by
  obtain ⟨text, opened, _⟩ := Option.bind_eq_some_iff.mp requested
  refine ⟨code ++ stringPad (trimwhitespaceBuffer name) ++ [';'], text, fun other => ?_⟩
  rw [voteRequest, opened]
  rfl

theorem dispatchLine_votes (command : VoteCommand str)
    (done : dispatchLine files state str = some (output, after)) :
    ∃ code text, ∀ other : State, dispatchLine files other str =
      (some (printFileIntoData { other with tally := leafcounter other.tally text } code)).map
        fun sent => (some sent.1, sent.2) := by
  obtain ⟨word, first, adds | removes⟩ := command
  · have line : ∀ other, dispatchLine files other str =
        (addVotes files other ((makeargv str ' ').getD 1 []) ((makeargv str ' ').getD 2 [])).map
          fun sent => (some sent.1, sent.2) := fun other => by simp [dispatchLine, first, adds]
    rw [line] at done
    obtain ⟨sent, requested, _⟩ := Option.map_eq_some_iff.mp done
    obtain ⟨code, text, each⟩ := voteRequest_cases requested
    exact ⟨code, text, fun other => by rw [line, addVotes, each]⟩
  · have line : ∀ other, dispatchLine files other str =
        (removeVotes files other ((makeargv str ' ').getD 1 []) ((makeargv str ' ').getD 2 [])).map
          fun sent => (some sent.1, sent.2) := fun other => by simp [dispatchLine, first, removes]
    rw [line] at done
    obtain ⟨sent, requested, _⟩ := Option.map_eq_some_iff.mp done
    obtain ⟨code, text, each⟩ := voteRequest_cases requested
    exact ⟨code, text, fun other => by rw [line, removeVotes, each]⟩

theorem dispatchLine_other (command : ¬ VoteCommand str)
    (done : dispatchLine files state str = some (output, after)) : after = state := by
  cases first : (makeargv str ' ').head? with
  | none => simp [dispatchLine, first] at done
  | some word =>
      have adds : trimwhitespaceBuffer word ≠ "Add_Votes".toList :=
        fun same => command ⟨word, first, .inl same⟩
      have removes : trimwhitespaceBuffer word ≠ "Remove_Votes".toList := fun same =>
        command ⟨word, first, .inr same⟩
      simp only [dispatchLine, first, if_neg adds, if_neg removes] at done
      split_ifs at done <;> cases done <;> rfl

end Requests

/-- One command line, with the files as they are at that time. -/
def handleLine (state : State) (command : (CStr → Option (List Char)) × CStr) :
    Except Unit (Option CStr × State) :=
  match dispatchLine command.1 state command.2 with
  | none => .error ()
  | some result => .ok result

section Lines

variable {state after : State} {command : (CStr → Option (List Char)) × CStr} {output : Option CStr}
  {message : CStr}

theorem handleLine_ok : handleLine state command = .ok (output, after) ↔
    dispatchLine command.1 state command.2 = some (output, after) := by
  rw [handleLine]
  split
  · rename_i stopped
    simp [stopped]
  · rename_i result dispatched
    simp [dispatched]

/-- The first 1024 slots are unused between two commands. -/
theorem agreeOn_step (agree : AgreeOn 1024 state.tally [])
    (handled : handleLine state command = .ok (output, after)) : AgreeOn 1024 after.tally [] := by
  have dispatched := handleLine_ok.mp handled
  by_cases votes : VoteCommand command.2
  · obtain ⟨code, text, each⟩ := dispatchLine_votes votes dispatched
    rw [each state, Option.map_some, Option.some.injEq, Prod.mk.injEq] at dispatched
    rw [← dispatched.2]
    exact agreeOn_clear
  · rw [dispatchLine_other votes dispatched]
    exact agree

theorem carries_same (agree : AgreeOn 1024 state.tally []) (votes : VoteCommand command.2)
    (handled : handleLine state command = .ok (some message, after)) (fits : message.length < 4096) :
    ∃ code list first last, Carries message code list ∧
      handleLine {} command = .ok (some first, last) ∧ Carries first code list := by
  have dispatched := handleLine_ok.mp handled
  obtain ⟨code, text, each⟩ := dispatchLine_votes votes dispatched
  rw [each state, Option.map_some, Option.some.injEq, Prod.mk.injEq, Option.some.injEq] at dispatched
  obtain ⟨rfl, rfl⟩ := dispatched
  have short := short_of_fits fits
  have same : live (leafcounter state.tally text) = live (leafcounter [] text) :=
    agree.leafcounter.live_eq short
  refine ⟨code, live (leafcounter state.tally text), _, _, carries_printFile,
    handleLine_ok.mpr (each {}), ?_⟩
  rw [same]
  exact carries_printFile

end Lines

/-- Each vote request that fits its buffer carries the votes it would carry as the first one. -/
theorem vote_lists_independent {state : State}
    {history : List (Event State ((CStr → Option (List Char)) × CStr) (Option CStr))}
    (run : Run handleLine {} history state) : ∀ event ∈ history, VoteCommand event.input.2 →
      ∀ message, event.output = some message → message.length < 4096 →
        ∃ code list first last, Carries message code list ∧
          handleLine {} event.input = .ok (some first, last) ∧ Carries first code list := by
  intro event member votes message sent fits
  obtain ⟨past, future, rfl⟩ := List.append_of_mem member
  obtain ⟨before, after, handled, _⟩ := run.split
  have agree : AgreeOn 1024 event.before.tally [] :=
    Run.invariant_state (fun state => AgreeOn 1024 state.tally []) (agreeOn_cleared fun i _ => rfl)
      (fun agree handled => agreeOn_step agree handled) before
  rw [sent] at handled
  exact carries_same agree votes handled fits

/-- The second file does not name the candidates of the first one. -/
theorem vote_lists_independent_sample : ∃ message, message.length < 4096 ∧
    ∃ code list first last, Carries message code list ∧
      handleLine {} (fun _ => some "Z\n".toList, "Remove_Votes A b".toList) = .ok (some first, last) ∧
      Carries first code list := by
  have run : execute handleLine {} [(fun _ => some "X\nY\n".toList, "Add_Votes A a".toList),
    (fun _ => some "Z\n".toList, "Remove_Votes A b".toList)] = .ok ([_, _], _) := rfl
  exact ⟨_, by decide, vote_lists_independent (Run.of_execute _ run) _
    (List.mem_cons_of_mem _ List.mem_cons_self)
    ⟨"Remove_Votes".toList, by decide, .inr (by decide)⟩ _ rfl (by decide)⟩

end VoteCounting.Client
