import VoteCounting.Strings
import VoteCounting.Data.Counters

namespace VoteCounting.Client

open Counters CString

/-! The requests the client sends, one for each line of its request file.

Memory from `malloc` reads as zero before it is written.  The client prints what it sends;
the prints are left out, and with them the copy `votes` of the tally.
-/

abbrev Slot := Entry CStr

/-- `max_data`, and the slots of `canidate_names` and `canidate_votes` as far as they were
ever written; all slots behind them are zero. -/
structure State where
  maxData : Nat := 0
  tally : List Slot := []
deriving DecidableEq, Repr

/-- The slots in use end at the first count of zero. -/
def live (tally : List Slot) : List Slot := tally.takeWhile (·.count ≠ 0)

/-- The two `memset` calls clear 4096 bytes each: the counts of 1024 slots and one name. -/
def clear (tally : List Slot) : List Slot :=
  tally.mapIdx fun i slot =>
    if i < 1024 then ⟨if i = 0 then [] else slot.name, 0⟩ else slot

def placeVote (name : CStr) : List Slot → List Slot
  | [] => [⟨name, 1⟩]
  | slot :: rest =>
      if slot.count = 0 then ⟨name, 1⟩ :: rest
      else if slot.name = name then { slot with count := toInt (slot.count + 1) } :: rest
      else slot :: placeVote name rest

/-- The result of `trimwhitespace` is not used: leading blanks of a name stay. -/
def countVote (tally : List Slot) (name : CStr) : List Slot :=
  placeVote (trimwhitespaceBuffer name) tally

def leafcounter (tally : List Slot) (text : List Char) : List Slot :=
  (getlines text).foldl (fun tally vote => countVote tally (strcpy vote)) tally

def capReq (maxData : Nat) (req : CStr) : CStr := req ++ List.replicate maxData ' '

/-- Pads with blanks up to 15 bytes. -/
def stringPad (str : CStr) : CStr := str ++ List.replicate (15 - str.length) ' '

/-- A request about one region, up to its blanks at the end. -/
def regionRequest (maxData : Nat) (code : CStr) (name ending : CStr) : CStr :=
  capReq maxData (code ++ stringPad (trimwhitespaceBuffer name) ++ ending)

def openPolls (state : State) (name : CStr) : CStr :=
  regionRequest state.maxData "OP;".toList name ";".toList

def countVotes (state : State) (name : CStr) : CStr :=
  regionRequest state.maxData "CV;".toList name ";".toList

def closePolls (state : State) (name : CStr) : CStr :=
  regionRequest state.maxData "CP;".toList name ";       ".toList

/-- The padded name of a region is built and not sent. -/
def returnWinner (state : State) : CStr := capReq state.maxData "RW;".toList

def addRegion (state : State) (parent region : CStr) : CStr :=
  regionRequest state.maxData "AR;".toList parent (';' :: trimwhitespaceBuffer region)

def voteText (slot : Slot) : CStr := slot.name ++ ':' :: decimal slot.count ++ [',']

/-- The last byte is cut off even where no vote was appended. -/
def printFileIntoData (state : State) (code : CStr) : CStr × State :=
  let code := (code ++ (live state.tally).flatMap voteText).dropLast ++ "      ".toList
  let maxData := max state.maxData code.length
  (capReq maxData code, { maxData, tally := clear state.tally })

section Files

variable (files : CStr → Option (List Char))

/-- A request with the votes of a file.  `files` are the contents by path below the working
directory; a file that cannot be opened is read through a null pointer. -/
def voteRequest (state : State) (code : CStr) (name file : CStr) : Option (CStr × State) := do
  let text ← files (trimEnd file)
  return printFileIntoData { state with tally := leafcounter state.tally text }
    (code ++ stringPad (trimwhitespaceBuffer name) ++ [';'])

def addVotes (state : State) (name file : CStr) : Option (CStr × State) :=
  voteRequest files state "AV;".toList name file

def removeVotes (state : State) (name file : CStr) : Option (CStr × State) :=
  voteRequest files state "RV;".toList name file

/-- The request sent for a line, if one is sent; `none` where the client follows a null
pointer.  A line without words has no `argvp[0]`. -/
def dispatchLine (state : State) (str : CStr) : Option (Option CStr × State) :=
  let argvp := makeargv str ' '
  let region := argvp.getD 1 []
  let file := argvp.getD 2 []
  match argvp.head? with
  | none => none
  | some word =>
      let cmd := trimwhitespaceBuffer word
      if cmd = "Open_Polls".toList then some (openPolls state region, state)
      else if cmd = "Add_Votes".toList then
        (addVotes files state region file).map fun sent => (some sent.1, sent.2)
      else if cmd = "Count_Votes".toList then some (countVotes state region, state)
      else if cmd = "Close_Polls".toList then some (closePolls state region, state)
      else if cmd = "Return_Winner".toList then some (returnWinner state, state)
      else if cmd = "Remove_Votes".toList then
        (removeVotes files state region file).map fun sent => (some sent.1, sent.2)
      else if cmd = "Add_Region".toList then some (addRegion state region file, state)
      else some (none, state)

end Files

end VoteCounting.Client
