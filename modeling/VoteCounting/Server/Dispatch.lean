import VoteCounting.Server.Polls
import VoteCounting.Server.Votes

namespace VoteCounting.Server

open Counters CString

/-- The messages of the server.  `UE;` answers a failed `makeargv`, which needs a failed
`malloc`; only the branch on the code of `Add_Votes` is kept. -/
inductive Response where
  | success
  | regionAdded (childname : CStr)
  | votes (output : List Counter)
  | noVotes
  | winner (name : CStr)
  | regionOpen (name : CStr)
  | noRegion (name : CStr)
  | nonLeaf (name : CStr)
  | regionClosed (name : CStr)
  | reopening (name : CStr)
  | alreadyOpen (name : CStr)
  | alreadyClosed (name : CStr)
  | unopened (name : CStr)
  | insufficient (names : List CStr)
  | unparsed (name : CStr)
  | unknown (code : Option CStr)
deriving DecidableEq, Repr

namespace Response

/-- The counts as `"%s:%d"` with commas between them. -/
def output (counters : List Counter) : CStr :=
  List.intercalate [','] (counters.map fun counter => counter.name ++ ':' :: decimal counter.count)

def text : Response → CStr
  | success => "SC;".toList
  | regionAdded childname => "SC;".toList ++ childname ++ ['\n']
  | votes counters => "SC;".toList ++ output counters
  | noVotes => "SC;No votes.".toList
  | winner name => "SC;Winner:".toList ++ name
  | regionOpen name => "RO;".toList ++ name ++ ['\n']
  | noRegion name => "NR;".toList ++ name
  | nonLeaf name => "NL;".toList ++ name
  | regionClosed name => "RC;".toList ++ name
  | reopening name => "RR;".toList ++ name
  | alreadyOpen name => "PF;".toList ++ name ++ " Open".toList
  | alreadyClosed name => "PF;".toList ++ name ++ ";closed".toList
  | unopened name => "PF;".toList ++ name ++ ";unopened.".toList
  | insufficient names => "IS;".toList ++ List.intercalate [','] names
  | unparsed name => "UE;".toList ++ name
  -- glibc prints a null pointer given to `%s` as `(null)`.
  | unknown code => "UC;".toList ++ code.getD "(null)".toList

/-- The responses that begin with `SC`. -/
def isSuccess : Response → Bool
  | success | regionAdded _ | votes _ | noVotes | winner _ => true
  | _ => false

end Response

abbrev Answer := Except Fault (List Response × Table)

section Handlers

variable (modulus : Nat) (table : Table) (argvp : List CStr)

def settled (node : Node) : Bool := !node.isOpen && node.closed

/-- The scan keeps the first entry with the largest count above zero. -/
def winnerName (entries : List Counter) : CStr :=
  (entries.foldl (fun (best : CStr × Int) entry =>
    if best.2 < entry.count then (entry.name, entry.count) else best) ([], 0)).1

def returnWinner : Answer :=
  match table.nodes.head? with
  | none => .error .nullPointer
  | some first =>
      match table.lookup first.name with
      | none => .ok ([.noRegion (trimwhitespace first.name)], table)
      | some root =>
          let allclose := table.nodes.all fun node => !node.children.isEmpty || settled node
          if !settled (table.node root) || !allclose then
            .ok ([.regionOpen (table.node root).name], table)
          else
            match aggregate modulus table.size table root with
            | none => .error .outOfFuel
            | some after =>
                if (after.node root).hasdata then
                  .ok ([.winner (winnerName (after.node root).rootCounter)], after)
                else .ok ([.noVotes], after)

def countVotes : Answer := do
  let field ← arg argvp 1
  match table.lookup (trimwhitespace field) with
  | none => .ok ([.noRegion (trimwhitespace field)], table)
  | some i =>
      if (table.node i).hasdata then .ok ([.votes (table.node i).rootCounter], table)
      else
        match aggregate modulus table.size table i with
        | none => .error .outOfFuel
        | some after =>
            if (after.node i).hasdata then .ok ([.votes (after.node i).rootCounter], after)
            else .ok ([.noVotes], after)

def addChild (i : Nat) (childname : CStr) : Table :=
  { nodes := (table.modify i fun node => { node with children := node.children ++ [table.size] }).nodes
      ++ [create childname] }

def addRegion : Answer := do
  let parentname ← arg argvp 1
  let childname ← arg argvp 2
  match table.lookup (trimwhitespace parentname) with
  | none => .ok ([.noRegion (trimwhitespace parentname)], table)
  | some i =>
      .ok ([.regionAdded (trimwhitespace childname)], addChild table i (trimwhitespace childname))

def removeVotes : Answer := do
  let input ← arg argvp 2
  let field ← arg argvp 1
  match table.lookup (trimwhitespace field) with
  | none => .ok ([.noRegion (trimwhitespace field)], table)
  | some i =>
      if table.children i ≠ [] then .ok ([.nonLeaf (table.node i).name], table)
      else if !(table.node i).isOpen || (table.node i).closed then
        .ok ([.regionClosed (trimwhitespace field)], table)
      else
        let names ← shortNames (table.node i).rootCounter (makeargv (trimwhitespace input) ',')
        if names ≠ [] then .ok ([.insufficient names], table)
        else
          let result ← removeTokens modulus (makeargv (trimwhitespace input) ',')
            (table.node i).rootCounter
          let after := table.modify i fun node => { node with rootCounter := result.1 }
          match result.2 with
          | some name => .ok ([.insufficient [name]], after)
          | none => .ok ([.success], after)

/-- The answers to the codes `Add_Votes` returns. -/
def answerAddVotes : Answer := do
  let result ← addVotes modulus table argvp
  let field ← arg argvp 1
  if result.1 = 1 then .ok ([.success], result.2)
  else if result.1 = 0 then .ok ([.regionClosed (trimwhitespace field)], result.2)
  else if result.1 = -1 then .ok ([.unparsed (trimwhitespace field)], result.2)
  else if result.1 = -2 then .ok ([.noRegion (trimwhitespace field)], result.2)
  else if result.1 = -3 then .ok ([.nonLeaf (trimwhitespace field)], result.2)
  else .ok ([], result.2)

/-- The answers to the codes `Open_Polls` and `Close_Polls` return. -/
def answerPolls (polls : Nat → Table → NameArg → Option (Int × Table))
    (already notReady : CStr → Response) : Answer := do
  let field ← arg argvp 1
  match polls (table.size + 1) table (.field field) with
  | none => .error .outOfFuel
  | some (f, after) =>
      if f = 1 then .ok ([.success], after)
      else if f = 0 then .ok ([already (trimwhitespace field)], after)
      else if f = -1 then .ok ([notReady (trimwhitespace field)], after)
      else if f = -2 then .ok ([.noRegion (trimwhitespace field)], after)
      else .ok ([], after)

def answerOpenPolls : Answer := answerPolls table argvp openPolls .alreadyOpen .reopening

def answerClosePolls : Answer := answerPolls table argvp closePolls .alreadyClosed .unopened

def invalidCode : Answer := .ok ([.unknown argvp.head?], table)

end Handlers

inductive Command where
  | returnWinner
  | removeVotes
  | countVotes
  | closePolls
  | openPolls
  | addVotes
  | addRegion
  | invalid
deriving DecidableEq, Repr

/-- The switch on `str[0]` and `str[1]`. -/
def command : CStr → Command
  | 'R' :: 'W' :: _ => .returnWinner
  | 'R' :: 'V' :: _ => .removeVotes
  | 'C' :: 'V' :: _ => .countVotes
  | 'C' :: 'P' :: _ => .closePolls
  | 'O' :: 'P' :: _ => .openPolls
  | 'A' :: 'V' :: _ => .addVotes
  | 'A' :: 'R' :: _ => .addRegion
  | _ => .invalid

/-- The argument vector of a request. -/
def argvpOf (str : CStr) : List CStr := makeargv (trimlastenter str) ';'

def handle (modulus : Nat) (table : Table) (argvp : List CStr) : Command → Answer
  | .returnWinner => returnWinner modulus table
  | .removeVotes => removeVotes modulus table argvp
  | .countVotes => countVotes modulus table argvp
  | .closePolls => answerClosePolls table argvp
  | .openPolls => answerOpenPolls table argvp
  | .addVotes => answerAddVotes modulus table argvp
  | .addRegion => addRegion table argvp
  | .invalid => invalidCode table argvp

def dispatchCode (modulus : Nat) (table : Table) (str : CStr) : Answer :=
  handle modulus table (argvpOf str) (command (trimlastenter str))

/-- `buffer_r` after the bytes read so far, and what the requests before it led to. -/
structure ThreadState (σ : Type) where
  buffer : CStr := []
  server : σ
deriving DecidableEq, Repr

/-- `runThread` reads one byte at a time and dispatches at each terminator. -/
def runThread {σ : Type} (dispatch : σ → CStr → Except Fault σ) :
    List Char → ThreadState σ → Except Fault (ThreadState σ)
  | [], state => .ok state
  | byte :: rest, state =>
      if byte = NUL then do
        let server ← dispatch state.server state.buffer
        runThread dispatch rest ⟨[], server⟩
      else runThread dispatch rest { state with buffer := state.buffer ++ [byte] }

/-- One request of a connection: the messages sent so far and the table. -/
def serveRequest (modulus : Nat) (served : List Response × Table) (str : CStr) :
    Except Fault (List Response × Table) := do
  let answer ← dispatchCode modulus served.2 str
  return (served.1 ++ answer.1, answer.2)

/-- Append the nodes of one line behind the list and make them the children of `region`. -/
def addLine (table : Table) (region : Nat) (names : List CStr) : Table :=
  { nodes := (table.modify region fun node =>
        { node with children := List.range' table.size names.length }).nodes
      ++ names.map fun name => create (trimlastenter name) }

/-- One line of the file; `none` where the program exits or follows a null pointer.
`linecounter` counts comment lines too. -/
def readLine (linecounter : Nat) (table : Table) (buf : CStr) : Option Table :=
  if buf.head? = some '#' then some table
  else
    match makeargv buf ':' with
    | [] => none
    | name :: names =>
        if linecounter = 0 then some (addLine (table.modify 0 fun node => { node with name }) 0 names)
        else
          -- The search starts behind the root.
          match table.nodes.tail.findIdx? fun node => node.name == name with
          | none => none
          | some k => some (addLine table (k + 1) names)

def readLines : Nat → Table → List CStr → Option Table
  | _, table, [] => some table
  | linecounter, table, buf :: rest => do
      let after ← readLine linecounter table buf
      readLines (linecounter + 1) after rest

/-- The list starts with one unnamed root. -/
def createDAG (file : CStr) : Option Table := readLines 0 { nodes := [{}] } (getlines file)

end VoteCounting.Server
