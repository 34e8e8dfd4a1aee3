import VoteCounting.Server.State

namespace VoteCounting.Server

open Counters CString

/-! The counters: `aggregate`, `Add_Votes` and `Remove_Votes`.

`modulus` is `2 ^ 32` for the `int` counts of the server.
-/

/-- Copying one count of a child.  A parent without data is not searched: the new entry
goes right behind the head of its list. -/
def copyCounter (modulus : Nat) (parent : Node) (entry : Counter) : Node :=
  if parent.hasdata then
    { parent with rootCounter := credit modulus parent.rootCounter entry.name entry.count }
  else { parent with rootCounter := [entry], hasdata := true }

def mergeChild (modulus : Nat) (table : Table) (region child : Nat) : Table :=
  table.modify region fun parent =>
    (table.node child).rootCounter.foldl (copyCounter modulus) parent

/-- The source returns the `hasdata` flag the region has afterwards. -/
def aggregate (modulus : Nat) : Nat → Table → Nat → Option Table
  | 0, _, _ => none
  | fuel + 1, table, region =>
      (table.children region).foldlM (fun table child =>
        if (table.node child).hasdata then some (mergeChild modulus table region child)
        else if table.children child ≠ [] then
          (aggregate modulus fuel table child).map (mergeChild modulus · region child)
        else some table) table

/-- `res[0]` and `atoi(res[1])` of one item of a vote list. -/
def voteEntry (token : CStr) : Except Fault Counter := do
  let name ← arg (makeargv token ':') 0
  let count ← arg (makeargv token ':') 1
  return ⟨name, atoi count⟩

/-- The items of a vote list that have a name and a count. -/
def listed (input : CStr) : List Counter :=
  (makeargv (trimwhitespace input) ',').filterMap fun token => (voteEntry token).toOption

/-- The search of `Add_Votes` resumes where the previous item ended: `passed` ends with the
node `temp_counter` points to. -/
structure Cursor where
  passed : List Counter
  ahead : List Counter

def Cursor.entries (cursor : Cursor) : List Counter := cursor.passed ++ cursor.ahead

def addVote (modulus : Nat) (passed : List Counter) : List Counter → Counter → Cursor
  | [], vote => ⟨passed ++ [vote], []⟩
  | entry :: rest, vote =>
      if entry.name = vote.name then
        ⟨passed ++ [{ entry with count := (entry.count + vote.count).bmod modulus }], rest⟩
      else addVote modulus (passed ++ [entry]) rest vote

def addTokens (modulus : Nat) : List CStr → Cursor → Except Fault Cursor
  | [], cursor => .ok cursor
  | token :: rest, cursor => do
      let vote ← voteEntry token
      addTokens modulus rest (addVote modulus cursor.passed cursor.ahead vote)

/-- Only the code is answered; `dispatchCode` turns it into a message. -/
def addVotes (modulus : Nat) (table : Table) (argvp : List CStr) : Except Fault (Int × Table) := do
  let input ← arg argvp 2
  let field ← arg argvp 1
  match table.lookup (trimwhitespace field) with
  | none => return (-2, table)
  | some i =>
      if table.children i ≠ [] then return (-3, table)
      else if !(table.node i).isOpen || (table.node i).closed then return (0, table)
      else
        let cursor ← addTokens modulus (makeargv (trimwhitespace input) ',')
          ⟨[], (table.node i).rootCounter⟩
        return (1, table.modify i fun node =>
          { node with rootCounter := cursor.entries, hasdata := true })

/-- The test of both conditions on an item; its count is read only where its name is found. -/
def tooFew (entries : List Counter) (token name : CStr) : Except Fault Bool :=
  match firstCount entries name with
  | none => .ok true
  | some count => do
      let amount ← arg (makeargv token ':') 1
      return decide (count < atoi amount)

/-- First pass of `Remove_Votes`: the names without enough votes. -/
def shortNames (entries : List Counter) : List CStr → Except Fault (List CStr)
  | [] => .ok []
  | token :: rest => do
      let name ← arg (makeargv token ':') 0
      let short ← tooFew entries token name
      let names ← shortNames entries rest
      return if short then name :: names else names

/-- Subtract from the entry the search stops at: the first one of the name, or else the
last one of the list. -/
def debitFound (modulus : Nat) (entries : List Counter) (vote : Counter) : List Counter :=
  match firstCount entries vote.name with
  | some _ => debit modulus entries vote.name vote.count
  | none => entries.modify (entries.length - 1) fun entry =>
      { entry with count := (entry.count - vote.count).bmod modulus }

/-- The count at which that search stops; the head node of an empty list reads as zero. -/
def countFound (entries : List Counter) (name : CStr) : Int :=
  (firstCount entries name).getD ((entries.getLast?.map Entry.count).getD 0)

/-- Second pass of `Remove_Votes`: the list as far as it was changed, and the name at which
the pass stopped.  `found2` is still set from the first pass and never reset, so a missing
name would not stop this pass. -/
def removeTokens (modulus : Nat) :
    List CStr → List Counter → Except Fault (List Counter × Option CStr)
  | [], entries => .ok (entries, none)
  | token :: rest, entries => do
      let vote ← voteEntry token
      if countFound entries vote.name < vote.count then return (entries, some vote.name)
      removeTokens modulus rest (debitFound modulus entries vote)

end VoteCounting.Server
