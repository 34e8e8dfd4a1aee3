import VoteCounting.Strings
import VoteCounting.Data.Counters
import VoteCounting.Data.Forest
import VoteCounting.Data.Branching
import VoteCounting.Data.Run
import VoteCounting.Data.Sweep
import VoteCounting.Data.Paths
import VoteCounting.Data.Scan
import VoteCounting.Data.Simulation
import VoteCounting.Data.Build
import VoteCounting.Nodes.Descendants
import VoteCounting.Nodes.Root
import VoteCounting.Nodes.Parser
import VoteCounting.Nodes.Memo
import VoteCounting.Nodes.LoopCheck
import VoteCounting.Nodes.Termination
import VoteCounting.Nodes.Layout
import VoteCounting.Nodes.Capacity
import VoteCounting.Nodes.Execution
import VoteCounting.Nodes.Votecounter
import VoteCounting.Programs.Results
import VoteCounting.Programs.LeafCounter
import VoteCounting.Programs.Directories
import VoteCounting.Programs.Totals
import VoteCounting.Programs.Cycles
import VoteCounting.Programs.VoteCounter
import VoteCounting.Programs.Election
import VoteCounting.Threads.Aggregate
import VoteCounting.Threads.Merging
import VoteCounting.Threads.Tally
import VoteCounting.Threads.Dispatching
import VoteCounting.Threads.Queue
import VoteCounting.Threads.Leaves
import VoteCounting.Threads.Ancestors
import VoteCounting.Threads.Regions
import VoteCounting.Threads.Removal
import VoteCounting.Threads.Program
import VoteCounting.Threads.Log
import VoteCounting.Threads.Winner
import VoteCounting.Server.Closing
import VoteCounting.Server.Counts
import VoteCounting.Server.Fields
import VoteCounting.Server.Refusals
import VoteCounting.Server.Books
import VoteCounting.Server.Counting
import VoteCounting.Server.Winner
import VoteCounting.Server.Gathering
import VoteCounting.Server.Aggregation
import VoteCounting.Server.Leaves
import VoteCounting.Server.Range
import VoteCounting.Server.Undo
import VoteCounting.Server.Bounds
import VoteCounting.Server.Listing
import VoteCounting.Server.Naming
import VoteCounting.Server.Uniqueness
import VoteCounting.Server.Flags
import VoteCounting.Server.RegionFile
import VoteCounting.Server.Comments
import VoteCounting.Server.Meaning
import VoteCounting.Server.Election
import VoteCounting.Client.Decoding
import VoteCounting.Client.Framing
import VoteCounting.Client.Session
import VoteCounting.Client.Tally
import VoteCounting.Client.Independence
import VoteCounting.Client.Turns
import VoteCounting.Client.Commands
import VoteCounting.Client.Answers
import VoteCounting.Client.Wire
import VoteCounting.Client.Network
import VoteCounting.Recitations.Philosophers
import VoteCounting.Recitations.Transfer
import VoteCounting.Recitations.DeepCopy
import VoteCounting.Recitations.Matrices
import VoteCounting.Recitations.Stats
import VoteCounting.Recitations.Accounts
import VoteCounting.Recitations.BankServer
import VoteCounting.Recitations.Links
import VoteCounting.Recitations.RowAdd
