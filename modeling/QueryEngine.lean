import QueryEngine.Cli.Command
import QueryEngine.Main
import QueryEngine.Proofs.Expr.OnRow
import QueryEngine.Proofs.Chunk.Rows
import QueryEngine.Proofs.Expr.Operands
import QueryEngine.Proofs.Expr.Rowwise
import QueryEngine.Proofs.Chunk.Flat
import QueryEngine.Proofs.Expr.Active
import QueryEngine.Proofs.Chunk.Filled
import QueryEngine.Proofs.Pull.Agree
import QueryEngine.Proofs.Chunk.Collected
import QueryEngine.Proofs.Pull.Gives
import QueryEngine.Proofs.Pull.Leaf
import QueryEngine.Proofs.Pull.Streaming
import QueryEngine.Proofs.Pull.Buffered
import QueryEngine.Proofs.Pull.Grouping
import QueryEngine.Proofs.Join.Build
import QueryEngine.Proofs.Join.Result
import QueryEngine.Proofs.Pull.Pairing
import QueryEngine.Proofs.Pull.Delete
import QueryEngine.Proofs.Pull.Join
import QueryEngine.Proofs.Join.Hash
import QueryEngine.Proofs.Plan.Rows
import QueryEngine.Proofs.Plan.WellFormed
import QueryEngine.Proofs.Plan.Capacity
import QueryEngine.Proofs.Pull.Limit
import QueryEngine.Proofs.Plan.MemoryLimit
import QueryEngine.Proofs.Expr.RowTyping
import QueryEngine.Proofs.Value.Order
import QueryEngine.Proofs.Join.Equation
import QueryEngine.Proofs.Pull.Deals
import QueryEngine.Proofs.Join.Filtered
import QueryEngine.Proofs.Table.Deleted
import QueryEngine.Proofs.Pull.Passed
import QueryEngine.Proofs.Pull.Passing
import QueryEngine.Proofs.Pull.PassingPairs
import QueryEngine.Proofs.Pull.Deletion
import QueryEngine.Proofs.Plan.Deletion
import QueryEngine.Proofs.Yields
import QueryEngine.Proofs.Expr.Failing
import QueryEngine.Proofs.Expr.Accumulated
import QueryEngine.Proofs.Sort.Rows
import QueryEngine.Proofs.Window.Call
import QueryEngine.Proofs.Sort.Stable
import QueryEngine.Proofs.Pull.Served
import QueryEngine.Proofs.Pull.Fails
import QueryEngine.Proofs.Pull.Feeds
import QueryEngine.Proofs.Pull.Preserves
import QueryEngine.Proofs.Pull.Sure
import QueryEngine.Proofs.Pull.SureChunks
import QueryEngine.Proofs.Pull.SureBuffered
import QueryEngine.Proofs.Pull.SureGrouping
import QueryEngine.Proofs.Pull.SurePairs
import QueryEngine.Proofs.Pull.SureJoin
import QueryEngine.Proofs.Plan.TypeSoundness
import QueryEngine.Proofs.Sort.Ordered
import QueryEngine.Proofs.Key.Grouped
import QueryEngine.Proofs.Window.Runs
import QueryEngine.Proofs.Window.Declared
import QueryEngine.Proofs.Window.Extended
import QueryEngine.Proofs.Expr.Folded
import QueryEngine.Proofs.Group.Declared
import QueryEngine.Proofs.Group.Failing
import QueryEngine.Proofs.Group.HandedOut
import QueryEngine.Proofs.Pull.Refused
import QueryEngine.Proofs.Pull.Resumed
import QueryEngine.Proofs.Pull.Scanned
import QueryEngine.Proofs.Pull.Quiet
import QueryEngine.Proofs.Plan.Calls
import QueryEngine.Proofs.Join.Marked
import QueryEngine.Proofs.Memory.Books
import QueryEngine.Proofs.Pull.Accounted
import QueryEngine.Proofs.Plan.Sequences
import QueryEngine.Proofs.Plan.Independent
import QueryEngine.Proofs.Plan.FailedDeletion
import QueryEngine.Proofs.InTime
import QueryEngine.Proofs.Pull.Halts
import QueryEngine.Proofs.Pull.HaltingChunks
import QueryEngine.Proofs.Pull.HaltingBuffered
import QueryEngine.Proofs.Pull.HaltingPairs
import QueryEngine.Proofs.Plan.Rounds
import QueryEngine.Proofs.Plan.Termination
import QueryEngine.Proofs.Plan.Builders
import QueryEngine.Proofs.Plan.HandedOver
import QueryEngine.Proofs.Pull.Draining
import QueryEngine.Proofs.Group.Computed
import QueryEngine.Proofs.Group.Shown
import QueryEngine.Proofs.Window.Computed
import QueryEngine.Proofs.Window.Grouped
import QueryEngine.Proofs.Pull.Reads
import QueryEngine.Proofs.Pull.LimitWindow
import QueryEngine.Proofs.Expr.Narrowed
import QueryEngine.Proofs.Pull.Outcomes
import QueryEngine.Proofs.Pull.Seeking
import QueryEngine.Proofs.Pull.Filtering
import QueryEngine.Proofs.Pull.CrossPairs
import QueryEngine.Proofs.Group.Charged
import QueryEngine.Proofs.Group.Permuted
import QueryEngine.Proofs.Expr.Division
import QueryEngine.Proofs.Plan.Batches
import QueryEngine.Proofs.Join.Marks
import QueryEngine.Proofs.Group.Extremes
import QueryEngine.Proofs.Value.Arrays
import QueryEngine.Proofs.Chunk.Appended
import QueryEngine.Proofs.Pull.Mapping
import QueryEngine.Proofs.Plan.DeletedRows
import QueryEngine.Proofs.Pull.Held
import QueryEngine.Proofs.Group.Reserved
import QueryEngine.Proofs.Chunk.Sliced
import QueryEngine.Proofs.Chunk.Changed
import QueryEngine.Proofs.Json.Written
import QueryEngine.Proofs.Config.Written
import QueryEngine.Proofs.Expr.Survived
import QueryEngine.Proofs.Table.Window
import QueryEngine.Proofs.Pull.Enduring
import QueryEngine.Proofs.Join.Entries
import QueryEngine.Proofs.Pull.Owed
import QueryEngine.Proofs.Pull.Emitted
import QueryEngine.Proofs.Pull.EnduringChunks
import QueryEngine.Proofs.Pull.EnduringPairs
import QueryEngine.Proofs.Plan.PendingPairs
