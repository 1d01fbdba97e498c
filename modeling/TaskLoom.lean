import TaskLoom.Barrier.Holdings
import TaskLoom.Barrier.Pool
import TaskLoom.Barrier.Virtual
import TaskLoom.Barrier.Wiring
import TaskLoom.Fault
import TaskLoom.Flow.Maximum
import TaskLoom.Flow.Network
import TaskLoom.Frontier.Heaviest
import TaskLoom.Frontier.Serialise
import TaskLoom.IdSet
import TaskLoom.Json.Token
import TaskLoom.Json.Value
import TaskLoom.Memory.FirstFit
import TaskLoom.Memory.Owners
import TaskLoom.Memory.Range
import TaskLoom.Outcome
import TaskLoom.Plan
import TaskLoom.Proofs.Barrier.Chains
import TaskLoom.Proofs.Barrier.Choosing
import TaskLoom.Proofs.Barrier.Fencing
import TaskLoom.Proofs.Barrier.Joining
import TaskLoom.Proofs.Barrier.Matching
import TaskLoom.Proofs.Barrier.Pool
import TaskLoom.Proofs.Barrier.Producers
import TaskLoom.Proofs.Barrier.Requests
import TaskLoom.Proofs.Barrier.Sealing
import TaskLoom.Proofs.Barrier.Uses
import TaskLoom.Proofs.Barrier.Wiring
import TaskLoom.Proofs.Flow.Cuts
import TaskLoom.Proofs.Flow.Distances
import TaskLoom.Proofs.Flow.Loops
import TaskLoom.Proofs.Flow.Maximum
import TaskLoom.Proofs.Flow.Optimum
import TaskLoom.Proofs.Frontier.Budget
import TaskLoom.Proofs.Frontier.Committed
import TaskLoom.Proofs.Frontier.Crossing
import TaskLoom.Proofs.Frontier.Heaviest
import TaskLoom.Proofs.Frontier.Lockstep
import TaskLoom.Proofs.Frontier.Nearest
import TaskLoom.Proofs.Frontier.Network
import TaskLoom.Proofs.Frontier.Orderings
import TaskLoom.Proofs.Frontier.Serialise
import TaskLoom.Proofs.Graph.Counting
import TaskLoom.Proofs.Graph.Depths
import TaskLoom.Proofs.Graph.Edges
import TaskLoom.Proofs.Graph.Edits
import TaskLoom.Proofs.Graph.Least
import TaskLoom.Proofs.Graph.Levels
import TaskLoom.Proofs.Graph.Matching
import TaskLoom.Proofs.Graph.Order
import TaskLoom.Proofs.Graph.Paths
import TaskLoom.Proofs.Json.Grammar
import TaskLoom.Proofs.Json.Printing
import TaskLoom.Proofs.Json.Tokens
import TaskLoom.Proofs.Memory.Claims
import TaskLoom.Proofs.Memory.FirstFit
import TaskLoom.Proofs.Memory.LookAhead
import TaskLoom.Proofs.Memory.Owners
import TaskLoom.Proofs.Memory.Returns
import TaskLoom.Proofs.Memory.Sessions
import TaskLoom.Proofs.Plan
import TaskLoom.Proofs.Plan.Barriers
import TaskLoom.Proofs.Plan.Cycles
import TaskLoom.Proofs.Plan.Figures
import TaskLoom.Proofs.Plan.Finished
import TaskLoom.Proofs.Plan.Lines
import TaskLoom.Proofs.Plan.Matching
import TaskLoom.Proofs.Plan.Refused
import TaskLoom.Proofs.Plan.Written
import TaskLoom.Proofs.Settings
import TaskLoom.Proofs.Timetable.Board
import TaskLoom.Proofs.Timetable.Check
import TaskLoom.Proofs.Timetable.Deferral
import TaskLoom.Proofs.Timetable.Delays
import TaskLoom.Proofs.Timetable.Feasible
import TaskLoom.Proofs.Timetable.Hints
import TaskLoom.Proofs.Timetable.Listing
import TaskLoom.Proofs.Timetable.Matching
import TaskLoom.Proofs.Timetable.Memory
import TaskLoom.Proofs.Timetable.Ordering
import TaskLoom.Proofs.Timetable.Placing
import TaskLoom.Proofs.Timetable.Plain
import TaskLoom.Proofs.Timetable.Prefetch
import TaskLoom.Proofs.Timetable.Ranks
import TaskLoom.Proofs.Timetable.Refusal
import TaskLoom.Proofs.Timetable.Repeats
import TaskLoom.Proofs.Timetable.Reuse
import TaskLoom.Proofs.Timetable.Rounding
import TaskLoom.Proofs.Timetable.Rounds
import TaskLoom.Proofs.Timetable.Scarcity
import TaskLoom.Proofs.Timetable.States
import TaskLoom.Proofs.Timetable.Steps
import TaskLoom.Proofs.Timetable.Times
import TaskLoom.Proofs.Timetable.Turns
import TaskLoom.Proofs.Word
import TaskLoom.Proofs.Workload
import TaskLoom.Settings
import TaskLoom.Settings.Text
import TaskLoom.Task
import TaskLoom.TaskGraph.Basic
import TaskLoom.TaskGraph.Drawing
import TaskLoom.TaskGraph.Order
import TaskLoom.TaskGraph.Reach
import TaskLoom.Timetable.Basic
import TaskLoom.Timetable.Check
import TaskLoom.Timetable.Listing
import TaskLoom.Timetable.Ordering
import TaskLoom.Timetable.Prefetch
import TaskLoom.Trace.Event
import TaskLoom.Trace.Report
import TaskLoom.Word
import TaskLoom.Workload
