import TaskLoom.Flow.Maximum
import TaskLoom.TaskGraph.Order
import TaskLoom.TaskGraph.Reach

/-!
# The heaviest frontier of a graph

Tasks that no path orders may run at the same time, whatever schedule is chosen.
The heaviest set of such tasks, weighed by scratch memory, is the peak that the
dependencies alone allow.

It is found as a minimum flow with lower bounds.  Each task is split into an
entry and an exit node, joined by an arc that must carry at least the weight of
the task; each dependency is an arc without limit from an exit to an entry.  To
begin with, the weight of every task flows straight from the source through the
task to the sink.  The maximum flow that can be pushed back from the sink to the
source is superfluous.  What remains is the weight of the heaviest frontier, and
the frontier itself consists of the tasks whose exit, but not whose entry, the
sink still reaches.

A `Serialiser` is a copy of the graph under work: it carries the weights, the
rank of every task in the topological order at the start, and the ordering
edges that were added to the copy but not to the graph itself.
-/

namespace TaskLoom

/-- A set of tasks that may all be alive at once. -/
structure Frontier where
  /-- Bytes of scratch memory alive. -/
  weight : Nat
  /-- The tasks, ascending. -/
  tasks : List Nat
  /-- The dependencies that lead past the frontier, in slot order. -/
  crossing : List (Nat × Nat)
deriving DecidableEq, Repr

/-- The frontier without tasks. -/
def Frontier.empty : Frontier := ⟨0, [], []⟩

/-- A graph on which frontiers are measured and ordered. -/
structure Serialiser where
  /-- The working copy. -/
  graph : TaskGraph
  /-- The scratch memory of each task, by id. -/
  weights : Array Nat
  /-- The position of each task in the topological order at the start. -/
  ranks : Array Nat
  /-- The scratch memory that the hardware has. -/
  budget : Nat
  /-- Ordering edges of the working copy that the graph does not have yet, in the
  order they were added. -/
  pending : List (Nat × Nat)

namespace Serialiser

/-- Notes for each id its position in a list of ids. -/
def positions (count : Nat) (order : List Nat) : Array Nat :=
  order.zipIdx.foldl (fun ranks (id, position) => ranks.setIfInBounds id position)
    (Array.replicate count 0)

/-- Prepares a graph.  A weight out of range is reported before a cycle. -/
def ofGraph (g : TaskGraph) (budget : Nat) : Except Fault Serialiser := do
  let weights ← (List.range g.tasks.size).mapM fun id => (g.task id).cmxFootprint
  match g.topologicalOrder with
  | .error error => .error (.refused error)
  | .ok order =>
    return {
      graph := g
      weights := weights.toArray
      ranks := positions g.tasks.size order
      budget
      pending := [] }

/-- The scratch memory of a task. -/
def weight (s : Serialiser) (id : Nat) : Nat :=
  s.weights.getD id 0

/-- The position of a task in the topological order at the start. -/
def rank (s : Serialiser) (id : Nat) : Nat :=
  s.ranks.getD id 0

/-! ## Measuring -/

/-- The node where the flow enters a task. -/
def entry (id : Nat) : Nat := 2 * id

/-- The node where the flow leaves a task. -/
def exit (id : Nat) : Nat := 2 * id + 1

/-- The node from which all flow comes. -/
def source (s : Serialiser) : Nat := 2 * s.graph.tasks.size

/-- The node to which all flow goes. -/
def sink (s : Serialiser) : Nat := 2 * s.graph.tasks.size + 1

/-- The arcs of one task, with its weight flowing through it. -/
def addTaskArcs (s : Serialiser) (net : FlowNetwork) (id : Nat) : FlowNetwork :=
  let w := s.weight id
  let net := net.addArc s.source (entry id) FlowNetwork.unbounded w
  let net := net.addArc (entry id) (exit id) FlowNetwork.unbounded 0
  net.addArc (exit id) s.sink FlowNetwork.unbounded w

/-- The network in which each task carries its weight. -/
def network (s : Serialiser) : FlowNetwork :=
  let net := s.graph.ids.foldl s.addTaskArcs (FlowNetwork.create (2 * s.graph.tasks.size + 2))
  s.graph.dependencies.foldl
    (fun net e => net.addArc (exit e.source) (entry e.target) FlowNetwork.unbounded 0) net

/-- The frontier on the far side of what the sink reaches, for a known weight. -/
def frontierOf (s : Serialiser) (weight : Nat) (net : FlowNetwork) : Frontier :=
  let dist := net.distances s.sink
  let reached := FlowNetwork.reached dist
  { weight
    tasks := s.graph.ids.filter fun id => !reached (entry id) && reached (exit id)
    crossing := (s.graph.dependencies.filter fun e =>
      !reached (exit e.source) && reached (entry e.target)).map fun e => (e.source, e.target) }

/-- The heaviest frontier of the working copy. -/
def heaviest (s : Serialiser) : Except Fault Frontier := do
  let total ← Word.sum (s.graph.ids.map s.weight)
  let (superfluous, net) ← s.network.maxFlow s.sink s.source
  let weight ← Word.sub total superfluous
  let frontier := s.frontierOf weight net
  let alive ← Word.sum (frontier.tasks.map s.weight)
  if weight = alive then
    return frontier
  else
    .error (.broken .frontierWeight)

end Serialiser

end TaskLoom
