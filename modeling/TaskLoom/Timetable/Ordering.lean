import TaskLoom.Memory.Owners
import TaskLoom.Settings
import TaskLoom.TaskGraph.Reach
import TaskLoom.Timetable.Basic

/-!
# Ordering edges of a timetable

Once tasks have time steps, control edges can fix the order that the timetable
relies on.  Each policy is a list of pairs, the earlier task first: every pair of
tasks in consecutive occupied steps, the same among tasks that touch main
memory, or a task and the last earlier users of the scratch memory it takes.
Pairs that have a direct edge already need none.

Each pair runs forward in time, and so does every dependency of a correct
timetable, so the edges close no cycle.
-/

namespace TaskLoom

namespace Timetable

/-- All pairs of a task of one list and a task of the other. -/
def product (earlier later : List Placement) : List (Nat × Nat) :=
  earlier.flatMap fun p => later.map fun q => (p.task, q.task)

/-- All pairs of tasks in consecutive steps. -/
def consecutivePairs : List (Nat × List Placement) → List (Nat × Nat)
  | (_, earlier) :: (time, later) :: rest =>
    product earlier later ++ consecutivePairs ((time, later) :: rest)
  | _ => []

/-- The last earlier users of the memory that a placement takes, with its task. -/
def reusePairs (owners : Owners) (p : Placement) : List (Nat × Nat) :=
  (IdSet.ofList (p.held.flatMap owners.of)).map fun owner => (owner, p.task)

/-- Makes a placement the owner of the memory it takes. -/
def claimAll (owners : Owners) (p : Placement) : Owners :=
  p.held.foldl (fun owners i => owners.claim i p.task) owners

/-- The pairs of tasks that take the same memory one after the other. -/
def memoryPairs (owners : Owners) : List (Nat × List Placement) → List (Nat × Nat)
  | [] => []
  | (_, ps) :: rest =>
    ps.flatMap (reusePairs owners) ++ memoryPairs (ps.foldl claimAll owners) rest

end Timetable

/-- The pairs that a policy puts in order. -/
def OrderingPolicy.pairs (policy : OrderingPolicy) (g : TaskGraph) (placements : List Placement) :
    List (Nat × Nat) :=
  match policy with
  | .none => []
  | .basic => Timetable.consecutivePairs (Timetable.steps placements)
  | .basicNonCmx =>
    let touching := placements.filter fun p => (g.task p.task).touches .ddr
    Timetable.consecutivePairs (Timetable.steps touching)
  | .memoryAware => Timetable.memoryPairs .empty (Timetable.steps placements)

/-- Adds the control edges of a policy and counts them. -/
def OrderingPolicy.apply (policy : OrderingPolicy) (g : TaskGraph) (placements : List Placement) :
    Outcome TaskGraph Nat :=
  g.addControlEdges (policy.pairs g placements)

end TaskLoom
