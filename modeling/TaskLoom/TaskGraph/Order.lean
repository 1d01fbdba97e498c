import TaskLoom.TaskGraph.Basic

/-!
# Topological order and depth

The order of a graph lists, again and again, the lowest id that waits for no
unlisted task.  If unlisted tasks remain and each waits for another, the graph
has a cycle, and the lowest of them is reported.

The level of a task is the number of edges on the longest path that ends at it.
-/

namespace TaskLoom.TaskGraph

/-- Lists the tasks of `waiting`, each time the first that waits for none of
them, and tells which are left when there is no such task. -/
def drain (predecessors : Array (List Nat)) (waiting : List Nat) : List Nat × List Nat :=
  match _found : waiting.find? fun v => (predecessors.getD v []).all (!waiting.contains ·) with
  | none => ([], waiting)
  | some v =>
    let (order, stuck) := drain predecessors (waiting.erase v)
    (v :: order, stuck)
termination_by waiting.length
decreasing_by
  have member : v ∈ waiting := List.mem_of_find?_eq_some _found
  have := List.length_erase_of_mem member
  have := List.length_pos_of_mem member
  omega

/-- All tasks, each after those it depends on, lowest ids first. -/
def topologicalOrder (g : TaskGraph) : Except ScheduleError (List Nat) :=
  match drain g.predecessorTable g.ids with
  | (order, []) => .ok order
  | (_, stuck :: _) => .error (.cyclic (g.name stuck))

/-- The level of a task when those of its predecessors are known. -/
def levelAfter (levels : Array Nat) (predecessors : List Nat) : Nat :=
  predecessors.foldl (fun level p => max level (levels.getD p 0 + 1)) 0

/-- The level of every task, by id. -/
def levels (g : TaskGraph) : Except ScheduleError (Array Nat) := do
  let order ← g.topologicalOrder
  let table := g.predecessorTable
  return order.foldl (fun levels v => levels.setIfInBounds v (levelAfter levels (table.getD v [])))
    (Array.replicate g.tasks.size 0)

end TaskLoom.TaskGraph
