import TaskLoom.Outcome
import TaskLoom.TaskGraph.Basic

/-!
# Reachability and control edges

`explore` is the one search of the project: it marks everything that can be
reached from a list of starting points along a neighbour function.  Marks are
only ever added, and a point is expanded when it is marked, so the search ends
after as many expansions as there are points.

A control edge is only added where it keeps the graph acyclic: not from a task
to itself and not against a path that exists already.
-/

namespace TaskLoom

/-- Marking a point leaves fewer unmarked ones. -/
theorem count_false_set_lt (seen : Array Bool) (v : Nat) (h : v < seen.size)
    (unmarked : ¬ seen[v] = true) : (seen.set v true h).count false < seen.count false := by
  have hv : seen[v] = false := by simpa using unmarked
  have hpos : 0 < seen.count false := by
    rw [Array.count_pos_iff, ← hv]
    exact Array.getElem_mem h
  rw [Array.count_set, if_pos (by simp [hv]), if_neg (by decide)]
  omega

/-- Marks in `seen` every point that can be reached from `frontier` along `next`
through unmarked points.  Points outside `seen` are passed over. -/
def explore (next : Nat → List Nat) (seen : Array Bool) : List Nat → Array Bool
  | [] => seen
  | v :: rest =>
    if h : v < seen.size then
      if marked : seen[v] = true then
        explore next seen rest
      else
        explore next (seen.set v true h) (next v ++ rest)
    else
      explore next seen rest
termination_by frontier => (seen.count false, frontier.length)
decreasing_by
  · exact Prod.Lex.right _ (Nat.lt_succ_self _)
  · exact Prod.Lex.left _ _ (count_false_set_lt seen v h marked)
  · exact Prod.Lex.right _ (Nat.lt_succ_self _)

namespace TaskGraph

/-- Marks every task that can be reached from `id` along edges, `id` included. -/
def reachable (g : TaskGraph) (id : Nat) : Array Bool :=
  let table := g.successorTable
  explore (fun v => table.getD v []) (Array.replicate g.tasks.size false) [id]

/-- Whether edges lead from one task to another.  Every task leads to itself. -/
def hasPath (g : TaskGraph) (source target : Nat) : Bool :=
  (g.reachable source).getD target false

/-- Adds a control edge and tells whether it was needed: a direct edge of either
kind makes it superfluous. -/
def addControlEdge (g : TaskGraph) (source target : Nat) : Except Fault (Bool × TaskGraph) :=
  if (g.edge? source target).isSome then
    .ok (false, g)
  else if source = target || g.hasPath target source then
    .error (.broken (.closesCycle (g.name source) (g.name target)))
  else
    .ok (true, (g.addEdge source target .control).2)

/-- Adds control edges in order and counts the needed ones.  What was added
before a failure stays. -/
def addControlEdges (g : TaskGraph) : List (Nat × Nat) → Outcome TaskGraph Nat
  | [] => .done 0 g
  | (source, target) :: rest =>
    match g.addControlEdge source target with
    | .error fault => .failed fault g
    | .ok (added, g) =>
      match g.addControlEdges rest with
      | .done count g => .done (count + if added then 1 else 0) g
      | .failed fault g => .failed fault g

/-- Makes `target` depend on each of `sources` in order.  What was added before a
failure stays. -/
def addDependencies (g : TaskGraph) (target : Nat) : List Nat → Outcome TaskGraph Unit
  | [] => .done () g
  | source :: rest =>
    match g.addDependency source target with
    | .error fault => .failed fault g
    | .ok g => g.addDependencies target rest

end TaskGraph

end TaskLoom
