import TaskLoom.IdSet
import TaskLoom.Task

/-!
# Task graphs

A graph holds tasks under stable ids and edges in stable slots.  Removing a task
or an edge leaves its id or slot vacant; the next insertion takes the one that
became vacant last.  Edges are listed in slot order where an order shows, while
searches for an edge between two tasks start from the one added last.

The edges are therefore one list, the last one added in front, in which each
edge carries its slot.  `dependencies` is the same list in slot order.

`addEdge` inserts without looking.  The guarded insertions are `addDependency`
here and the control edges of `TaskLoom.TaskGraph.Reach`.

Ids and slots are natural numbers.  The 32-bit indices that would number them
leave room for `2 ^ 32 - 1` tasks and as many edges; this limit is left out, so
`addTask` and `addEdge` always find a number.
-/

namespace TaskLoom

/-- Why one task runs before another. -/
inductive Dependency where
  /-- The later task reads what the earlier one writes. -/
  | data
  /-- The scheduler wants them in this order. -/
  | control
deriving DecidableEq, Repr

/-- An edge in its slot. -/
structure Edge where
  slot : Nat
  source : Nat
  target : Nat
  kind : Dependency
deriving DecidableEq, Repr

/-- Tasks and the edges between them. -/
structure TaskGraph where
  /-- The task under each id, `none` where the id is vacant. -/
  tasks : Array (Option Task) := #[]
  /-- Vacant ids, the last vacated first. -/
  vacantIds : List Nat := []
  /-- The edges, the last added first. -/
  edges : List Edge := []
  /-- Vacant slots, the last vacated first. -/
  vacantSlots : List Nat := []
  /-- The number of slots, vacant ones included. -/
  slotCount : Nat := 0
deriving Repr

namespace TaskGraph

/-- The graph without tasks. -/
def empty : TaskGraph := {}

/-! ## Looking at a graph -/

/-- The task under an id. -/
def task? (g : TaskGraph) (id : Nat) : Option Task :=
  (g.tasks[id]?).join

/-- The task under an id, `Task.vacant` if there is none. -/
def task (g : TaskGraph) (id : Nat) : Task :=
  (g.task? id).getD .vacant

/-- The name of a task. -/
def name (g : TaskGraph) (id : Nat) : String :=
  (g.task id).name

/-- Whether the id is in use. -/
def has (g : TaskGraph) (id : Nat) : Bool :=
  (g.task? id).isSome

/-- The ids in use, ascending. -/
def ids (g : TaskGraph) : List Nat :=
  (List.range g.tasks.size).filter g.has

/-- The number of tasks. -/
def size (g : TaskGraph) : Nat :=
  g.ids.length

/-- The first id whose task has this name. -/
def find? (g : TaskGraph) (name : String) : Option Nat :=
  g.ids.find? (g.name · == name)

/-- The edge from one task to another that was added last. -/
def edge? (g : TaskGraph) (source target : Nat) : Option Edge :=
  g.edges.find? fun e => e.source == source && e.target == target

/-- All edges in slot order. -/
def dependencies (g : TaskGraph) : List Edge :=
  g.edges.mergeSort (·.slot ≤ ·.slot)

/-- The number of control edges. -/
def controlCount (g : TaskGraph) : Nat :=
  g.edges.countP (·.kind == .control)

/-- The tasks with an edge to `id`, ascending. -/
def predecessors (g : TaskGraph) (id : Nat) : List Nat :=
  IdSet.ofList ((g.edges.filter (·.target == id)).map (·.source))

/-- The tasks with an edge from `id`, ascending. -/
def successors (g : TaskGraph) (id : Nat) : List Nat :=
  IdSet.ofList ((g.edges.filter (·.source == id)).map (·.target))

/-- The bytes that all tasks together need in one memory. -/
def totalFootprint (g : TaskGraph) (space : MemorySpace) : Except Fault Nat :=
  Word.sum (g.ids.flatMap fun id => (g.task id).sizesIn space)

/-! ## Neighbour tables

A search visits the neighbours of many tasks.  These tables list them for every
id at once, an edge that is repeated once per repetition. -/

/-- For each id the targets of the edges that leave it. -/
def successorTable (g : TaskGraph) : Array (List Nat) :=
  g.edges.foldl (fun table e => table.modify e.source (e.target :: ·))
    (Array.replicate g.tasks.size [])

/-- For each id the sources of the edges that reach it. -/
def predecessorTable (g : TaskGraph) : Array (List Nat) :=
  g.edges.foldl (fun table e => table.modify e.target (e.source :: ·))
    (Array.replicate g.tasks.size [])

/-! ## Changing a graph -/

/-- Adds a task and tells its id, which may be any number: no 32-bit limit. -/
def addTask (g : TaskGraph) (t : Task) : Nat × TaskGraph :=
  match g.vacantIds with
  | id :: rest => (id, { g with tasks := g.tasks.setIfInBounds id (some t), vacantIds := rest })
  | [] => (g.tasks.size, { g with tasks := g.tasks.push (some t) })

/-- Replaces the task under an id in use. -/
def setTask (g : TaskGraph) (id : Nat) (t : Task) : TaskGraph :=
  { g with tasks := g.tasks.setIfInBounds id (some t) }

/-- Adds an edge, whatever edges there are, and tells its slot, which may be any
number: no 32-bit limit. -/
def addEdge (g : TaskGraph) (source target : Nat) (kind : Dependency) : Nat × TaskGraph :=
  match g.vacantSlots with
  | slot :: rest =>
    (slot, { g with edges := ⟨slot, source, target, kind⟩ :: g.edges, vacantSlots := rest })
  | [] =>
    (g.slotCount,
      { g with
        edges := ⟨g.slotCount, source, target, kind⟩ :: g.edges
        slotCount := g.slotCount + 1 })

/-- Makes one task depend on another.  A repeated dependency is ignored; a task
cannot depend on itself. -/
def addDependency (g : TaskGraph) (source target : Nat) : Except Fault TaskGraph :=
  if source = target then
    .error (.broken (.selfDependency (g.name source)))
  else if (g.edge? source target).isSome then
    .ok g
  else
    .ok (g.addEdge source target .data).2

/-- Removes the edge from one task to another that was added last and tells its
kind. -/
def removeEdge (g : TaskGraph) (source target : Nat) : Option (Dependency × TaskGraph) :=
  (g.edge? source target).map fun e =>
    (e.kind, { g with edges := g.edges.erase e, vacantSlots := e.slot :: g.vacantSlots })

/-- Removes a task with its edges.  Their slots become vacant first those of
outgoing, then those of incoming edges, each from the last added to the first. -/
def removeTask (g : TaskGraph) (id : Nat) : TaskGraph :=
  let outgoing := g.edges.filter (·.source == id)
  let incoming := g.edges.filter fun e => e.target == id && e.source != id
  let vacated := (outgoing ++ incoming).map (·.slot)
  { g with
    tasks := g.tasks.setIfInBounds id none
    vacantIds := id :: g.vacantIds
    edges := g.edges.filter fun e => e.source != id && e.target != id
    vacantSlots := vacated.reverse ++ g.vacantSlots }

end TaskGraph

end TaskLoom
