import TaskLoom.Barrier.Pool
import TaskLoom.TaskGraph.Reach

/-!
# Virtual barriers

A virtual barrier is one use of a hardware barrier: its producers post it, and
its consumers wait until all of them have.  Waiting is also indirect: whoever
waits for a task that posts a barrier of its own waits for all that this task
waited for.

Two clean-ups use this.  A consumer is superfluous if another consumer of the
same barrier posts a barrier and leads to it.  A barrier is superfluous if
another one has the same consumers, and can take over its producers.
-/

namespace TaskLoom

/-- One use of a hardware barrier. -/
structure VirtualBarrier where
  id : Nat
  physical : BarrierId
  /-- The tasks that post it, ascending. -/
  producers : List Nat
  /-- The tasks that wait for it, ascending. -/
  consumers : List Nat
deriving DecidableEq, Repr

namespace VirtualBarrier

/-! ## Superfluous consumers -/

/-- The consumers of a barrier that no other consumer leads to which is one of
`posting`. -/
def neededConsumers (g : TaskGraph) (posting : List Nat) (consumers : List Nat) : List Nat :=
  let leading := (consumers.filter posting.contains).map fun other => (other, g.reachable other)
  consumers.filter fun c => !leading.any fun (other, reached) => other != c && reached.getD c false

/-- Drops the superfluous consumers of every barrier. -/
def dropConsumers (g : TaskGraph) (barriers : List VirtualBarrier) : List VirtualBarrier :=
  let posting := barriers.flatMap (·.producers)
  barriers.map fun b => { b with consumers := neededConsumers g posting b.consumers }

/-! ## Superfluous barriers -/

/-- Adds a barrier to a list in which no two barriers have the same consumers: as
producers of the one that has its consumers, or at the end. -/
def merge (b : VirtualBarrier) : List VirtualBarrier → List VirtualBarrier
  | [] => [b]
  | kept :: rest =>
    if kept.consumers = b.consumers then
      { kept with producers := IdSet.union b.producers kept.producers } :: rest
    else
      kept :: merge b rest

/-- Numbers barriers from zero. -/
def renumber (barriers : List VirtualBarrier) : List VirtualBarrier :=
  barriers.zipIdx.map fun (b, id) => { b with id }

/-- Drops the barriers that nobody posts or nobody waits for, joins those with the
same consumers, and numbers the rest. -/
def dropBarriers (barriers : List VirtualBarrier) : List VirtualBarrier :=
  let used := barriers.filter fun b => !b.producers.isEmpty && !b.consumers.isEmpty
  renumber (used.foldl (fun kept b => merge b kept) [])

/-! ## Roles -/

/-- The barriers that a task waits for, in list order. -/
def waitsOf (barriers : List VirtualBarrier) (task : Nat) : List Nat :=
  (barriers.filter (·.consumers.contains task)).map (·.id)

/-- The barriers that a task posts, in list order. -/
def updatesOf (barriers : List VirtualBarrier) (task : Nat) : List Nat :=
  (barriers.filter (·.producers.contains task)).map (·.id)

/-- The tasks that have a part in some barrier, ascending. -/
def tasks (barriers : List VirtualBarrier) : List Nat :=
  IdSet.ofList (barriers.flatMap fun b => b.consumers ++ b.producers)

end VirtualBarrier

end TaskLoom
