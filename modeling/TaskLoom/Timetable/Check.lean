import TaskLoom.Barrier.Virtual
import TaskLoom.Timetable.Basic

/-!
# Checks of a finished schedule

Three checks look at a timetable without knowing how it was made.  Every task has
a time step and every edge runs forward in time.  The scratch memory of every
step fits the budget, in ranges that tasks do not share.  Every virtual barrier
has producers, all before its consumers, and the barriers together enforce every
edge out of a task that posts one.
-/

namespace TaskLoom

namespace Timetable

/-- Goes through a list until a check fails. -/
def checkEach {α : Type} (check : α → Except Fault Unit) : List α → Except Fault Unit
  | [] => .ok ()
  | a :: rest => do
    check a
    checkEach check rest

/-! ## Dependencies -/

/-- An edge runs forward in time. -/
def checkEdge (g : TaskGraph) (placements : List Placement) (e : Edge) : Except Fault Unit := do
  let sourceTime ← timeOf placements e.source
  let targetTime ← timeOf placements e.target
  if targetTime ≤ sourceTime then
    .error (.breached (.dependencyOrder (g.name e.source) (g.name e.target) sourceTime targetTime))

/-- Every task has a time step and every edge runs forward in time. -/
def checkDependencies (g : TaskGraph) (placements : List Placement) : Except Fault Unit :=
  match g.ids.find? fun id => (timeOf? placements id).isNone with
  | some missing => .error (.breached (.unscheduled (g.name missing)))
  | none => checkEach (checkEdge g placements) g.dependencies

/-! ## Memory -/

/-- The first two ranges of different tasks that overlap: the first one as early
as possible, then the second. -/
def overlap? : List (Nat × Interval) → Option (Nat × Nat)
  | [] => none
  | (task, i) :: rest =>
    match rest.find? fun (other, j) => task != other && i.overlaps j with
    | some (other, _) => some (task, other)
    | none => overlap? rest

/-- The scratch memory of one step fits the budget, in ranges that tasks do not
share. -/
def checkStepMemory (g : TaskGraph) (budget : Nat) (step : Nat × List Placement) :
    Except Fault Unit := do
  let (time, placements) := step
  let used ← Word.sum (← placements.mapM fun p => (g.task p.task).cmxFootprint)
  if budget < used then
    .error (.breached (.memoryOverflow time used budget))
  let held := placements.flatMap fun p => p.held.map fun i => (p.task, i)
  if let some (task, i) := held.find? fun (_, i) => budget < i.stop then
    .error (.breached (.outOfBounds (g.name task) i.start i.stop budget))
  if let some (first, second) := overlap? held then
    .error (.breached (.overlappingBuffers time (g.name first) (g.name second)))

/-- The scratch memory of every step fits the budget. -/
def checkMemory (g : TaskGraph) (placements : List Placement) (budget : Nat) :
    Except Fault Unit :=
  checkEach (checkStepMemory g budget) (steps placements)

/-! ## Barriers -/

/-- A producer of a barrier runs before a consumer. -/
def checkPair (g : TaskGraph) (placements : List Placement) (id : Nat) (pair : Nat × Nat) :
    Except Fault Unit := do
  let (producer, consumer) := pair
  let producerTime ← timeOf placements producer
  let consumerTime ← timeOf placements consumer
  if consumerTime ≤ producerTime then
    .error (.breached (.barrierOrder id (g.name producer) (g.name consumer)))

/-- A barrier has producers and consumers, in this order of time. -/
def checkBarrier (g : TaskGraph) (placements : List Placement) (b : VirtualBarrier) :
    Except Fault Unit := do
  if b.producers.isEmpty then
    .error (.breached (.danglingBarrier b.id .producer))
  if b.consumers.isEmpty then
    .error (.breached (.danglingBarrier b.id .consumer))
  let pairs := b.producers.flatMap fun p => b.consumers.map fun c => (p, c)
  checkEach (checkPair g placements b.id) pairs

/-- The consumers of the barrier with this id; of several the last one counts. -/
def consumersOf (barriers : List VirtualBarrier) (id : Nat) : List Nat :=
  ((barriers.reverse.find? (·.id == id)).map (·.consumers)).getD []

/-- For each task the consumers of the barriers that it posts. -/
def waitTable (count : Nat) (barriers : List VirtualBarrier) : Array (List Nat) :=
  barriers.foldl
    (fun table b =>
      let consumers := consumersOf barriers b.id
      b.producers.foldl (fun table p => table.modify p (consumers ++ ·)) table)
    (Array.replicate count [])

/-- A number above every task that has a part in a barrier. -/
def taskBound (barriers : List VirtualBarrier) : Nat :=
  (barriers.flatMap fun b => b.producers ++ b.consumers).foldr
    (fun task bound => max (task + 1) bound) 0

/-- Whether one task waits for another through one barrier or several. -/
def enforces (table : Array (List Nat)) (source target : Nat) : Bool :=
  let next := fun v => table.getD v []
  (explore next (Array.replicate table.size false) (next source)).getD target false

/-- An edge out of a task that posts a barrier is enforced. -/
def checkEnforced (g : TaskGraph) (posting : List Nat) (table : Array (List Nat)) (e : Edge) :
    Except Fault Unit :=
  if posting.contains e.source && !enforces table e.source e.target then
    .error (.breached (.unenforcedDependency (g.name e.source) (g.name e.target)))
  else
    .ok ()

/-- Every barrier has two sides in order, and every edge out of a task that posts
a barrier is enforced. -/
def checkBarriers (g : TaskGraph) (placements : List Placement) (barriers : List VirtualBarrier) :
    Except Fault Unit := do
  checkEach (checkBarrier g placements) barriers
  let table := waitTable (taskBound barriers) barriers
  checkEach (checkEnforced g (posting placements) table) g.dependencies

end Timetable

end TaskLoom
