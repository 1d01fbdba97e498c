import TaskLoom.Barrier.Holdings
import TaskLoom.Memory.FirstFit
import TaskLoom.Outcome
import TaskLoom.Settings
import TaskLoom.TaskGraph.Order
import TaskLoom.Timetable.Basic

/-!
# List scheduling

Tasks are placed step by step.  In each step the ready tasks, those whose
predecessors have all finished, are considered in order of rank; a task that
fits the free scratch memory and barrier slots is placed, and one that does not
is deferred to the next step.  Every task takes one step, so at its end all
placed tasks finish, return what they hold, and release their successors.

Ranks order tasks by level and then by id.  A hint can put a task ahead of its
rank: the tasks that are hinted for a placed task are considered right after it,
if they are ready.

When nothing runs and nothing fits, the first deferred task alone exceeds the
hardware, and the schedule is refused.

The state of each task and the number of checks are kept from run to run, and
every run records what happened.

After each step `released` looks at the predecessors of all waiting tasks.  A
`Board` counts edges instead and keeps its tasks in order; `Board.listing_eq`
shows that it makes the same listing.
-/

namespace TaskLoom

/-- Where a task stands. -/
inductive TaskState where
  | unscheduled
  /-- Its resources are being checked. -/
  | pending
  | scheduled
  /-- It was ready but did not fit. -/
  | deferred
  | retired
deriving DecidableEq, Repr

/-- How a state is named in a report. -/
def TaskState.label : TaskState → String
  | .unscheduled => "Unscheduled"
  | .pending => "ResourceCheckPending"
  | .scheduled => "Scheduled"
  | .deferred => "Deferred"
  | .retired => "Retired"

/-- What happens during a run. -/
inductive ListingEvent where
  | stateChange (task : Nat) (before after : TaskState)
  | placed (task time : Nat) (barrier : Option BarrierId) (cmxUsed : Nat)
  /-- A hinted task is about to be placed next to the task it was hinted for. -/
  | prefetched (task beside : Nat)
  | finished (tasks makespan peakCmx checks : Nat)
deriving DecidableEq, Repr

/-- Tasks to consider right after a task is placed. -/
abbrev Hints := List (Nat × List Nat)

/-- The tasks that are hinted for one task. -/
def Hints.beside (hints : Hints) (task : Nat) : List Nat :=
  ((hints.find? (·.1 == task)).map (·.2)).getD []

/-- The number of hinted tasks. -/
def Hints.count (hints : Hints) : Nat :=
  Word.total (hints.map (·.2.length))

/-- What a list scheduler knows about its input, and what it remembers. -/
structure ListScheduler where
  graph : TaskGraph
  settings : Settings
  /-- The rank of each task, by id; lower ranks are considered first. -/
  ranks : Array Nat
  hints : Hints
  /-- The state of each task, by id. -/
  states : Array TaskState
  /-- Resource checks so far. -/
  checks : Nat

namespace ListScheduler

/-- The tasks of a graph in order of level and id. -/
def byLevel (g : TaskGraph) (levels : Array Nat) : List Nat :=
  g.ids.mergeSort fun a b =>
    levels.getD a 0 < levels.getD b 0 || (levels.getD a 0 == levels.getD b 0 && a ≤ b)

/-- Prepares a graph for scheduling, without hints. -/
def create (g : TaskGraph) (settings : Settings) : Except ScheduleError ListScheduler := do
  settings.validate
  let levels ← g.levels
  let ranks := (byLevel g levels).zipIdx.foldl
    (fun ranks (id, rank) => ranks.setIfInBounds id rank) (Array.replicate g.tasks.size 0)
  return {
    graph := g
    settings
    ranks
    hints := []
    states := Array.replicate g.tasks.size .unscheduled
    checks := 0 }

/-- The rank of a task. -/
def rank (s : ListScheduler) (task : Nat) : Nat :=
  s.ranks.getD task 0

/-- The state of a task. -/
def state (s : ListScheduler) (task : Nat) : TaskState :=
  s.states.getD task .unscheduled

/-- Orders tasks by rank. -/
def sortByRank (s : ListScheduler) (tasks : List Nat) : List Nat :=
  tasks.mergeSort (s.rank · ≤ s.rank ·)

/-- A run under way. -/
structure Run where
  memory : FirstFit
  barriers : Holdings
  /-- Placements of the current step. -/
  running : List Placement
  /-- Ready tasks that did not fit the current step. -/
  deferred : List Nat
  /-- Finished tasks. -/
  retired : Array Bool
  /-- All placements, the last one first. -/
  placements : List Placement
  time : Nat
  states : Array TaskState
  checks : Nat
  /-- What happened, the last event first. -/
  events : List ListingEvent

namespace Run

/-- Records an event. -/
def record (r : Run) (event : ListingEvent) : Run :=
  { r with events := event :: r.events }

/-- Moves a task to another state. -/
def enter (r : Run) (task : Nat) (state : TaskState) : Run :=
  let before := r.states.getD task .unscheduled
  { r.record (.stateChange task before state) with states := r.states.setIfInBounds task state }

/-- Reserves scratch memory for requests in order. -/
def reserveAll (memory : FirstFit) : List (Nat × Nat) → Except Fault (List Interval × FirstFit)
  | [] => .ok ([], memory)
  | (buffer, size) :: requests => do
    match ← memory.reserve size with
    | none => .error (.broken .scratchVanished)
    | some (range, memory) =>
      let (intervals, memory) ← reserveAll memory requests
      return (⟨buffer, range.start, range.stop⟩ :: intervals, memory)

/-- Gives scratch ranges back in order. -/
def giveBack (memory : FirstFit) : List Interval → Except Fault FirstFit
  | [] => .ok memory
  | i :: intervals => do
    giveBack (← memory.release i.range) intervals

/-- Takes the barrier slots that a task needs and names the barrier; none for a
task that posts no barrier. -/
def takeSlots (barriers : Holdings) (task demand : Nat) :
    Except Fault (Option BarrierId × Holdings) :=
  if demand = 0 then
    .ok (none, barriers)
  else do
    match ← barriers.acquire task demand with
    | (false, _) => .error (.broken .slotsVanished)
    | (true, barriers) => return ((barriers.find? task).map (·.barrier), barriers)

end Run

/-! ## One task -/

/-- Checks whether a task fits what is free. -/
def check (s : ListScheduler) (task : Nat) (r : Run) : Outcome Run Bool :=
  let r := r.enter task .pending
  let r := { r with checks := r.checks + 1 }
  let demand := (s.graph.task task).demand
  if demand = 0 || r.barriers.hasRoom demand then
    match r.memory.canReserve ((s.graph.task task).requests.map (·.2)) with
    | .ok fits => .done fits r
    | .error fault => .failed fault r
  else
    .done false r

/-- Places a task in the current step. -/
def place (s : ListScheduler) (task : Nat) (r : Run) : Outcome Run Unit :=
  let t := s.graph.task task
  match Run.reserveAll r.memory t.requests with
  | .error fault => .failed fault r
  | .ok (ranges, memory) =>
    match Run.takeSlots r.barriers task t.demand with
    | .error fault => .failed fault r
    | .ok (barrier, barriers) =>
      let placement : Placement := ⟨task, r.time, barrier, t.demand, ranges⟩
      let r := r.record (.placed task r.time barrier memory.used)
      let r := r.enter task .scheduled
      .done () { r with
        memory
        barriers
        running := placement :: r.running
        placements := placement :: r.placements }

/-- Sets a task aside until the next step. -/
def setAside (task : Nat) (r : Run) : Run :=
  { r.enter task .deferred with deferred := task :: r.deferred }

/-- Places a task if it fits, sets it aside if not, and tells which.  `beside` is
the task it was hinted for, if any. -/
def consider (s : ListScheduler) (task : Nat) (beside : Option Nat) (r : Run) : Outcome Run Bool :=
  match s.check task r with
  | .failed fault r => .failed fault r
  | .done false r => .done false (setAside task r)
  | .done true r =>
    let r := match beside with
      | some other => r.record (.prefetched task other)
      | none => r
    match s.place task r with
    | .failed fault r => .failed fault r
    | .done () r => .done true r

/-- Considers the tasks that were hinted for a placed one. -/
def considerBeside (s : ListScheduler) (task : Nat) : List Nat → Run → Outcome Run Unit
  | [], r => .done () r
  | hinted :: rest, r =>
    match s.consider hinted (some task) r with
    | .failed fault r => .failed fault r
    | .done _ r => s.considerBeside task rest r

/-! ## One step -/

/-- The ready tasks that were not considered ahead of their rank. -/
def leftOver (considered ready : List Nat) : List Nat :=
  ready.filter (!considered.contains ·)

theorem length_leftOver_le (considered ready : List Nat) :
    (leftOver considered ready).length ≤ ready.length :=
  List.length_filter_le _ _

/-- Considers all ready tasks, given in order of rank. -/
def fill (s : ListScheduler) (ready : List Nat) (r : Run) : Outcome Run Unit :=
  match ready with
  | [] => .done () r
  | task :: rest =>
    match s.consider task none r with
    | .failed fault r => .failed fault r
    | .done false r => s.fill rest r
    | .done true r =>
      let hinted := ((s.hints.beside task).filter rest.contains).eraseDups
      match s.considerBeside task hinted r with
      | .failed fault r => .failed fault r
      | .done () r => s.fill (leftOver hinted rest) r
termination_by ready.length
decreasing_by
  · simp
  · exact Nat.lt_succ_of_le (length_leftOver_le _ _)

/-- Ends a task: it returns what it holds. -/
def retire (placement : Placement) (r : Run) : Outcome Run Unit :=
  match Run.giveBack r.memory placement.ranges with
  | .error fault => .failed fault r
  | .ok memory =>
    match r.barriers.release placement.task with
    | .error fault => .failed fault r
    | .ok (_, barriers) =>
      let r := r.enter placement.task .retired
      .done () { r with
        memory
        barriers
        retired := r.retired.setIfInBounds placement.task true }

/-- Ends tasks in order. -/
def retireAll : List Placement → Run → Outcome Run Unit
  | [], r => .done () r
  | placement :: rest, r =>
    match retire placement r with
    | .failed fault r => .failed fault r
    | .done () r => retireAll rest r

/-- Ends all running tasks, lowest ids first, and moves to the next step. -/
def advance (r : Run) : Outcome Run Unit :=
  match retireAll (r.running.mergeSort (·.task ≤ ·.task)) { r with time := r.time + 1 } with
  | .failed fault r => .failed fault r
  | .done () r => .done () { r with running := [] }

/-! ## The whole run -/

/-- The refusal when nothing runs and a task does not fit. -/
def shortage (s : ListScheduler) (task : Nat) (memory : FirstFit) : Except Fault ScheduleError := do
  let t := s.graph.task task
  let sizes := t.requests.map (·.2)
  if ← memory.canReserve sizes then
    return .infeasible .listing t.name .producerSlots t.demand s.settings.slotsPerBarrier
  else
    let required ← Word.sum (← sizes.mapM memory.aligned)
    return .infeasible .listing t.name .scratch required memory.capacity

/-- The fault of a run in which nothing runs and nothing fits. -/
def stuck (s : ListScheduler) (waiting : List Nat) (r : Run) : Fault :=
  match s.sortByRank r.deferred with
  | task :: _ =>
    match s.shortage task r.memory with
    | .ok error => .refused error
    | .error fault => fault
  | [] => .refused (.cyclic (waiting.head?.elim "" s.graph.name))

/-- Whether all predecessors of a task have finished. -/
def released (predecessors : Array (List Nat)) (r : Run) (task : Nat) : Bool :=
  (predecessors.getD task []).all (r.retired.getD · false)

/-- Runs at most `count` steps: `waiting` are the tasks with unfinished
predecessors, `ready` the others that have not run. -/
def runSteps (s : ListScheduler) (predecessors : Array (List Nat)) :
    (count : Nat) → (waiting ready : List Nat) → Run → Outcome Run Unit
  | _, [], [], r => .done () r
  | 0, waiting, _, r => .failed (s.stuck waiting r) r
  | count + 1, waiting, ready, r =>
    match s.fill ready r with
    | .failed fault r => .failed fault r
    | .done () r =>
      if r.running.isEmpty then
        .failed (s.stuck waiting r) r
      else
        match advance r with
        | .failed fault r => .failed fault r
        | .done () r =>
          let free := waiting.filter (released predecessors r)
          let waiting := waiting.filter (!released predecessors r ·)
          let ready := s.sortByRank (free ++ r.deferred)
          s.runSteps predecessors count waiting ready { r with deferred := [] }

/-- The result of a run, with the scheduler as the run leaves it and what
happened, in order. -/
structure Listing where
  result : Except Fault (List Placement)
  scheduler : ListScheduler
  events : List ListingEvent

/-- Takes over what a run changed. -/
def keep (s : ListScheduler) (r : Run) : ListScheduler :=
  { s with states := r.states, checks := r.checks }

/-- Places every task.  Each step ends at least one task, so there are no more
steps than tasks. -/
def schedule (s : ListScheduler) : Listing :=
  match Holdings.create s.settings.barrierCount s.settings.slotsPerBarrier with
  | .error fault => ⟨.error fault, s, []⟩
  | .ok barriers =>
    let table := s.graph.predecessorTable
    let start : Run := {
      memory := FirstFit.create s.settings.cmxSize s.settings.alignment
      barriers
      running := []
      deferred := []
      retired := Array.replicate s.graph.tasks.size false
      placements := []
      time := 0
      states := s.states
      checks := s.checks
      events := [] }
    let ids := s.graph.ids
    let free := ids.filter (released table start)
    let waiting := ids.filter (!released table start ·)
    match s.runSteps table ids.length waiting (s.sortByRank free) start with
    | .failed fault r => ⟨.error fault, s.keep r, r.events.reverse⟩
    | .done () r =>
      let placements := r.placements.reverse
      let r := r.record (.finished placements.length r.time r.memory.peak r.checks)
      ⟨.ok placements, s.keep r, r.events.reverse⟩

end ListScheduler

end TaskLoom
