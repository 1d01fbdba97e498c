import TaskLoom.Barrier.Wiring
import TaskLoom.Frontier.Serialise
import TaskLoom.Timetable.Check
import TaskLoom.Timetable.Ordering
import TaskLoom.Timetable.Prefetch

/-!
# The whole plan for a graph

Planning bounds the peak memory of the graph, places every task, places them
again if transfers can be prefetched, adds the ordering edges of the policy,
wires the barriers and writes the decisions on the tasks.  The finished plan is
checked before it is handed out; a plan that fails a check is a broken rule, not
an answer.

A refusal leaves the graph with the edges that were added before it.

Beside its result a run lists what each stage did, in order, for whoever reports
on it.
-/

namespace TaskLoom

/-- Everything that was decided about a graph. -/
structure Plan where
  /-- The placements by time step and task. -/
  placements : List Placement
  barriers : List VirtualBarrier
  /-- Control edges that bound the peak memory. -/
  serialisationEdges : Nat
  /-- Hinted tasks of the second run. -/
  prefetched : Nat
  /-- Control edges of the ordering policy. -/
  orderingEdges : Nat
  /-- The heaviest frontier of the graph after serialisation. -/
  peak : Frontier
  /-- The number of time steps. -/
  makespan : Nat
deriving DecidableEq, Repr

/-- What one stage of a run did. -/
inductive StageReport where
  | peak (events : List FrontierEvent)
  | listing (events : List ListingEvent)
  /-- The pairs found; `complete` if the search came to its end. -/
  | prefetch (found : List Prefetch) (complete : Bool)
  | ordering (policy : OrderingPolicy) (inserted : Nat)
  | wiring (created kept : Nat)
  | finished (plan : Plan)

/-- What a run leaves behind. -/
structure PlanRun where
  graph : TaskGraph
  reports : List StageReport

namespace Plan

/-- The time step of a task. -/
def timeOf? (p : Plan) (task : Nat) : Option Nat :=
  Timetable.timeOf? p.placements task

/-- The placements of one time step. -/
def placedAt (p : Plan) (time : Nat) : List Placement :=
  Timetable.placedAt p.placements time

/-! ## Placing -/

/-- One run of list scheduling, with hints. -/
def place (g : TaskGraph) (settings : Settings) (hints : Hints) :
    Outcome (List ListingEvent) (List Placement) :=
  match ListScheduler.create g settings with
  | .error error => .failed (.refused error) []
  | .ok scheduler =>
    let listing := { scheduler with hints }.schedule
    match listing.result with
    | .error fault => .failed fault listing.events
    | .ok placements => .done placements listing.events

/-- Looks for prefetches in a timetable and, if there are some, places the tasks
again: the placements and the number of hinted tasks. -/
def replace (g : TaskGraph) (settings : Settings) (limits : PrefetchLimits)
    (placements : List Placement) : Outcome (List StageReport) (List Placement × Nat) :=
  match findPrefetches g placements settings.cmxSize limits with
  | .failed fault found => .failed fault [.prefetch found false]
  | .done () [] => .done (placements, 0) [.prefetch [] true]
  | .done () found =>
    let hints := Hints.ofPrefetches found
    match place g settings hints with
    | .failed fault events => .failed fault [.prefetch found true, .listing events]
    | .done again events => .done (again, hints.count) [.prefetch found true, .listing events]

/-- Places every task, with prefetching if it is turned on: the placements by time
step and task, and the number of hinted tasks. -/
def placeAll (g : TaskGraph) (settings : Settings) :
    Outcome (List StageReport) (List Placement × Nat) :=
  match place g settings [] with
  | .failed fault events => .failed fault [.listing events]
  | .done placements events =>
    match settings.prefetch with
    | none => .done (Timetable.sorted placements, 0) [.listing events]
    | some limits =>
      match replace g settings limits placements with
      | .failed fault reports => .failed fault (.listing events :: reports)
      | .done (again, hinted) reports =>
        .done (Timetable.sorted again, hinted) (.listing events :: reports)

/-! ## Writing and checking -/

/-- Writes a decision and its number in the order of issue on the task. -/
def writeDecision (barriers : List VirtualBarrier) (g : TaskGraph) (entry : Placement × Nat) :
    TaskGraph :=
  let (p, number) := entry
  g.setTask p.task { g.task p.task with
    time := some p.time
    number := some number
    waits := VirtualBarrier.waitsOf barriers p.task
    updates := VirtualBarrier.updatesOf barriers p.task }

/-- Writes all decisions on the tasks. -/
def writeDecisions (g : TaskGraph) (placements : List Placement) (barriers : List VirtualBarrier) :
    TaskGraph :=
  placements.zipIdx.foldl (writeDecision barriers) g

/-- All checks of a finished plan. -/
def check (g : TaskGraph) (settings : Settings) (placements : List Placement)
    (barriers : List VirtualBarrier) : Except Fault Unit := do
  Timetable.checkDependencies g placements
  Timetable.checkMemory g placements settings.cmxSize
  Timetable.checkBarriers g placements barriers

/-- A breach found by the planner itself is a broken rule. -/
def selfCheckFault : Fault → Fault
  | .breached breach => .broken (.schedule breach)
  | fault => fault

/-! ## The run -/

/-- The end of a run: edges, barriers, decisions, checks. -/
def complete (settings : Settings) (peak : Frontier) (serialisationEdges : Nat)
    (placements : List Placement) (prefetched : Nat) (g : TaskGraph) (reports : List StageReport) :
    Outcome PlanRun Plan :=
  match settings.ordering.apply g placements with
  | .failed fault g => .failed fault ⟨g, reports⟩
  | .done orderingEdges g =>
    let created := (Wiring.sealAll g placements).length
    let barriers := wire g placements
    let reports := reports ++
      [.ordering settings.ordering orderingEdges, .wiring created barriers.length]
    let g := writeDecisions g placements barriers
    match check g settings placements barriers with
    | .error fault => .failed (selfCheckFault fault) ⟨g, reports⟩
    | .ok () =>
      let plan : Plan := {
        placements
        barriers
        serialisationEdges
        prefetched
        orderingEdges
        peak
        makespan := Timetable.makespan placements }
      .done plan ⟨g, reports ++ [.finished plan]⟩

/-- Plans a graph.  `observed` tells whether someone follows the run, in which
case the figures of its reports are computed as well. -/
def make (observed : Bool) (settings : Settings) (g : TaskGraph) : Outcome PlanRun Plan :=
  match settings.validate with
  | .error error => .failed (.refused error) ⟨g, []⟩
  | .ok () =>
    match boundPeak observed settings.cmxSize g with
    | .failed fault (g, events) => .failed fault ⟨g, [.peak events]⟩
    | .done peak (bounded, events) =>
      let serialisationEdges := bounded.controlCount - g.controlCount
      match placeAll bounded settings with
      | .failed fault reports => .failed fault ⟨bounded, .peak events :: reports⟩
      | .done (placements, prefetched) reports =>
        complete settings peak serialisationEdges placements prefetched bounded
          (.peak events :: reports)

end Plan

end TaskLoom
