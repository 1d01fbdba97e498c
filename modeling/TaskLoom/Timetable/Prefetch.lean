import TaskLoom.Outcome
import TaskLoom.Settings
import TaskLoom.TaskGraph.Basic
import TaskLoom.Timetable.Listing

/-!
# Prefetch hints

A transfer into scratch memory can often run earlier than a timetable places it,
next to a compute task of an earlier step.  `findPrefetches` looks for such pairs:
everything the transfer depends on has run before the compute task, the memory
that is free in every step between the two can hold it, and it stays within the
limits on compute tasks passed and steps moved.

The pairs are only hints.  List scheduling runs again with them and checks every
resource itself.
-/

namespace TaskLoom

/-- A transfer that may run next to an earlier compute task. -/
structure Prefetch where
  compute : Nat
  transfer : Nat
  /-- Steps by which the transfer moves. -/
  distance : Nat
  /-- One more than the compute tasks that it passes. -/
  level : Nat
deriving DecidableEq, Repr

/-- The search so far. -/
structure PrefetchSearch where
  /-- Free scratch memory of each occupied step, ascending by step. -/
  free : List (Nat × Nat)
  /-- Pairs found, the last one first. -/
  found : List Prefetch

namespace PrefetchSearch

/-- Takes memory from a step, which has `size` bytes free if nothing was taken
yet.  A step never has less than nothing free. -/
def occupy (size time held : Nat) : List (Nat × Nat) → List (Nat × Nat)
  | [] => [(time, size - held)]
  | (t, room) :: rest =>
    if time < t then (time, size - held) :: (t, room) :: rest
    else if time = t then (t, room - held) :: rest
    else (t, room) :: occupy size time held rest

/-- The memory that a timetable leaves free in each occupied step. -/
def freeMemory (size : Nat) : List Placement → List (Nat × Nat) → Except Fault (List (Nat × Nat))
  | [], free => .ok free
  | p :: rest, free => do
    let held ← Word.sum (← p.ranges.mapM Interval.length)
    freeMemory size rest (occupy size p.time held free)

/-- Whether a step is one of those from `first` up to, not including, `last`. -/
def within (first last time : Nat) : Bool :=
  first ≤ time && time < last

/-- The least memory free in the steps from `first` up to `last`. -/
def room (free : List (Nat × Nat)) (first last : Nat) : Nat :=
  (((free.filter (within first last ·.1)).map (·.2)).min?).getD 0

/-- Takes memory in the steps from `first` up to `last`. -/
def spend (free : List (Nat × Nat)) (first last size : Nat) : List (Nat × Nat) :=
  free.map fun (time, room) => if within first last time then (time, room - size) else (time, room)

end PrefetchSearch

/-- Whether a task is compute work that holds scratch memory. -/
def Task.isComputeInCmx (t : Task) : Except Fault Bool :=
  match t.kind with
  | .compute _ => do return 0 < (← t.cmxFootprint)
  | _ => .ok false

/-- Whether a task is a transfer that holds scratch memory. -/
def Task.isTransferInCmx (t : Task) : Except Fault Bool :=
  match t.kind with
  | .dma => do return 0 < (← t.cmxFootprint)
  | _ => .ok false

/-- Whether a task of the list does not run before `time`.  Tasks after the first
such task are not looked up. -/
def anyNotBefore (order : List Placement) (time : Nat) : List Nat → Except Fault Bool
  | [] => .ok false
  | task :: rest => do
    if time ≤ (← Timetable.timeOf order task) then return true
    anyNotBefore order time rest

/-- What to do with a later placement. -/
inductive PrefetchVerdict where
  /-- No later placement qualifies either. -/
  | stop
  | pass
  /-- A transfer of this size may run next to the compute task. -/
  | take (size : Nat)

/-- Judges a transfer against a compute task. -/
def judgeTransfer (g : TaskGraph) (order : List Placement) (limits : PrefetchLimits)
    (compute transfer : Placement) (level : Nat) (search : PrefetchSearch) :
    Except Fault PrefetchVerdict := do
  let predecessors := g.predecessors transfer.task
  let limit := if predecessors.isEmpty then limits.constLevels else limits.activationLevels
  if limit < level || limits.timeWindow < transfer.time - compute.time then
    return .stop
  if transfer.time == compute.time || search.found.any (·.transfer == transfer.task) then
    return .pass
  if ← anyNotBefore order compute.time predecessors then
    return .pass
  let size ← (g.task transfer.task).cmxFootprint
  if PrefetchSearch.room search.free compute.time transfer.time ≤ size then
    return .pass
  return .take size

/-- Looks through the placements after a compute task.  `level` is one more than
the compute tasks passed so far. -/
def scanAfter (g : TaskGraph) (order : List Placement) (limits : PrefetchLimits)
    (compute : Placement) :
    (level : Nat) → List Placement → PrefetchSearch → Outcome PrefetchSearch Unit
  | _, [], search => .done () search
  | level, later :: rest, search =>
    match (g.task later.task).isComputeInCmx with
    | .error fault => .failed fault search
    | .ok passed =>
      let level := if passed then level + 1 else level
      match (g.task later.task).isTransferInCmx with
      | .error fault => .failed fault search
      | .ok false => scanAfter g order limits compute level rest search
      | .ok true =>
        match judgeTransfer g order limits compute later level search with
        | .error fault => .failed fault search
        | .ok .stop => .done () search
        | .ok .pass => scanAfter g order limits compute level rest search
        | .ok (.take size) =>
          scanAfter g order limits compute level rest {
            free := PrefetchSearch.spend search.free compute.time later.time size
            found := ⟨compute.task, later.task, later.time - compute.time, level⟩ :: search.found }

/-- Looks for transfers next to each compute task in turn. -/
def scanAll (g : TaskGraph) (order : List Placement) (limits : PrefetchLimits) :
    List Placement → PrefetchSearch → Outcome PrefetchSearch Unit
  | [], search => .done () search
  | compute :: rest, search =>
    match (g.task compute.task).isComputeInCmx with
    | .error fault => .failed fault search
    | .ok false => scanAll g order limits rest search
    | .ok true =>
      match scanAfter g order limits compute 1 rest search with
      | .failed fault search => .failed fault search
      | .done () search => scanAll g order limits rest search

/-- The pairs of a timetable, in the order they were found; after a fault those
that were found before it. -/
def findPrefetches (g : TaskGraph) (placements : List Placement) (cmxSize : Nat)
    (limits : PrefetchLimits) : Outcome (List Prefetch) Unit :=
  let order := Timetable.sorted placements
  match PrefetchSearch.freeMemory cmxSize order [] with
  | .error fault => .failed fault []
  | .ok free =>
    match scanAll g order limits order ⟨free, []⟩ with
    | .failed fault search => .failed fault search.found.reverse
    | .done () search => .done () search.found.reverse

/-- The pairs by compute task, ascending, the transfers of each in the order they
were found. -/
def Hints.ofPrefetches (found : List Prefetch) : Hints :=
  (IdSet.ofList (found.map (·.compute))).map fun compute =>
    (compute, (found.filter (·.compute == compute)).map (·.transfer))

end TaskLoom
