import TaskLoom.Barrier.Pool
import TaskLoom.Memory.Range

/-!
# Timetables

A timetable is a list of placements.  A placement says in which time step a task
runs, on which barrier it produces, and which scratch ranges it holds meanwhile.
The order of the list is the order in which the decisions were made; where time
matters, placements are compared by time step and then by task.
-/

namespace TaskLoom

/-- One scheduling decision. -/
structure Placement where
  task : Nat
  time : Nat
  /-- The barrier the task produces on, if it posts one. -/
  barrier : Option BarrierId
  /-- Producer slots it takes there. -/
  slots : Nat
  /-- Scratch memory it holds while it runs. -/
  ranges : List Interval
deriving DecidableEq, Repr

/-- Earlier steps come first, and lower ids within a step. -/
def Placement.before (p q : Placement) : Bool :=
  p.time < q.time || (p.time == q.time && p.task ≤ q.task)

/-- The ranges a placement holds that are not empty. -/
def Placement.held (p : Placement) : List Interval :=
  p.ranges.filter (!·.isEmpty)

namespace Timetable

/-- The placements by time step, and by task within a step. -/
def sorted (placements : List Placement) : List Placement :=
  placements.mergeSort Placement.before

/-- The time step of a task; of several placements the last one counts. -/
def timeOf? (placements : List Placement) (task : Nat) : Option Nat :=
  (placements.reverse.find? (·.task == task)).map (·.time)

/-- The time step of a task that must have one. -/
def timeOf (placements : List Placement) (task : Nat) : Except Fault Nat :=
  match timeOf? placements task with
  | some time => .ok time
  | none => .error .untimed

/-- The number of time steps up to and including the last placement of a sorted
list. -/
def makespan (placements : List Placement) : Nat :=
  (placements.getLast?).elim 0 (·.time + 1)

/-- The tasks that post a barrier. -/
def posting (placements : List Placement) : List Nat :=
  (placements.filter (·.barrier.isSome)).map (·.task)

/-- The placements of one time step. -/
def placedAt (placements : List Placement) (time : Nat) : List Placement :=
  placements.filter (·.time == time)

/-- Adds a placement after the others of its step. -/
def addToStep (p : Placement) : List (Nat × List Placement) → List (Nat × List Placement)
  | [] => [(p.time, [p])]
  | (time, ps) :: rest =>
    if p.time < time then (p.time, [p]) :: (time, ps) :: rest
    else if p.time = time then (time, ps ++ [p]) :: rest
    else (time, ps) :: addToStep p rest

/-- The occupied steps in ascending order, each with its placements in list
order. -/
def steps (placements : List Placement) : List (Nat × List Placement) :=
  placements.foldl (fun steps p => addToStep p steps) []

end Timetable

end TaskLoom
