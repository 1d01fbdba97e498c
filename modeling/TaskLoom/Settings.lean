import TaskLoom.Fault

/-!
# Settings of the scheduler

The capacities of the hardware and the choices that are open to the caller.
-/

namespace TaskLoom

/-- Which ordering edges are added after tasks have their time steps. -/
inductive OrderingPolicy where
  /-- None. -/
  | none
  /-- Every task of a step before every task of the next one. -/
  | basic
  /-- The same among the tasks that touch main memory. -/
  | basicNonCmx
  /-- Only between tasks whose scratch ranges overlap. -/
  | memoryAware
deriving DecidableEq, Repr

/-- How far ahead of its time step a transfer may be pulled. -/
structure PrefetchLimits where
  /-- Compute tasks that a transfer without dependencies may pass. -/
  constLevels : Nat := 2
  /-- Compute tasks that a transfer with dependencies may pass. -/
  activationLevels : Nat := 1
  /-- Time steps that a transfer may be moved. -/
  timeWindow : Nat := 50
deriving DecidableEq, Repr

/-- Hardware capacities and choices. -/
structure Settings where
  /-- Scratch memory in bytes. -/
  cmxSize : Nat := 1048576
  /-- Hardware barriers. -/
  barrierCount : Nat := 8
  /-- Producer slots of one barrier. -/
  slotsPerBarrier : Nat := 256
  /-- Granularity of scratch memory in bytes. -/
  alignment : Nat := 64
  ordering : OrderingPolicy := .memoryAware
  /-- Without limits nothing is prefetched. -/
  prefetch : Option PrefetchLimits := some {}
deriving DecidableEq, Repr

/-- Whether a number is a power of two. -/
def isPowerOfTwo (n : Nat) : Bool :=
  n != 0 && n == 1 <<< n.log2

/-- The first defect of the capacities, if there is one. -/
def Settings.defect? (s : Settings) : Option Defect :=
  if s.cmxSize = 0 then some .noScratch
  else if s.barrierCount = 0 then some .noBarriers
  else if s.slotsPerBarrier = 0 then some .noProducerSlots
  else if !isPowerOfTwo s.alignment then some (.alignment s.alignment)
  else Option.none

/-- Accepts capacities that some schedule could use. -/
def Settings.validate (s : Settings) : Except ScheduleError Unit :=
  match s.defect? with
  | some defect => .error (.invalidSettings defect)
  | .none => .ok ()

end TaskLoom
