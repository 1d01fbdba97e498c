/-!
# Ways a computation can end without a result

Three kinds of failure are kept apart.  A `ScheduleError` is an answer: the
settings, the graph or the hardware do not allow a schedule, and the caller is
told which.  A `Breach` is the answer of a checker that looked at a finished
schedule.  A `Violation` is neither: it reports that a caller or the program
itself broke a rule that every operation relies on.

`Fault` joins them with the two failures of plain computation, a number that
leaves the 64-bit range and a task that has no time step.  Every wording lives
in a `message` function here; all other modules only name causes.
-/

namespace TaskLoom

/-! ## Refusals -/

/-- The part of the scheduler that refused the input. -/
inductive Stage where
  | frontier
  | listing
deriving DecidableEq, Repr

/-- How a stage is named in a report. -/
def Stage.label : Stage → String
  | .frontier => "max topological cut"
  | .listing => "list scheduling"

/-- A finite hardware resource. -/
inductive Resource where
  /-- On-chip scratch memory, in bytes. -/
  | scratch
  /-- Producer slots of a single barrier. -/
  | producerSlots
deriving DecidableEq, Repr

/-- How a resource is named in a report. -/
def Resource.label : Resource → String
  | .scratch => "CMX"
  | .producerSlots => "barrier producer slots"

/-- What makes a set of capacities unusable. -/
inductive Defect where
  | noScratch
  | noBarriers
  | noProducerSlots
  | alignment (bytes : Nat)
  | emptyPool (barriers slots : Nat)
  /-- A reason given by the caller, in words. -/
  | stated (reason : String)
deriving DecidableEq, Repr

/-- The wording of a defect. -/
def Defect.message : Defect → String
  | .noScratch => "CMX size must be non-zero"
  | .noBarriers => "barrier count must be non-zero"
  | .noProducerSlots => "producer slots per barrier must be non-zero"
  | .alignment bytes => s!"alignment {bytes} is not a power of two"
  | .emptyPool barriers slots =>
      s!"barrier pool needs at least one barrier and one slot, got {barriers} x {slots}"
  | .stated reason => reason

/-- The errors that a correct scheduler reports to its caller. -/
inductive ScheduleError where
  /-- The capacities cannot serve any schedule. -/
  | invalidSettings (defect : Defect)
  /-- One task needs more of a resource than the hardware has. -/
  | infeasible (stage : Stage) (task : String) (resource : Resource) (required available : Nat)
  /-- The dependencies are not acyclic; `task` could not be ordered. -/
  | cyclic (task : String)
deriving DecidableEq, Repr

/-- How a shortage is worded.  Bytes are given in KB, the need rounded up and the
budget rounded down. -/
def Resource.shortage : Resource → Nat → Nat → String
  | .scratch, required, available =>
      let need := (required + 1023) / 1024
      let budget := available / 1024
      s!"requires {need} KB of CMX, budget is {budget} KB"
  | .producerSlots, required, available =>
      s!"requires {required} barrier producer slots, a barrier holds {available}"

/-- The wording of a refusal. -/
def ScheduleError.message : ScheduleError → String
  | .invalidSettings defect => "invalid configuration: " ++ defect.message
  | .infeasible stage task resource required available =>
      stage.label ++ ": task '" ++ task ++ "' " ++ resource.shortage required available
  | .cyclic task => s!"dependency graph contains a cycle through task '{task}'"

/-- Whether the input was refused for want of a resource. -/
def ScheduleError.isInfeasible : ScheduleError → Bool
  | .infeasible .. => true
  | _ => false

/-! ## Breaches of a finished schedule -/

/-- The side of a virtual barrier. -/
inductive Role where
  | producer
  | consumer
deriving DecidableEq, Repr

/-- How a side is named in a report. -/
def Role.label : Role → String
  | .producer => "producer"
  | .consumer => "consumer"

/-- A guarantee that a finished schedule does not keep. -/
inductive Breach where
  | dependencyOrder (source target : String) (sourceTime targetTime : Nat)
  | memoryOverflow (time used budget : Nat)
  | overlappingBuffers (time : Nat) (first second : String)
  | outOfBounds (task : String) (start stop budget : Nat)
  | unscheduled (task : String)
  | danglingBarrier (barrier : Nat) (role : Role)
  | barrierOrder (barrier : Nat) (producer consumer : String)
  | unenforcedDependency (source target : String)
deriving DecidableEq, Repr

/-- The wording of a breach. -/
def Breach.message : Breach → String
  | .dependencyOrder source target sourceTime targetTime =>
      s!"task '{target}' runs at step {targetTime} but depends on '{source}' at step {sourceTime}"
  | .memoryOverflow time used budget =>
      s!"step {time} keeps {used} bytes of CMX alive, budget is {budget}"
  | .overlappingBuffers time first second =>
      s!"step {time}: CMX ranges of '{first}' and '{second}' overlap"
  | .outOfBounds task start stop budget =>
      s!"CMX range [{start}, {stop}) of '{task}' lies outside the {budget} byte budget"
  | .unscheduled task => s!"task '{task}' was never scheduled"
  | .danglingBarrier barrier role =>
      let side := role.label
      s!"virtual barrier {barrier} has no {side}"
  | .barrierOrder barrier producer consumer =>
      s!"virtual barrier {barrier} is consumed by '{consumer}' before producer '{producer}' runs"
  | .unenforcedDependency source target =>
      s!"dependency '{source}' -> '{target}' is not enforced by any barrier chain"

/-! ## Broken rules -/

/-- A rule that was broken while the program ran. -/
inductive Violation where
  | selfDependency (task : String)
  | closesCycle (source target : String)
  | alreadyFree (start stop : Nat)
  | unknownBarrier (barrier : String) (count : Nat)
  | slotsTaken (barrier : String) (available demand : Nat)
  | slotsExceeded (barrier : String) (restored limit : Nat)
  | frontierWeight
  | alreadyOrdered (later earlier : String)
  | scratchVanished
  | slotsVanished
  | schedule (breach : Breach)
deriving DecidableEq, Repr

/-- The wording of a broken rule. -/
def Violation.message : Violation → String
  | .selfDependency task => s!"task '{task}' cannot depend on itself"
  | .closesCycle source target => s!"control edge '{source}' -> '{target}' closes a cycle"
  | .alreadyFree start stop => s!"range {start}..{stop} is already free"
  | .unknownBarrier barrier count => s!"barrier {barrier} is outside the pool of {count}"
  | .slotsTaken barrier available demand =>
      s!"barrier {barrier} has {available} free slots, cannot commit {demand}"
  | .slotsExceeded barrier restored limit =>
      s!"barrier {barrier} would hold {restored} free slots, maximum is {limit}"
  | .frontierWeight => "cut weight disagrees with its frontier"
  | .alreadyOrdered later earlier =>
      s!"frontier tasks '{later}' and '{earlier}' are already ordered"
  | .scratchVanished => "CMX vanished between check and commit"
  | .slotsVanished => "barrier slots vanished between check and commit"
  | .schedule breach => "schedule verification failed: " ++ breach.message

/-! ## Faults -/

/-- Everything that can keep a computation from its result. -/
inductive Fault where
  /-- A number left the 64-bit range. -/
  | overflow
  /-- A task that has no time step was asked for one. -/
  | untimed
  /-- The input has no schedule. -/
  | refused (error : ScheduleError)
  /-- A finished schedule does not keep its guarantees. -/
  | breached (breach : Breach)
  /-- A rule of the program was broken. -/
  | broken (violation : Violation)
deriving DecidableEq, Repr

end TaskLoom
