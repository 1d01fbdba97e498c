import TaskLoom.Plan
import TaskLoom.Trace.Event

/-!
# Reports of the stages

What the stages of a run record, put into words: each record becomes an event
with its level, target, message and fields, inside the spans of the stage.
-/

namespace TaskLoom

/-- Kilobytes, rounded down. -/
def kilobytes (bytes : Nat) : Nat :=
  bytes / 1024

/-- Kilobytes, rounded up. -/
def kilobytesUp (bytes : Nat) : Nat :=
  (bytes + 1023) / 1024

/-- The share of a budget in percent. -/
def percent (weight budget : Nat) : FieldValue :=
  .number (weight * 100 / max budget 1)

/-- An optional barrier, as shown to whoever debugs a run. -/
def shownBarrier : Option BarrierId → String
  | none => "None"
  | some b => "Some(BarrierId(" ++ toString b.number ++ "))"

/-! ## Records -/

/-- The event of a frontier record; `name` gives the names of tasks. -/
def FrontierEvent.event (name : Nat → String) : FrontierEvent → Event
  | .measured frontier =>
    { level := .trace
      target := "vpusched::cut"
      message := "computed max topological cut"
      fields := [
        ("weight", .number frontier.weight),
        ("frontier", .number frontier.tasks.length),
        ("crossing", .number frontier.crossing.length)] }
  | .required weight budget =>
    { level := .info
      target := "vpusched::cut"
      message := "network requires peak CMX"
      fields := [
        ("weight_kb", .number (kilobytesUp weight)),
        ("budget_kb", .number (kilobytes budget)),
        ("percent", percent weight budget)] }
  | .exceeded weight budget =>
    { level := .info
      target := "vpusched::cut"
      message := "peak memory exceeds CMX, serialising"
      fields := [
        ("weight_kb", .number (kilobytes weight)),
        ("budget_kb", .number (kilobytes budget)),
        ("percent", percent weight budget)] }
  | .ordered source target =>
    { level := .debug
      target := "vpusched::cut"
      message := "serialised frontier pair"
      fields := [("from", .text (name source)), ("to", .text (name target))] }
  | .fits inserted weight =>
    { level := .info
      target := "vpusched::cut"
      message := "peak CMX fits after partial serialisation"
      fields := [
        ("inserted", .number inserted),
        ("weight_kb", .number (kilobytesUp weight))] }

/-- The event of a listing record. -/
def ListingEvent.event (name : Nat → String) : ListingEvent → Event
  | .stateChange task before after =>
    { level := .trace
      target := "vpusched::scheduler"
      message := "state change"
      fields := [
        ("task", .text (name task)),
        ("from", .text before.label),
        ("to", .text after.label)] }
  | .placed task time barrier cmxUsed =>
    { level := .debug
      target := "vpusched::scheduler"
      message := "scheduled"
      fields := [
        ("task", .text (name task)),
        ("time", .number time),
        ("barrier", .text (shownBarrier barrier)),
        ("cmx_used", .number cmxUsed)] }
  | .prefetched task beside =>
    { level := .trace
      target := "vpusched::scheduler"
      message := "prefetched"
      fields := [("task", .text (name task)), ("compute", .text (name beside))] }
  | .finished tasks makespan peakCmx checks =>
    { level := .debug
      target := "vpusched::scheduler"
      message := "list scheduling finished"
      fields := [
        ("tasks", .number tasks),
        ("makespan", .number makespan),
        ("peak_cmx", .number peakCmx),
        ("resource_checks", .number checks)] }

/-- The event of a pair that can be prefetched. -/
def Prefetch.event (name : Nat → String) (p : Prefetch) : Event where
  level := .trace
  target := "vpusched::prefetch"
  message := "data op fits during compute"
  fields := [
    ("data", .text (name p.transfer)),
    ("compute", .text (name p.compute)),
    ("time_diff", .number p.distance),
    ("level", .number p.level)]

/-- The event at the end of a search for prefetches. -/
def prefetchSummary (count : Nat) : Event where
  level := .debug
  target := "vpusched::prefetch"
  message := "prefetch edges"
  fields := [("edges", .number count)]

/-- The message about the edges of a policy. -/
def OrderingPolicy.summary : OrderingPolicy → String
  | .none => "no control edges"
  | .basic => "basic control edges"
  | .basicNonCmx => "non-CMX control edges"
  | .memoryAware => "memory control edges"

/-- The event after the edges of a policy were added. -/
def orderingSummary (policy : OrderingPolicy) (inserted : Nat) : Event where
  level := .debug
  target := "vpusched::control_edges"
  message := policy.summary
  fields := [("inserted", .number inserted)]

/-- The event after barriers were wired. -/
def wiringSummary (created kept : Nat) : Event where
  level := .debug
  target := "vpusched::barriers"
  message := "wired virtual barriers"
  fields := [("created", .number created), ("kept", .number kept)]

/-- The event at the end of a plan. -/
def Plan.summary (p : Plan) : Event where
  level := .info
  target := "vpusched::schedule"
  message := "schedule complete"
  fields := [
    ("tasks", .number p.placements.length),
    ("makespan", .number p.makespan),
    ("barriers", .number p.barriers.length),
    ("serialisation_edges", .number p.serialisationEdges),
    ("prefetched", .number p.prefetched),
    ("control_edges", .number p.orderingEdges),
    ("peak_cmx", .number p.peak.weight)]

/-! ## Stages -/

/-- A span around the work of one stage. -/
def stageSpan (name : String) (fields : Fields) : Span :=
  ⟨.info, name, fields⟩

/-- The events of work on frontiers outside any stage. -/
def frontierEvents (context : TraceContext) (name : Nat → String) (events : List FrontierEvent) :
    List Event :=
  events.map fun e => (e.event name).inside context.spans

/-- The events of the stage that bounds the peak. -/
def peakEvents (context : TraceContext) (name : Nat → String) (budget : Nat)
    (events : List FrontierEvent) : List Event :=
  let span :=
    stageSpan "max_topological_cut_and_partial_serialisation" [("budget", .number budget)]
  (frontierEvents context name events).map (·.inside [span])

/-- The events of a run of list scheduling. -/
def listingEvents (context : TraceContext) (name : Nat → String) (events : List ListingEvent) :
    List Event :=
  let spans := stageSpan "generate_schedule" [] :: context.spans
  events.map fun e => (e.event name).inside spans

/-- The events of a search for prefetches. -/
def prefetchEvents (context : TraceContext) (name : Nat → String) (found : List Prefetch)
    (complete : Bool) : List Event :=
  let spans := stageSpan "generate_prefetch_edges" [] :: context.spans
  let summary := if complete then [prefetchSummary found.length] else []
  (found.map (Prefetch.event name) ++ summary).map (·.inside spans)

/-- The span of a policy. -/
def OrderingPolicy.span : OrderingPolicy → Span
  | .none => stageSpan "none" []
  | .basic => stageSpan "insert_dependencies_basic" []
  | .basicNonCmx => stageSpan "insert_dependencies_basic_for_non_cmx_resources" []
  | .memoryAware => stageSpan "insert_memory_control_edges" []

/-- The events of a policy; the empty policy reports nothing. -/
def orderingEvents (context : TraceContext) (policy : OrderingPolicy) (inserted : Nat) :
    List Event :=
  if policy = .none then []
  else [(orderingSummary policy inserted).inside (policy.span :: context.spans)]

/-- The events of wiring. -/
def wiringEvents (context : TraceContext) (created kept : Nat) : List Event :=
  [(wiringSummary created kept).inside (stageSpan "wire" [] :: context.spans)]

/-- The events of one stage of a plan. -/
def StageReport.events (context : TraceContext) (name : Nat → String) (budget : Nat) :
    StageReport → List Event
  | .peak events => peakEvents (.stage "max_topological_cut") name budget events
  | .listing events => listingEvents (.stage "list_scheduling") name events
  | .prefetch found complete => prefetchEvents (.stage "prefetch") name found complete
  | .ordering policy inserted => orderingEvents (.stage "control_edges") policy inserted
  | .wiring created kept => wiringEvents (.stage "barriers") created kept
  | .finished plan => [plan.summary.inside context.spans]

/-- The events of the run of a plan. -/
def PlanRun.events (context : TraceContext) (settings : Settings) (run : PlanRun) : List Event :=
  let span := stageSpan "schedule" [("tasks", .number run.graph.size)]
  (run.reports.flatMap (·.events context run.graph.name settings.cmxSize)).map (·.inside [span])

end TaskLoom
