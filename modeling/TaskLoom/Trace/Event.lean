/-!
# Diagnostic events

An event has a level, a target that names the part of the program it comes from,
a message and fields.  It is reported inside spans, which say what was going on
around it.  Who follows a run chooses a level: events and spans of that level and
of the less detailed ones are visible.
-/

namespace TaskLoom

/-- How detailed an event is. -/
inductive TraceLevel where
  | info
  | debug
  | trace
deriving DecidableEq, Repr

/-- How a level is written. -/
def TraceLevel.label : TraceLevel → String
  | .info => "INFO"
  | .debug => "DEBUG"
  | .trace => "TRACE"

/-- Greater for more detailed levels. -/
def TraceLevel.detail : TraceLevel → Nat
  | .info => 0
  | .debug => 1
  | .trace => 2

/-- Whether a follower at this level sees another level. -/
def TraceLevel.shows (follower level : TraceLevel) : Bool :=
  level.detail ≤ follower.detail

/-- The value of a field. -/
inductive FieldValue where
  | number (n : Nat)
  | text (s : String)
deriving DecidableEq, Repr

/-- Named values, in order. -/
abbrev Fields := List (String × FieldValue)

/-- Something that goes on for a while. -/
structure Span where
  level : TraceLevel
  name : String
  fields : Fields
deriving DecidableEq, Repr

/-- Something that happened. -/
structure Event where
  level : TraceLevel
  target : String
  message : String
  fields : Fields
  /-- What went on around it, outermost first. -/
  spans : List Span := []
deriving DecidableEq, Repr

namespace Event

/-- Puts spans around an event. -/
def inside (spans : List Span) (e : Event) : Event :=
  { e with spans := spans ++ e.spans }

/-- What a follower sees of the events: those of its levels, in the spans of its
levels. -/
def visible (follower : TraceLevel) (events : List Event) : List Event :=
  (events.filter (follower.shows ·.level)).map fun e =>
    { e with spans := e.spans.filter (follower.shows ·.level) }

end Event

/-- The context a caller gives to a run, under which its events are reported. -/
inductive TraceContext where
  /-- No span of its own. -/
  | disabled
  /-- A named run. -/
  | run (name : String)
  /-- A stage of a run. -/
  | stage (name : String)
deriving DecidableEq, Repr

/-- The context of a caller that gives no name. -/
def TraceContext.unnamed : TraceContext := .run "vpusched"

/-- The spans of a context. -/
def TraceContext.spans : TraceContext → List Span
  | .disabled => []
  | .run name => [⟨.info, "schedule", [("run", .text name)]⟩]
  | .stage name => [⟨.debug, "stage", [("stage", .text name)]⟩]

end TaskLoom
