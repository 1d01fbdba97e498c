import TaskLoom.Json.Value
import TaskLoom.Settings
import TaskLoom.Word

/-!
# Settings as JSON text

Settings are written as an object with a field per setting.  They are read from
such an object, in which fields may be missing, stand in any order and be mixed
with fields that are not settings, or from an array of the values in the order
in which they are written, which may end early.  What is missing takes its
default.  A setting that is given twice is refused, and so is an array with more
values than settings.

Numbers must be plain digits and fit a word.
-/

namespace TaskLoom

namespace Json

/-- The value of a field that may be missing but not repeated. -/
def single (fields : List (Option String × Json)) (name : String) : Option (Option Json) :=
  match fields.filter (·.1 == some name) with
  | [] => some none
  | [(_, json)] => some (some json)
  | _ => none

/-- The values of a record with the given field names, in the order of the names,
`none` where one is missing. -/
def record (names : List String) : Json → Option (List (Option Json))
  | .object fields =>
    if fields.all (·.1.isSome) then names.mapM (single fields) else none
  | .array items =>
    if items.length ≤ names.length then some (names.zipIdx.map fun (_, i) => items[i]?) else none
  | _ => none

/-- A number below the word bound, written as plain digits. -/
def word : Json → Option Nat
  | .numeral (.natural n) => if n < Word.bound then some n else none
  | _ => none

/-- The value of a field, or its default if it is missing. -/
def orDefault {α : Type} (read : Json → Option α) (default : α) : Option Json → Option α
  | none => some default
  | some json => read json

end Json

/-! ## Reading -/

/-- The policy of a name. -/
def OrderingPolicy.ofName : String → Option OrderingPolicy
  | "none" => some .none
  | "basic" => some .basic
  | "basic_non_cmx" => some .basicNonCmx
  | "memory_aware" => some .memoryAware
  | _ => Option.none

/-- A policy is its name, or an object with the name as its only key and nothing
under it. -/
def OrderingPolicy.ofJson : Json → Option OrderingPolicy
  | .string (some name) => OrderingPolicy.ofName name
  | .object [(some name, .null)] => OrderingPolicy.ofName name
  | _ => Option.none

/-- The names of the prefetch limits, in order. -/
def PrefetchLimits.fieldNames : List String :=
  ["const_levels", "activation_levels", "time_window"]

/-- Reads prefetch limits. -/
def PrefetchLimits.ofJson (json : Json) : Option PrefetchLimits :=
  match json.record PrefetchLimits.fieldNames with
  | some [constLevels, activationLevels, timeWindow] => do
    let initial : PrefetchLimits := {}
    return {
      constLevels := ← Json.orDefault Json.word initial.constLevels constLevels
      activationLevels := ← Json.orDefault Json.word initial.activationLevels activationLevels
      timeWindow := ← Json.orDefault Json.word initial.timeWindow timeWindow }
  | _ => none

/-- Reads prefetch limits that may be turned off. -/
def PrefetchLimits.ofJson? : Json → Option (Option PrefetchLimits)
  | .null => some none
  | json => (PrefetchLimits.ofJson json).map some

/-- The names of the settings, in order. -/
def Settings.fieldNames : List String :=
  ["cmx_size", "barrier_count", "max_producer_slots_per_barrier", "alignment", "control_edges",
    "prefetch"]

/-- Reads settings. -/
def Settings.ofJson (json : Json) : Option Settings :=
  match json.record Settings.fieldNames with
  | some [cmxSize, barrierCount, slotsPerBarrier, alignment, ordering, prefetch] => do
    let initial : Settings := {}
    return {
      cmxSize := ← Json.orDefault Json.word initial.cmxSize cmxSize
      barrierCount := ← Json.orDefault Json.word initial.barrierCount barrierCount
      slotsPerBarrier := ← Json.orDefault Json.word initial.slotsPerBarrier slotsPerBarrier
      alignment := ← Json.orDefault Json.word initial.alignment alignment
      ordering := ← Json.orDefault OrderingPolicy.ofJson initial.ordering ordering
      prefetch := ← Json.orDefault PrefetchLimits.ofJson? initial.prefetch prefetch }
  | _ => none

/-- Reads settings from text. -/
def Settings.parse (text : String) : Option Settings :=
  (Json.parse text).bind Settings.ofJson

/-! ## Writing -/

/-- The name of a policy. -/
def OrderingPolicy.name : OrderingPolicy → String
  | .none => "none"
  | .basic => "basic"
  | .basicNonCmx => "basic_non_cmx"
  | .memoryAware => "memory_aware"

/-- A plain number. -/
def Json.ofNat (n : Nat) : Json :=
  .numeral (.natural n)

/-- Prefetch limits as an object. -/
def PrefetchLimits.toJson (limits : PrefetchLimits) : Json :=
  .object [
    (some "const_levels", .ofNat limits.constLevels),
    (some "activation_levels", .ofNat limits.activationLevels),
    (some "time_window", .ofNat limits.timeWindow)]

/-- Settings as an object. -/
def Settings.toJson (s : Settings) : Json :=
  .object [
    (some "cmx_size", .ofNat s.cmxSize),
    (some "barrier_count", .ofNat s.barrierCount),
    (some "max_producer_slots_per_barrier", .ofNat s.slotsPerBarrier),
    (some "alignment", .ofNat s.alignment),
    (some "control_edges", .string (some s.ordering.name)),
    (some "prefetch", s.prefetch.elim .null PrefetchLimits.toJson)]

/-- Settings as text. -/
def Settings.text (s : Settings) : String :=
  String.ofList s.toJson.print

end TaskLoom
