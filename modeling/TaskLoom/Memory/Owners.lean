import TaskLoom.Memory.Range

/-!
# Who used which bytes last

`Owners` remembers, for every byte of scratch memory that was ever claimed, the
task that claimed it last, as disjoint segments in ascending order.
-/

namespace TaskLoom

/-- Bytes that one task claimed last. -/
structure Segment where
  start : Nat
  stop : Nat
  owner : Nat
deriving DecidableEq, Repr

/-- The segments, ascending. -/
structure Owners where
  segments : List Segment
deriving DecidableEq, Repr

namespace Owners

/-- No byte has an owner. -/
def empty : Owners := ⟨[]⟩

/-- The owners of the segments that reach into an interval, in ascending order of
address. -/
def of (o : Owners) (i : Interval) : List Nat :=
  (o.segments.filter fun s => s.start < i.stop && i.start < s.stop).map (·.owner)

/-- What is left of a segment outside an interval. -/
def outside (i : Interval) (s : Segment) : List Segment :=
  if s.stop ≤ i.start ∨ i.stop ≤ s.start then [s]
  else
    (if s.start < i.start then [⟨s.start, i.start, s.owner⟩] else []) ++
      (if i.stop < s.stop then [⟨i.stop, s.stop, s.owner⟩] else [])

/-- Makes a task the owner of all bytes of an interval. -/
def claim (o : Owners) (i : Interval) (task : Nat) : Owners :=
  let segments := o.segments.flatMap (outside i) ++ [⟨i.start, i.stop, task⟩]
  ⟨segments.mergeSort (·.start ≤ ·.start)⟩

end Owners

end TaskLoom
