import TaskLoom.Word

/-!
# Byte ranges

A `ByteRange` is the half-open range `[start, stop)` of addresses.  An
`Interval` is the range that one buffer of a task occupies in scratch memory.
-/

namespace TaskLoom

/-- The addresses from `start` up to, not including, `stop`. -/
structure ByteRange where
  start : Nat
  stop : Nat
deriving DecidableEq, Repr, Inhabited

/-- The number of bytes of a range that ends after it starts. -/
def ByteRange.length (r : ByteRange) : Nat :=
  r.stop - r.start

/-- Membership of an address. -/
def ByteRange.Contains (r : ByteRange) (x : Nat) : Prop :=
  r.start ≤ x ∧ x < r.stop

/-- The scratch memory that a buffer of a task occupies while the task runs. -/
structure Interval where
  /-- Position of the buffer in the task's list of buffers. -/
  buffer : Nat
  start : Nat
  stop : Nat
deriving DecidableEq, Repr

namespace Interval

/-- The addresses of the interval. -/
def range (i : Interval) : ByteRange :=
  ⟨i.start, i.stop⟩

/-- The number of bytes; an interval that stops before it starts has none. -/
def length (i : Interval) : Except Fault Nat :=
  Word.sub i.stop i.start

/-- Whether the interval starts where it stops. -/
def isEmpty (i : Interval) : Bool :=
  i.start == i.stop

/-- Whether two intervals share an address. -/
def overlaps (i j : Interval) : Bool :=
  i.start < j.stop && j.start < i.stop

end Interval

end TaskLoom
