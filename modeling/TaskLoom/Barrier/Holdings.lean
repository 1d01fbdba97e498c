import TaskLoom.Barrier.Pool

/-!
# The barrier slots that tasks hold

`Holdings` remembers on which barrier each running task produces and how many
slots it took, so that the same slots go back to the same barrier.
-/

namespace TaskLoom

/-- The slots that a task holds on its barrier. -/
structure Holding where
  barrier : BarrierId
  slots : Nat
deriving DecidableEq, Repr

/-- A barrier pool together with who holds what. -/
structure Holdings where
  pool : BarrierPool
  /-- At most one holding per task. -/
  held : List (Nat × Holding)
deriving DecidableEq, Repr

namespace Holdings

/-- A fresh pool that nobody uses. -/
def create (count slots : Nat) : Except Fault Holdings := do
  return { pool := ← BarrierPool.create count slots, held := [] }

/-- What a task holds. -/
def find? (h : Holdings) (task : Nat) : Option Holding :=
  (h.held.find? (·.1 == task)).map (·.2)

/-- Whether some barrier has enough free slots. -/
def hasRoom (h : Holdings) (demand : Nat) : Bool :=
  h.pool.hasRoom demand

/-- Reserves slots for a task.  Refused, with nothing changed, if the task holds
some already or no barrier has room. -/
def acquire (h : Holdings) (task demand : Nat) : Except Fault (Bool × Holdings) :=
  if (h.find? task).isSome then
    .ok (false, h)
  else do
    let (barrier, pool) ← h.pool.assign demand
    if barrier.isValid then
      return (true, { pool, held := (task, ⟨barrier, demand⟩) :: h.held })
    else
      return (false, h)

/-- Returns the slots of a task; refused if it holds none. -/
def release (h : Holdings) (task : Nat) : Except Fault (Bool × Holdings) :=
  match h.find? task with
  | none => .ok (false, h)
  | some holding => do
    let (returned, pool) ← h.pool.unassign holding.barrier holding.slots
    return (returned, { pool, held := h.held.filter (·.1 != task) })

end Holdings

end TaskLoom
