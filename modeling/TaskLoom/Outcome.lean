import TaskLoom.Fault

/-!
# Computations that keep their state when they fail

Some operations work in several steps on a state that others can look at.  When
a later step fails, what the earlier steps did stays.  `Outcome` is what such an
operation leaves behind: a value or the fault that stopped it, and the state in
both cases.
-/

namespace TaskLoom

/-- What a computation over a state `σ` leaves behind. -/
inductive Outcome (σ α : Type) where
  /-- It ended with a value. -/
  | done (value : α) (state : σ)
  /-- It was stopped; the state is the one it had reached. -/
  | failed (fault : Fault) (state : σ)
deriving Repr

namespace Outcome

variable {σ α : Type}

/-- The state that was reached. -/
def state : Outcome σ α → σ
  | .done _ s => s
  | .failed _ s => s

/-- The value or the fault. -/
def result : Outcome σ α → Except Fault α
  | .done a _ => .ok a
  | .failed f _ => .error f

/-- An outcome that leaves the state as it was when there is a fault. -/
def ofExcept (s : σ) : Except Fault (α × σ) → Outcome σ α
  | .ok (a, s') => .done a s'
  | .error f => .failed f s

@[simp]
theorem state_done (a : α) (s : σ) : (done a s).state = s := rfl

@[simp]
theorem state_failed (f : Fault) (s : σ) : (failed f s : Outcome σ α).state = s := rfl

@[simp]
theorem result_done (a : α) (s : σ) : (done a s).result = .ok a := rfl

@[simp]
theorem result_failed (f : Fault) (s : σ) : (failed f s : Outcome σ α).result = .error f := rfl

end Outcome

end TaskLoom
