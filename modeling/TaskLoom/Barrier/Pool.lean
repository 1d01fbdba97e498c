import TaskLoom.Word

/-!
# A pool of hardware barriers

Every barrier of the pool has the same number of producer slots.  A task takes
all the slots it needs from one barrier and returns them when it is done.

What a barrier has free is its `Vacancy`.  The pool answers "which barrier should
serve this demand" from a ranking of the vacancies: by free slots first, then
untouched barriers before used ones, then by id.  A table gives the vacancy of
each barrier.  Both are part of the state, and `update` is the only operation
that changes them.
-/

namespace TaskLoom

/-- A hardware barrier, counted from one. -/
structure BarrierId where
  number : Nat
deriving DecidableEq, Repr

namespace BarrierId

/-- The answer when no barrier can serve a demand. -/
def invalid : BarrierId := ⟨Word.bound - 1⟩

/-- Whether the id names a barrier at all. -/
def isValid (b : BarrierId) : Bool :=
  b ≠ invalid

/-- How a barrier is written. -/
def label (b : BarrierId) : String :=
  if b.isValid then "b" ++ toString b.number else "b<invalid>"

end BarrierId

/-- What a barrier has free, and with it the place of the barrier in the ranking. -/
structure Vacancy where
  available : Nat
  inUse : Bool
  barrier : Nat
deriving DecidableEq, Repr

/-- Fewer free slots come first, then untouched barriers, then lower ids. -/
def Vacancy.before (a b : Vacancy) : Bool :=
  a.available < b.available ||
    (a.available == b.available &&
      ((!a.inUse && b.inUse) || (a.inUse == b.inUse && a.barrier < b.barrier)))

/-- The producer slots of a fixed number of barriers. -/
structure BarrierPool where
  /-- All vacancies, ranked. -/
  ranking : List Vacancy
  /-- The vacancy of barrier `i + 1` at position `i`. -/
  vacancies : List Vacancy
  /-- Slots of one barrier. -/
  maxSlots : Nat
deriving DecidableEq, Repr

namespace BarrierPool

/-- A pool with every slot free.  The table of vacancies has an entry for each barrier, and
whether there is storage for so many is not looked at: a pool of any size can be made. -/
def create (count slots : Nat) : Except Fault BarrierPool :=
  if count = 0 ∨ slots = 0 then
    .error (.refused (.invalidSettings (.emptyPool count slots)))
  else
    let vacancies := (List.range count).map fun i => ⟨slots, false, i + 1⟩
    .ok { ranking := vacancies, vacancies, maxSlots := slots }

/-- The number of barriers. -/
def count (p : BarrierPool) : Nat :=
  p.vacancies.length

/-- Whether the pool has this barrier. -/
def has (p : BarrierPool) (b : BarrierId) : Bool :=
  1 ≤ b.number && b.number ≤ p.count

/-- The vacancy of a barrier of the pool. -/
def vacancy (p : BarrierPool) (b : BarrierId) : Except Fault Vacancy :=
  match b.number with
  | 0 => .error (.broken (.unknownBarrier b.label p.count))
  | i + 1 =>
    match p.vacancies[i]? with
    | some k => .ok k
    | none => .error (.broken (.unknownBarrier b.label p.count))

/-- Free slots of a barrier. -/
def available (p : BarrierPool) (b : BarrierId) : Except Fault Nat :=
  (p.vacancy b).map (·.available)

/-- Whether a barrier has slots taken. -/
def inUse (p : BarrierPool) (b : BarrierId) : Except Fault Bool :=
  (p.vacancy b).map (·.inUse)

/-! ## Choosing a barrier -/

/-- The barrier that should serve a demand: of those with enough free slots the
first in the ranking, passed over for the first untouched one if it is
itself in use and there is one. -/
def pick (p : BarrierPool) (demand : Nat) : Option BarrierId :=
  match p.ranking.dropWhile (·.available < demand) with
  | [] => none
  | first :: later =>
    if first.inUse then
      some ⟨((later.find? (!·.inUse)).getD first).barrier⟩
    else
      some ⟨first.barrier⟩

/-- Whether some barrier has enough free slots. -/
def hasRoom (p : BarrierPool) (demand : Nat) : Bool :=
  (p.pick demand).isSome

/-! ## Changing a barrier -/

/-- Puts a vacancy in its place in the ranking. -/
def place (k : Vacancy) : List Vacancy → List Vacancy
  | [] => [k]
  | k' :: rest =>
    if k.before k' then k :: k' :: rest
    else if k = k' then k' :: rest
    else k' :: place k rest

/-- Gives a barrier another number of free slots, and tells whether its former
vacancy was in the ranking. -/
def update (p : BarrierPool) (b : BarrierId) (available : Nat) :
    Except Fault (Bool × BarrierPool) := do
  let old ← p.vacancy b
  let new : Vacancy := ⟨available, decide (available < p.maxSlots), b.number⟩
  return (p.ranking.contains old,
    { p with
      ranking := place new (p.ranking.erase old)
      vacancies := p.vacancies.set (b.number - 1) new })

/-- Takes slots from one barrier. -/
def assignTo (p : BarrierPool) (b : BarrierId) (demand : Nat) :
    Except Fault (Bool × BarrierPool) := do
  let k ← p.vacancy b
  if demand ≤ k.available then
    p.update b (k.available - demand)
  else
    .error (.broken (.slotsTaken b.label k.available demand))

/-- Returns slots to one barrier. -/
def unassign (p : BarrierPool) (b : BarrierId) (demand : Nat) :
    Except Fault (Bool × BarrierPool) := do
  let k ← p.vacancy b
  let restored ← Word.add k.available demand
  if restored ≤ p.maxSlots then
    p.update b restored
  else
    .error (.broken (.slotsExceeded b.label restored p.maxSlots))

/-- Takes slots from the preferred barrier and names it, or names none and leaves
the pool alone. -/
def assign (p : BarrierPool) (demand : Nat) : Except Fault (BarrierId × BarrierPool) :=
  match p.pick demand with
  | some b => do
    let (_, p) ← p.assignTo b demand
    return (b, p)
  | none => .ok (.invalid, p)

end BarrierPool

end TaskLoom
