import TaskLoom.Word

/-!
# Tasks

A task is one unit of hardware work.  It has buffers in on-chip scratch memory
(CMX) or in main memory (DDR) and, depending on its kind, posts a barrier when
it completes.  The scheduler writes its decisions on the task.
-/

namespace TaskLoom

/-- The memory that a buffer lives in. -/
inductive MemorySpace where
  /-- On-chip scratch memory, the constrained resource. -/
  | cmx
  | ddr
deriving DecidableEq, Repr

/-- Memory that a task reads or writes while it runs. -/
structure Buffer where
  name : String
  size : Nat
  space : MemorySpace
  /-- A placement fixed by whoever built the task. -/
  offset : Option Nat := none
deriving DecidableEq, Repr

/-- The hardware unit that runs a task. -/
inductive TaskKind where
  /-- Compute work split into variants. -/
  | compute (variants : Nat)
  /-- A memory transfer. -/
  | dma
  /-- A software kernel. -/
  | software
  /-- An ordering marker without work. -/
  | control
deriving DecidableEq, Repr

/-- Producer slots that a task of this kind takes on the barrier it posts. -/
def TaskKind.demand : TaskKind → Nat
  | .compute variants => max variants 1
  | .dma => 1
  | .software => 1
  | .control => 0

/-- A task with the decisions that were made about it. -/
structure Task where
  name : String
  kind : TaskKind
  buffers : List Buffer := []
  /-- The time step in which it runs. -/
  time : Option Nat := none
  /-- Its position in the order of issue. -/
  number : Option Nat := none
  /-- Virtual barriers that it waits for. -/
  waits : List Nat := []
  /-- Virtual barriers that it posts. -/
  updates : List Nat := []
deriving DecidableEq, Repr

namespace Task

/-- The reading of a vacant id: a nameless marker, which needs nothing. -/
def vacant : Task where
  name := ""
  kind := .control

/-- Adds a buffer after the others. -/
def addBuffer (t : Task) (b : Buffer) : Task :=
  { t with buffers := t.buffers ++ [b] }

/-- Adds a scratch buffer named after the task. -/
def addCmx (t : Task) (size : Nat) : Task :=
  let position := t.buffers.length
  t.addBuffer { name := t.name ++ ".cmx" ++ toString position, size, space := .cmx }

/-- Adds a main-memory buffer named after the task. -/
def addDdr (t : Task) (size : Nat) : Task :=
  let position := t.buffers.length
  t.addBuffer { name := t.name ++ ".ddr" ++ toString position, size, space := .ddr }

/-- The sizes of the buffers in one memory. -/
def sizesIn (t : Task) (space : MemorySpace) : List Nat :=
  (t.buffers.filter (·.space == space)).map (·.size)

/-- The bytes a task needs in one memory. -/
def footprint (t : Task) (space : MemorySpace) : Except Fault Nat :=
  Word.sum (t.sizesIn space)

/-- The bytes a task needs in scratch memory. -/
def cmxFootprint (t : Task) : Except Fault Nat :=
  t.footprint .cmx

/-- Whether a task has a buffer in one memory. -/
def touches (t : Task) (space : MemorySpace) : Bool :=
  t.buffers.any (·.space == space)

/-- Producer slots that the task takes on its barrier. -/
def demand (t : Task) : Nat :=
  t.kind.demand

/-- The scratch buffers of a task as positions and sizes, large ones first and
equal ones by position: the order in which memory is reserved for them. -/
def requests (t : Task) : List (Nat × Nat) :=
  let scratch := t.buffers.zipIdx.filterMap fun (b, i) =>
    if b.space = .cmx then some (i, b.size) else none
  scratch.mergeSort fun (i, a) (j, b) => b < a || (a == b && i ≤ j)

end Task

end TaskLoom
