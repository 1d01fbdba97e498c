import TaskLoom.Plan

/-!
# Synthetic workloads

Graphs of a few typical shapes, to compare schedules of growing size, and the
figures by which schedules are compared.
-/

namespace TaskLoom

/-- A shape of graphs. -/
inductive Workload where
  /-- Load, compute and store in turn, each after the one before. -/
  | chain
  /-- Stages of `width` independent compute tasks between ordering markers. -/
  | fanOut (width : Nat)
  /-- Blocks of two compute tasks, their sum with the block's input, and a
  transfer of weights that may run early. -/
  | residual
deriving DecidableEq, Repr

namespace Workload

/-- Bytes in a kilobyte. -/
def kb : Nat := 1024

/-- The name of a shape. -/
def name : Workload → String
  | .chain => "chain"
  | .fanOut _ => "fan_out"
  | .residual => "residual"

/-- The settings under which a shape is scheduled. -/
def settings : Workload → Settings
  | .chain => {}
  | .fanOut _ => { cmxSize := 384 * kb }
  | .residual => { cmxSize := 512 * kb }

/-- A quotient rounded up. -/
def quotientUp (a b : Nat) : Nat :=
  (a + b - 1) / b

/-- Adds a task after others, and tells its id. -/
def addAfter (g : TaskGraph) (t : Task) (sources : List Nat) : Except Fault (Nat × TaskGraph) := do
  let (id, g) := g.addTask t
  match g.addDependencies id sources with
  | .failed fault _ => .error fault
  | .done () g => return (id, g)

/-! ## Chain -/

/-- The task at a position of the chain. -/
def chainTask (i : Nat) : Task :=
  let number := toString i
  match i % 3 with
  | 0 => (Task.addDdr { name := "load" ++ number, kind := .dma } (16 * kb)).addCmx (16 * kb)
  | 1 => Task.addCmx { name := "conv" ++ number, kind := .compute 4 } (48 * kb)
  | _ => (Task.addCmx { name := "store" ++ number, kind := .dma } (16 * kb)).addDdr (16 * kb)

/-- Adds tasks to the end of a chain. -/
def buildChain : List Nat → (last : List Nat) → TaskGraph → Except Fault TaskGraph
  | [], _, g => .ok g
  | i :: rest, last, g => do
    let (id, g) ← addAfter g (chainTask i) last
    buildChain rest [id] g

/-! ## Fan-out -/

/-- Adds branches after a marker and tells their ids. -/
def buildBranches (stage marker : Nat) :
    List Nat → TaskGraph → Except Fault (List Nat × TaskGraph)
  | [], g => .ok ([], g)
  | b :: rest, g => do
    let branch := "s" ++ toString stage ++ "b" ++ toString b
    let (id, g) ← addAfter g (Task.addCmx { name := branch, kind := .compute 2 } (96 * kb)) [marker]
    let (ids, g) ← buildBranches stage marker rest g
    return (id :: ids, g)

/-- Adds stages after a marker. -/
def buildStages (width : Nat) : List Nat → (marker : Nat) → TaskGraph → Except Fault TaskGraph
  | [], _, g => .ok g
  | stage :: rest, marker, g => do
    let (branches, g) ← buildBranches stage marker (List.range width) g
    let (marker, g) ←
      addAfter g { name := "sync" ++ toString (stage + 1), kind := .control } branches
    buildStages width rest marker g

/-! ## Residual blocks -/

/-- Adds blocks after an input. -/
def buildBlocks : List Nat → (input : Nat) → TaskGraph → Except Fault TaskGraph
  | [], _, g => .ok g
  | block :: rest, input, g => do
    let number := toString block
    let weights := (Task.addDdr { name := "w" ++ number, kind := .dma } (32 * kb)).addCmx (32 * kb)
    let (weights, g) ← addAfter g weights []
    let first := Task.addCmx { name := "conv" ++ number ++ "a", kind := .compute 4 } (128 * kb)
    let (first, g) ← addAfter g first [input, weights]
    let second := Task.addCmx { name := "conv" ++ number ++ "b", kind := .compute 4 } (128 * kb)
    let (second, g) ← addAfter g second [first]
    let sum := Task.addCmx { name := "add" ++ number, kind := .compute 1 } (64 * kb)
    let (sum, g) ← addAfter g sum [input, second]
    buildBlocks rest sum g

/-! ## All shapes -/

/-- The graph of a shape with about `size` tasks. -/
def build : Workload → (size : Nat) → Except Fault TaskGraph
  | .chain, size => buildChain (List.range size) [] .empty
  | .fanOut width, size => do
    let perStage ← Word.add width 1
    let (marker, g) := TaskGraph.empty.addTask { name := "sync0", kind := .control }
    buildStages width (List.range (quotientUp size perStage)) marker g
  | .residual, size => do
    let input := (Task.addDdr { name := "input", kind := .dma } (64 * kb)).addCmx (64 * kb)
    let (input, g) := TaskGraph.empty.addTask input
    buildBlocks (List.range (quotientUp size 4)) input g

end Workload

/-! ## The catalogue -/

/-- An entry of the catalogue of shapes. -/
structure CatalogueEntry where
  name : String
  /-- Named sizes. -/
  sizes : List (String × Nat)
  settings : Settings

/-- The sizes at which every shape is measured. -/
def standardSizes : List (String × Nat) :=
  [("32", 32), ("128", 128), ("512", 512)]

/-- A shape at the standard sizes. -/
def Workload.entry (w : Workload) : CatalogueEntry :=
  ⟨w.name, standardSizes, w.settings⟩

/-- All shapes that are measured.  The graphs of the last one are drawn at random,
so it has no shape of its own here. -/
def catalogue : List CatalogueEntry :=
  [Workload.chain.entry, (Workload.fanOut 8).entry, Workload.residual.entry,
    ⟨"random_dag", standardSizes, {}⟩]

/-! ## Figures -/

/-- The figures of a schedule. -/
structure Metrics where
  tasks : Nat
  makespan : Nat
  barriers : Nat
  serialisationEdges : Nat
  orderingEdges : Nat
  peakCmx : Nat
deriving DecidableEq, Repr

/-- The average number of tasks per time step, zero without time steps. -/
def Metrics.parallelism (m : Metrics) : Float :=
  if m.makespan = 0 then 0.0
  else m.tasks.toUInt64.toFloat / m.makespan.toUInt64.toFloat

end TaskLoom
