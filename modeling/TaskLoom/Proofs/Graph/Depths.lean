import Mathlib.Order.Bounds.Basic
import TaskLoom.Proofs.Graph.Levels

/-!
# Levels and paths

The equation for levels says that a task without predecessors is at level zero and any
other task one above the highest predecessor.  Following highest predecessors back gives a
path with as many edges as the level says, and no path is longer, because levels grow along
edges.

Levels can be kept in a table that has an entry for those tasks only that were already
reached.  Looking up a task that has no entry then fails.  Along a topological order this
never happens: every predecessor of a task was reached before the task.

## Main results

* `HasLevels.isGreatest` — the level of a task is the length of the longest path that ends
  at it.
* `WellFormed.levelTable_spec` — the table is filled without a failed look-up, and holds
  the levels.
-/

namespace TaskLoom.TaskGraph

variable {g : TaskGraph} {levels : Array Nat}

/-! ## Longest paths -/

/-- A path of so many edges ends at the task. -/
inductive PathTo (g : TaskGraph) : Nat → Nat → Prop where
  | here {v : Nat} (hv : v ∈ g.ids) : PathTo g 0 v
  | step {n u v : Nat} (hu : PathTo g n u) (huv : g.Joins u v) : PathTo g (n + 1) v

/-- The level of a task is zero, or one above that of some predecessor. -/
theorem levelAfter_eq_zero_or (levels : Array Nat) (predecessors : List Nat) :
    levelAfter levels predecessors = 0 ∨
      ∃ p ∈ predecessors, levelAfter levels predecessors = levels.getD p 0 + 1 := by
  have hrun : ∀ (ps : List Nat) (level : Nat),
      ps.foldl (fun level p => max level (levels.getD p 0 + 1)) level = level ∨
        ∃ p ∈ ps, ps.foldl (fun level p => max level (levels.getD p 0 + 1)) level =
          levels.getD p 0 + 1 := by
    intro ps
    induction ps with
    | nil => simp
    | cons p ps ih =>
      intro level
      rw [List.foldl_cons]
      rcases ih (max level (levels.getD p 0 + 1)) with hkept | ⟨q, hq, hlast⟩
      · rw [hkept]
        rcases Nat.le_total level (levels.getD p 0 + 1) with hle | hle
        · exact Or.inr ⟨p, List.mem_cons_self, Nat.max_eq_right hle⟩
        · exact Or.inl (Nat.max_eq_left hle)
      · exact Or.inr ⟨q, List.mem_cons_of_mem p hq, hlast⟩
  exact hrun predecessors 0

/-- No path to a task has more edges than its level says. -/
theorem HasLevels.le_of_pathTo (h : g.HasLevels levels) (hg : g.WellFormed) {n v : Nat}
    (hpath : g.PathTo n v) : n ≤ levels.getD v 0 := by
  induction hpath with
  | here hv => exact Nat.zero_le _
  | step _ huv ih => exact Nat.lt_of_le_of_lt ih (h.lt hg huv)

/-- Following highest predecessors back gives a path of as many edges as the level says. -/
theorem HasLevels.pathTo (h : g.HasLevels levels) (hg : g.WellFormed) {v : Nat}
    (hv : v ∈ g.ids) : g.PathTo (levels.getD v 0) v := by
  induction hlevel : levels.getD v 0 generalizing v with
  | zero => exact .here hv
  | succ n ih =>
    have hequation := h v hv
    rcases levelAfter_eq_zero_or levels (g.predecessorTable.getD v []) with hzero | ⟨u, hu, habove⟩
    · omega
    · have huv : g.Joins u v := (mem_predecessorTable (lt_size_of_mem_ids hv)).1 hu
      exact .step (ih (hg.joins_left huv) (by omega)) huv

/-- The level of a task is the length of the longest path that ends at it. -/
theorem HasLevels.isGreatest (h : g.HasLevels levels) (hg : g.WellFormed) {v : Nat}
    (hv : v ∈ g.ids) : IsGreatest {n | g.PathTo n v} (levels.getD v 0) :=
  ⟨h.pathTo hg hv, fun _ hpath => h.le_of_pathTo hg hpath⟩

/-! ## Levels in a table -/

/-- The level of a task when those of its predecessors are looked up in a table.  A
predecessor that has no entry has no level. -/
def levelFrom (table : Nat → Option Nat) (predecessors : List Nat) : Option Nat :=
  predecessors.foldlM (fun level p => (table p).map fun found => max level (found + 1)) 0

/-- Enters a task with its level. -/
def enterLevel (g : TaskGraph) (table : Nat → Option Nat) (v : Nat) : Option (Nat → Option Nat) :=
  (levelFrom table (g.predecessorTable.getD v [])).map fun level =>
    Function.update table v (some level)

/-- Enters all tasks in topological order. -/
def levelTable (g : TaskGraph) : Except ScheduleError (Option (Nat → Option Nat)) := do
  let order ← g.topologicalOrder
  return order.foldlM g.enterLevel fun _ => none

/-- The table that holds the levels of some tasks. -/
def tableOf (levels : Array Nat) (tasks : List Nat) (v : Nat) : Option Nat :=
  if v ∈ tasks then some (levels.getD v 0) else none

/-- With an entry for every predecessor, looking up gives the level. -/
theorem levelFrom_tableOf {tasks predecessors : List Nat} (h : ∀ p ∈ predecessors, p ∈ tasks) :
    levelFrom (tableOf levels tasks) predecessors = some (levelAfter levels predecessors) := by
  have hrun : ∀ (ps : List Nat) (level : Nat), (∀ p ∈ ps, p ∈ tasks) →
      ps.foldlM (fun level p => (tableOf levels tasks p).map fun found => max level (found + 1))
        level = some (ps.foldl (fun level p => max level (levels.getD p 0 + 1)) level) := by
    intro ps
    induction ps with
    | nil => simp
    | cons p ps ih =>
      intro level hmem
      obtain ⟨hp, hps⟩ := List.forall_mem_cons.1 hmem
      rw [List.foldlM_cons, List.foldl_cons, tableOf, if_pos hp]
      exact ih _ hps
  exact hrun predecessors 0 h

theorem update_tableOf (levels : Array Nat) (tasks : List Nat) (v : Nat) :
    Function.update (tableOf levels tasks) v (some (levels.getD v 0)) =
      tableOf levels (tasks ++ [v]) := by
  funext x
  by_cases hx : x = v
  · subst hx
    simp [tableOf]
  · simp [tableOf, hx]

/-- In an order the predecessors of a task stand before it. -/
theorem IsOrder.mem_before {done rest : List Nat} {u v : Nat}
    (horder : g.IsOrder (done ++ v :: rest)) (hg : g.WellFormed) (huv : g.Joins u v) :
    u ∈ done := by
  have hu : u ∈ done ++ v :: rest := horder.perm.mem_iff.2 (hg.joins_left huv)
  obtain ⟨-, hlater, -⟩ := List.pairwise_append.1 horder.pairwise
  rcases List.mem_append.1 hu with hu | hu
  · exact hu
  · rcases List.mem_cons.1 hu with rfl | hu
    · exact absurd (.single huv) (horder.acyclic u)
    · exact absurd huv ((List.pairwise_cons.1 hlater).1 u hu)

/-- Entering the rest of an order when the tasks before it have their levels. -/
theorem HasLevels.foldlM_enterLevel (h : g.HasLevels levels) (hg : g.WellFormed)
    (done rest : List Nat) (horder : g.IsOrder (done ++ rest)) :
    rest.foldlM g.enterLevel (tableOf levels done) = some (tableOf levels (done ++ rest)) := by
  induction rest generalizing done with
  | nil => simp
  | cons v rest ih =>
    have hv : v ∈ g.ids := horder.perm.mem_iff.1 (by simp)
    have hwaits : ∀ u ∈ g.predecessorTable.getD v [], u ∈ done := fun u hu =>
      horder.mem_before hg ((mem_predecessorTable (lt_size_of_mem_ids hv)).1 hu)
    have hnext : g.enterLevel (tableOf levels done) v = some (tableOf levels (done ++ [v])) := by
      rw [enterLevel, levelFrom_tableOf hwaits, ← h v hv, Option.map_some, update_tableOf]
    rw [List.append_cons] at horder ⊢
    rw [List.foldlM_cons, hnext]
    exact ih (done ++ [v]) horder

/-- The table of an acyclic graph is filled without a failed look-up.  It has an entry for
each task and no other, the level of the task. -/
theorem WellFormed.levelTable_spec (hg : g.WellFormed) (hac : g.Acyclic)
    (hlevels : g.HasLevels levels) : g.levelTable = .ok (some (tableOf levels g.ids)) := by
  obtain ⟨order, horder, hisOrder⟩ := hg.topologicalOrder_ok hac
  have hfill := hlevels.foldlM_enterLevel hg [] order hisOrder
  have hsame : tableOf levels order = tableOf levels g.ids := by
    funext v
    simp only [tableOf, hisOrder.perm.mem_iff]
  unfold levelTable
  rw [horder, ← hsame]
  exact congrArg Except.ok hfill

end TaskLoom.TaskGraph
