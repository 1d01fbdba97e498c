import TaskLoom.Proofs.Graph.Order

/-!
# Levels

The levels of a graph are filled in along its topological order, so every predecessor
of a task has its level when the task is reached, and keeps it.  The finished levels
therefore satisfy the equation by which they were computed: the level of a task is one
more than the highest of its predecessors.  In particular levels grow along edges.

## Main results

* `levels_spec` — an acyclic graph has levels, and they satisfy their equation.
* `HasLevels.lt` — levels grow along edges.
-/

namespace TaskLoom.TaskGraph

variable {g : TaskGraph} {levels : Array Nat}

/-! ## One task -/

/-- A task is above all its predecessors. -/
theorem lt_levelAfter {u : Nat} {predecessors : List Nat} (hu : u ∈ predecessors) :
    levels.getD u 0 < levelAfter levels predecessors := by
  have hrun : ∀ (ps : List Nat) (level : Nat),
      level ≤ ps.foldl (fun level p => max level (levels.getD p 0 + 1)) level ∧
        ∀ p ∈ ps,
          levels.getD p 0 < ps.foldl (fun level p => max level (levels.getD p 0 + 1)) level := by
    intro ps
    induction ps with
    | nil => simp
    | cons p ps ih =>
      intro level
      obtain ⟨hle, hall⟩ := ih (max level (levels.getD p 0 + 1))
      rw [List.foldl_cons]
      refine ⟨Nat.le_trans (Nat.le_max_left _ _) hle, List.forall_mem_cons.2 ⟨?_, hall⟩⟩
      exact Nat.lt_of_lt_of_le (Nat.lt_succ_self _) (Nat.le_trans (Nat.le_max_right _ _) hle)
  exact (hrun predecessors 0).2 u hu

/-- The level of a task depends on the levels of its predecessors only. -/
theorem levelAfter_congr {levels' : Array Nat} {predecessors : List Nat}
    (h : ∀ u ∈ predecessors, levels'.getD u 0 = levels.getD u 0) :
    levelAfter levels' predecessors = levelAfter levels predecessors := by
  unfold levelAfter
  refine List.foldl_ext _ _ _ fun level u hu => ?_
  rw [h u hu]

/-! ## All tasks -/

/-- Fills in the level of one task. -/
def fillLevel (table : Array (List Nat)) (levels : Array Nat) (v : Nat) : Array Nat :=
  levels.setIfInBounds v (levelAfter levels (table.getD v []))

theorem getD_fillLevel (table : Array (List Nat)) {v : Nat} (hv : v < levels.size) (x : Nat) :
    (fillLevel table levels v).getD x 0 =
      if x = v then levelAfter levels (table.getD v []) else levels.getD x 0 := by
  unfold fillLevel
  by_cases heq : x = v
  · subst heq
    simp [hv]
  · simp [heq, Ne.symm heq]

theorem size_fillLevel (table : Array (List Nat)) (v : Nat) :
    (fillLevel table levels v).size = levels.size :=
  Array.size_setIfInBounds

/-- Levels that are filled in along a list in which no task waits for itself or for a
later one satisfy their equation, and the other levels stay. -/
theorem foldl_fillLevel_spec (table : Array (List Nat)) (levels : Array Nat) {order : List Nat}
    (hforward : order.Pairwise fun v w => w ∉ table.getD v [])
    (hself : ∀ v ∈ order, v ∉ table.getD v []) (hnodup : order.Nodup)
    (hsize : ∀ v ∈ order, v < levels.size) :
    (∀ v ∈ order, (order.foldl (fillLevel table) levels).getD v 0 =
      levelAfter (order.foldl (fillLevel table) levels) (table.getD v [])) ∧
    ∀ x, x ∉ order → (order.foldl (fillLevel table) levels).getD x 0 = levels.getD x 0 := by
  induction order generalizing levels with
  | nil => simp
  | cons v order ih =>
    obtain ⟨hlater, hforward⟩ := List.pairwise_cons.1 hforward
    obtain ⟨hself_v, hself⟩ := List.forall_mem_cons.1 hself
    obtain ⟨hnot, hnodup⟩ := List.nodup_cons.1 hnodup
    obtain ⟨hv, hsize⟩ := List.forall_mem_cons.1 hsize
    have hfill := getD_fillLevel table hv
    obtain ⟨hrest, hkept⟩ := ih (fillLevel table levels v) hforward hself hnodup
      (by rwa [size_fillLevel])
    rw [List.foldl_cons]
    refine ⟨List.forall_mem_cons.2 ⟨?_, hrest⟩, ?_⟩
    · -- the predecessors of `v` are neither `v` nor later, so their levels stay
      rw [hkept v hnot, hfill, if_pos rfl]
      refine levelAfter_congr fun u hu => ?_
      have hu_ne : u ≠ v := fun heq => hself_v (heq ▸ hu)
      rw [hkept u fun hmem => hlater u hmem hu, hfill, if_neg hu_ne]
    · intro x hx
      rw [List.mem_cons, not_or] at hx
      rw [hkept x hx.2, hfill, if_neg hx.1]

/-- The level of every task is one more than the highest of its predecessors. -/
def HasLevels (g : TaskGraph) (levels : Array Nat) : Prop :=
  ∀ v ∈ g.ids, levels.getD v 0 = levelAfter levels (g.predecessorTable.getD v [])

/-- Levels grow along edges. -/
theorem HasLevels.lt (h : g.HasLevels levels) (hg : g.WellFormed) {u v : Nat}
    (huv : g.Joins u v) : levels.getD u 0 < levels.getD v 0 := by
  have hv := hg.joins_right huv
  rw [h v hv]
  exact lt_levelAfter ((mem_predecessorTable (lt_size_of_mem_ids hv)).2 huv)

/-- An acyclic graph has levels, and they satisfy their equation. -/
theorem WellFormed.levels_spec (hg : g.WellFormed) (hac : g.Acyclic) :
    ∃ levels, g.levels = .ok levels ∧ g.HasLevels levels := by
  obtain ⟨order, horder, hisOrder⟩ := hg.topologicalOrder_ok hac
  have hmem : ∀ v ∈ order, v ∈ g.ids := fun v hv => hisOrder.perm.mem_iff.1 hv
  have hwaits : ∀ v ∈ order, ∀ w, w ∈ g.predecessorTable.getD v [] ↔ g.Joins w v :=
    fun v hv w => mem_predecessorTable (lt_size_of_mem_ids (hmem v hv))
  have hspec := foldl_fillLevel_spec g.predecessorTable (Array.replicate g.tasks.size 0)
    (hisOrder.pairwise.imp_of_mem fun hv _ hnot => by rwa [hwaits _ hv])
    (fun v hv => by
      rw [hwaits v hv]
      exact fun hself => hac v (.single hself))
    hisOrder.nodup
    fun v hv => by simpa using lt_size_of_mem_ids (hmem v hv)
  refine ⟨order.foldl (fillLevel g.predecessorTable) (Array.replicate g.tasks.size 0), ?_, ?_⟩
  · unfold levels
    rw [horder]
    rfl
  · exact fun v hv => hspec.1 v (hisOrder.perm.mem_iff.2 hv)

end TaskLoom.TaskGraph
