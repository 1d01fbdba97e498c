import Mathlib.Logic.Relation
import Mathlib.Tactic.Common
import TaskLoom.TaskGraph.Reach

/-!
# Paths of a task graph

The edges of a graph are a relation on task ids, and the questions about order
that the library asks are questions about its closures.  `Joins` is one edge,
`Leads` any number of edges, `Before` at least one.

`explore` marks in an array, and `reachable` and `hasPath` read the array.  The
results here say that these computations decide the closures.

## Main results

* `explore_marks_iff` — the search marks exactly the points that can be reached
  from its starting points.
* `hasPath_iff` — `hasPath` decides `Leads`.
* `Acyclic.of_rank` — a number that grows along every edge excludes cycles.
-/

namespace TaskLoom

/-! ## The search -/

section Explore

variable (next : Nat → List Nat)

/-- One expansion step among the points below `n`. -/
def Expands (n a b : Nat) : Prop := b ∈ next a ∧ b < n

/-- The search keeps the number of points. -/
theorem size_explore (seen : Array Bool) (frontier : List Nat) :
    (explore next seen frontier).size = seen.size := by
  fun_induction explore next seen frontier with
  | case1 => rfl
  | case2 seen v rest h marked ih => exact ih
  | case3 seen v rest h marked ih => simpa using ih
  | case4 seen v rest h ih => exact ih

/-- Reading a mark after `v` was marked. -/
private theorem getD_set_true {seen : Array Bool} {v : Nat} (h : v < seen.size) (x : Nat) :
    (seen.set v true h).getD x false = true ↔ x = v ∨ seen.getD x false = true := by
  by_cases hx : x = v
  · subst hx
    simp [h]
  · simp [Ne.symm hx, hx]

/-- Marks stay. -/
theorem explore_keeps (seen : Array Bool) (frontier : List Nat) {x : Nat}
    (hx : seen.getD x false = true) : (explore next seen frontier).getD x false = true := by
  fun_induction explore next seen frontier with
  | case1 => exact hx
  | case2 seen v rest h marked ih => exact ih hx
  | case3 seen v rest h marked ih => exact ih ((getD_set_true h x).2 (Or.inr hx))
  | case4 seen v rest h ih => exact ih hx

/-- A mark is old, or it was reached from the frontier. -/
theorem explore_sound (seen : Array Bool) (frontier : List Nat) {x : Nat}
    (hx : (explore next seen frontier).getD x false = true) :
    seen.getD x false = true ∨
      ∃ s ∈ frontier, s < seen.size ∧
        Relation.ReflTransGen (Expands next seen.size) s x := by
  fun_induction explore next seen frontier with
  | case1 => exact Or.inl hx
  | case2 seen v rest h marked ih =>
    rcases ih hx with old | ⟨s, hs, hlt, path⟩
    · exact Or.inl old
    · exact Or.inr ⟨s, List.mem_cons_of_mem v hs, hlt, path⟩
  | case3 seen v rest h marked ih =>
    have hsize : (seen.set v true h).size = seen.size := Array.size_set h
    rcases ih hx with old | ⟨s, hs, hlt, path⟩
    · rcases (getD_set_true h x).1 old with rfl | old
      · exact Or.inr ⟨x, List.mem_cons_self, h, .refl⟩
      · exact Or.inl old
    · rw [hsize] at hlt path
      rcases List.mem_append.1 hs with hs | hs
      · exact Or.inr ⟨v, List.mem_cons_self, h, .head ⟨hs, hlt⟩ path⟩
      · exact Or.inr ⟨s, List.mem_cons_of_mem v hs, hlt, path⟩
  | case4 seen v rest h ih =>
    rcases ih hx with old | ⟨s, hs, hlt, path⟩
    · exact Or.inl old
    · exact Or.inr ⟨s, List.mem_cons_of_mem v hs, hlt, path⟩

/-- What a search under way owes: the neighbours of a marked point are marked or
still to be visited. -/
def Owes (seen : Array Bool) (frontier : List Nat) : Prop :=
  ∀ a b, seen.getD a false = true → Expands next seen.size a b →
    seen.getD b false = true ∨ b ∈ frontier

/-- A search that owes nothing else ends with a closed set of marks that holds
its frontier. -/
theorem explore_complete (seen : Array Bool) (frontier : List Nat)
    (owed : Owes next seen frontier) :
    Owes next (explore next seen frontier) [] ∧
      ∀ s ∈ frontier, s < seen.size → (explore next seen frontier).getD s false = true := by
  fun_induction explore next seen frontier with
  | case1 seen => exact ⟨owed, by simp⟩
  | case2 seen v rest h marked ih =>
    have hv : seen.getD v false = true := by simpa [h] using marked
    have owed' : Owes next seen rest := by
      intro a b ha hab
      rcases owed a b ha hab with hb | hb
      · exact Or.inl hb
      · rcases List.mem_cons.1 hb with rfl | hb
        · exact Or.inl hv
        · exact Or.inr hb
    obtain ⟨closed, reached⟩ := ih owed'
    refine ⟨closed, ?_⟩
    intro s hs hlt
    rcases List.mem_cons.1 hs with rfl | hs
    · exact explore_keeps next seen rest hv
    · exact reached s hs hlt
  | case3 seen v rest h marked ih =>
    have hsize : (seen.set v true h).size = seen.size := Array.size_set h
    have owed' : Owes next (seen.set v true h) (next v ++ rest) := by
      intro a b ha hab
      rw [hsize] at hab
      rcases (getD_set_true h a).1 ha with rfl | ha
      · exact Or.inr (List.mem_append_left rest hab.1)
      · rcases owed a b ha hab with hb | hb
        · exact Or.inl ((getD_set_true h b).2 (Or.inr hb))
        · rcases List.mem_cons.1 hb with rfl | hb
          · exact Or.inl ((getD_set_true h b).2 (Or.inl rfl))
          · exact Or.inr (List.mem_append_right (next v) hb)
    obtain ⟨closed, reached⟩ := ih owed'
    refine ⟨closed, ?_⟩
    intro s hs hlt
    rcases List.mem_cons.1 hs with rfl | hs
    · exact explore_keeps next _ _ ((getD_set_true h s).2 (Or.inl rfl))
    · exact reached s (List.mem_append_right (next v) hs) (by rw [hsize]; exact hlt)
  | case4 seen v rest h ih =>
    have owed' : Owes next seen rest := by
      intro a b ha hab
      rcases owed a b ha hab with hb | hb
      · exact Or.inl hb
      · rcases List.mem_cons.1 hb with rfl | hb
        · exact absurd hab.2 h
        · exact Or.inr hb
    obtain ⟨closed, reached⟩ := ih owed'
    refine ⟨closed, ?_⟩
    intro s hs hlt
    rcases List.mem_cons.1 hs with rfl | hs
    · exact absurd hlt h
    · exact reached s hs hlt

/-- A search that starts without marks marks exactly what its starting points
reach. -/
theorem explore_marks_iff (n : Nat) (start : List Nat) (x : Nat) :
    (explore next (Array.replicate n false) start).getD x false = true ↔
      ∃ s ∈ start, s < n ∧ Relation.ReflTransGen (Expands next n) s x := by
  have unmarked : ∀ a, ¬ (Array.replicate n false).getD a false = true := by
    intro a
    simp [Array.getElem?_replicate]
    split <;> simp
  constructor
  · intro hx
    rcases explore_sound next _ start hx with old | reached
    · exact absurd old (unmarked x)
    · simpa using reached
  · rintro ⟨s, hs, hlt, path⟩
    have owed : Owes next (Array.replicate n false) start :=
      fun a b ha => absurd ha (unmarked a)
    obtain ⟨closed, reached⟩ := explore_complete next _ start owed
    have hsize : (explore next (Array.replicate n false) start).size = n := by
      rw [size_explore, Array.size_replicate]
    induction path with
    | refl => exact reached s hs (by simpa using hlt)
    | tail _ step ih =>
      rcases closed _ _ ih (by rw [hsize]; exact step) with hb | hb
      · exact hb
      · simp at hb

end Explore

/-! ## Tables of neighbours -/

/-- What a table of lists holds after entries were put in front of its lists. -/
theorem mem_foldl_modify {α : Type} (key value : α → Nat) (es : List α)
    (table : Array (List Nat)) (v x : Nat) :
    x ∈ (es.foldl (fun table e => table.modify (key e) (value e :: ·)) table).getD v [] ↔
      x ∈ table.getD v [] ∨ v < table.size ∧ ∃ e ∈ es, key e = v ∧ value e = x := by
  induction es generalizing table with
  | nil => simp
  | cons e es ih =>
    have hstep : x ∈ (table.modify (key e) (value e :: ·)).getD v [] ↔
        x ∈ table.getD v [] ∨ v < table.size ∧ key e = v ∧ value e = x := by
      by_cases hv : v < table.size
      · by_cases hk : key e = v
        · subst hk
          simp [Array.getElem_modify, hv, or_comm, eq_comm]
        · simp [Array.getElem_modify, hv, hk]
      · simp [hv]
    rw [List.foldl_cons, ih, hstep, Array.size_modify]
    simp only [List.mem_cons, exists_eq_or_imp]
    tauto

namespace TaskGraph

variable {g : TaskGraph}

/-! ## The relations -/

/-- An edge runs from `u` to `v`. -/
def Joins (g : TaskGraph) (u v : Nat) : Prop :=
  ∃ e ∈ g.edges, e.source = u ∧ e.target = v

instance (g : TaskGraph) (u v : Nat) : Decidable (g.Joins u v) :=
  inferInstanceAs (Decidable (∃ e ∈ g.edges, e.source = u ∧ e.target = v))

/-- Edges lead from `u` to `v`, or the two are the same. -/
def Leads (g : TaskGraph) : Nat → Nat → Prop :=
  Relation.ReflTransGen g.Joins

/-- At least one edge leads from `u` to `v`. -/
def Before (g : TaskGraph) : Nat → Nat → Prop :=
  Relation.TransGen g.Joins

/-- No task comes before itself. -/
def Acyclic (g : TaskGraph) : Prop :=
  ∀ v, ¬ g.Before v v

/-- The tasks that post a barrier. -/
def posters (g : TaskGraph) : List Nat :=
  g.ids.filter fun id => 0 < (g.task id).demand

/-- Edges join tasks of the graph, and there are more numbers for barriers than tasks
that post one. -/
structure WellFormed (g : TaskGraph) : Prop where
  source_mem : ∀ e ∈ g.edges, e.source ∈ g.ids
  target_mem : ∀ e ∈ g.edges, e.target ∈ g.ids
  posters_lt : g.posters.length < Word.bound - 1

/-- Edges join tasks of the graph, whatever these post. -/
structure Linked (g : TaskGraph) : Prop where
  source_mem : ∀ e ∈ g.edges, e.source ∈ g.ids
  target_mem : ∀ e ∈ g.edges, e.target ∈ g.ids

theorem WellFormed.linked (hg : g.WellFormed) : g.Linked :=
  ⟨hg.source_mem, hg.target_mem⟩

theorem Linked.wellFormed (hg : g.Linked) (hposters : g.posters.length < Word.bound - 1) :
    g.WellFormed :=
  ⟨hg.source_mem, hg.target_mem, hposters⟩

theorem has_lt_size {id : Nat} (h : g.has id = true) : id < g.tasks.size := by
  by_contra hge
  have : g.tasks[id]? = none := by simpa using hge
  simp [has, task?, this] at h

@[simp]
theorem mem_ids {id : Nat} : id ∈ g.ids ↔ g.has id = true := by
  simp only [ids, List.mem_filter, List.mem_range]
  exact ⟨fun h => h.2, fun h => ⟨has_lt_size h, h⟩⟩

theorem lt_size_of_mem_ids {id : Nat} (h : id ∈ g.ids) : id < g.tasks.size :=
  has_lt_size (mem_ids.1 h)

/-- The ids are strictly ascending. -/
theorem pairwise_ids (g : TaskGraph) : g.ids.Pairwise (· < ·) :=
  List.pairwise_lt_range.filter _

theorem nodup_ids (g : TaskGraph) : g.ids.Nodup :=
  (pairwise_ids g).imp Nat.ne_of_lt

theorem Linked.joins_left (hg : g.Linked) {u v : Nat} (h : g.Joins u v) : u ∈ g.ids := by
  obtain ⟨e, he, rfl, rfl⟩ := h
  exact hg.source_mem e he

theorem Linked.joins_right (hg : g.Linked) {u v : Nat} (h : g.Joins u v) : v ∈ g.ids := by
  obtain ⟨e, he, rfl, rfl⟩ := h
  exact hg.target_mem e he

theorem WellFormed.joins_left (hg : g.WellFormed) {u v : Nat} (h : g.Joins u v) : u ∈ g.ids :=
  hg.linked.joins_left h

theorem WellFormed.joins_right (hg : g.WellFormed) {u v : Nat} (h : g.Joins u v) : v ∈ g.ids :=
  hg.linked.joins_right h

theorem WellFormed.before_left (hg : g.WellFormed) {u v : Nat} (h : g.Before u v) :
    u ∈ g.ids := by
  obtain ⟨w, huw, -⟩ := Relation.TransGen.head'_iff.1 h
  exact hg.joins_left huw

theorem Linked.before_right (hg : g.Linked) {u v : Nat} (h : g.Before u v) : v ∈ g.ids := by
  obtain ⟨w, -, hwv⟩ := Relation.TransGen.tail'_iff.1 h
  exact hg.joins_right hwv

theorem WellFormed.before_right (hg : g.WellFormed) {u v : Nat} (h : g.Before u v) : v ∈ g.ids :=
  hg.linked.before_right h

/-- Something that grows along every edge grows along every path. -/
theorem Before.lt_of_rank {rank : Nat → Nat} (hrank : ∀ u v, g.Joins u v → rank u < rank v)
    {u v : Nat} (h : g.Before u v) : rank u < rank v := by
  induction h with
  | single step => exact hrank _ _ step
  | tail _ step ih => exact Nat.lt_trans ih (hrank _ _ step)

/-- A number that grows along every edge excludes cycles. -/
theorem Acyclic.of_rank {rank : Nat → Nat} (hrank : ∀ u v, g.Joins u v → rank u < rank v) :
    g.Acyclic := by
  intro v hv
  exact Nat.lt_irrefl _ (Before.lt_of_rank hrank hv)

theorem Acyclic.of_forward (hforward : ∀ e ∈ g.edges, e.source < e.target) : g.Acyclic := by
  refine @Acyclic.of_rank g (fun id => id) ?_
  rintro u v ⟨e, he, rfl, rfl⟩
  exact hforward e he

/-! ## What the tables and searches compute -/

theorem mem_successorTable {u v : Nat} (hu : u < g.tasks.size) :
    v ∈ g.successorTable.getD u [] ↔ g.Joins u v := by
  unfold successorTable
  rw [mem_foldl_modify]
  simp [hu, Joins]

theorem mem_predecessorTable {u v : Nat} (hv : v < g.tasks.size) :
    u ∈ g.predecessorTable.getD v [] ↔ g.Joins u v := by
  unfold predecessorTable
  rw [mem_foldl_modify]
  simp [hv, Joins, and_comm]

theorem mem_predecessors {u v : Nat} : u ∈ g.predecessors v ↔ g.Joins u v := by
  simp [predecessors, Joins, and_assoc, and_comm]

theorem mem_successors {u v : Nat} : v ∈ g.successors u ↔ g.Joins u v := by
  simp [successors, Joins, and_assoc]

/-- One expansion step of the search of a graph is one edge. -/
theorem Linked.expands_iff (hg : g.Linked) {a b : Nat} (ha : a < g.tasks.size) :
    Expands (fun v => g.successorTable.getD v []) g.tasks.size a b ↔ g.Joins a b := by
  unfold Expands
  rw [mem_successorTable ha]
  exact ⟨fun h => h.1, fun h => ⟨h, lt_size_of_mem_ids (hg.joins_right h)⟩⟩

/-- `reachable` marks what a task leads to. -/
theorem Linked.reachable_iff (hg : g.Linked) {u v : Nat} (hu : u < g.tasks.size) :
    (g.reachable u).getD v false = true ↔ g.Leads u v := by
  unfold reachable
  rw [explore_marks_iff]
  constructor
  · rintro ⟨s, hs, -, path⟩
    obtain rfl : s = u := by simpa using hs
    induction path with
    | refl => exact .refl
    | tail path step ih =>
      refine ih.tail ((hg.expands_iff ?_).1 step)
      rcases Relation.reflTransGen_iff_eq_or_transGen.1 ih with rfl | h
      · exact hu
      · exact lt_size_of_mem_ids (hg.before_right h)
  · intro path
    refine ⟨u, by simp, hu, ?_⟩
    induction path with
    | refl => exact .refl
    | tail _ step ih =>
      exact ih.tail ((hg.expands_iff (lt_size_of_mem_ids (hg.joins_left step))).2 step)

theorem WellFormed.reachable_iff (hg : g.WellFormed) {u v : Nat} (hu : u < g.tasks.size) :
    (g.reachable u).getD v false = true ↔ g.Leads u v :=
  hg.linked.reachable_iff hu

/-- `hasPath` decides `Leads`. -/
theorem Linked.hasPath_iff (hg : g.Linked) {u v : Nat} (hu : u ∈ g.ids) :
    g.hasPath u v = true ↔ g.Leads u v :=
  hg.reachable_iff (lt_size_of_mem_ids hu)

theorem WellFormed.hasPath_iff (hg : g.WellFormed) {u v : Nat} (hu : u ∈ g.ids) :
    g.hasPath u v = true ↔ g.Leads u v :=
  hg.linked.hasPath_iff hu

theorem edge?_isSome_iff {u v : Nat} : (g.edge? u v).isSome = true ↔ g.Joins u v := by
  simp [edge?, Joins]

theorem mem_dependencies {e : Edge} : e ∈ g.dependencies ↔ e ∈ g.edges :=
  (List.mergeSort_perm _ _).mem_iff

end TaskGraph

end TaskLoom
