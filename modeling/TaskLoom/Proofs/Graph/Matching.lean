import Mathlib.Data.List.Sort
import TaskLoom.Proofs.Graph.Edges
import TaskLoom.Proofs.Graph.Levels

/-!
# Graphs that differ in their edges only by name

What depends on a graph should depend on its tasks and on which of them are joined, not on
the order in which edges were added, how often two tasks are joined, and whether for data
or for control.  Two graphs *match* if they agree on the former.

The searches and tables of matching graphs differ: they hold other lists in another order.
What is computed from them is the same, because it asks for membership only, for a highest
level, or for the lowest id of some kind.

Some questions ask even less: not which tasks are joined, but which of them come before
which.  Graphs that differ in edges beside a longer path agree on that.

## Main results

* `Matches.topologicalOrder_eq` — matching graphs have one order, or one cycle to report.
* `Matches.levels_eq` — and the same levels.
* `Matches.addControlEdges` — and they match again after new control edges.
* `SameOrder.before_iff` — graphs without cycles whose edges lead the same way have the same
  tasks before each task.
-/

namespace TaskLoom

/-- Two computations end alike: both are stopped by the same fault, or both end with
related values and states. -/
inductive Outcome.Agree {σ σ' α α' : Type} (related : α → σ → α' → σ' → Prop) :
    Outcome σ α → Outcome σ' α' → Prop where
  | done {value : α} {state : σ} {value' : α'} {state' : σ'}
      (h : related value state value' state') :
    Agree related (.done value state) (.done value' state')
  | failed (fault : Fault) (state : σ) (state' : σ') :
    Agree related (.failed fault state) (.failed fault state')

namespace TaskGraph

variable {g g' : TaskGraph}

/-- The tasks under all ids tell which ids are in use. -/
theorem ids_of_task?_eq (h : ∀ id, g'.task? id = g.task? id) : g'.ids = g.ids := by
  refine g'.pairwise_ids.eq_of_mem_iff g.pairwise_ids fun id => ?_
  rw [mem_ids, mem_ids, has, has, h]

theorem task_of_task?_eq (h : ∀ id, g'.task? id = g.task? id) : g'.task = g.task := by
  funext id
  rw [task, task, h]

/-- Both graphs have the same tasks under the same ids, and join the same tasks. -/
structure Matches (g g' : TaskGraph) : Prop where
  task?_eq : ∀ id, g'.task? id = g.task? id
  joins_iff : ∀ u v, g'.Joins u v ↔ g.Joins u v

namespace Matches

/-! ## What is read off a graph -/

theorem ids_eq (h : g.Matches g') : g'.ids = g.ids :=
  ids_of_task?_eq h.task?_eq

theorem size_eq (h : g.Matches g') : g'.size = g.size :=
  congrArg List.length h.ids_eq

theorem task_eq (h : g.Matches g') : g'.task = g.task :=
  task_of_task?_eq h.task?_eq

theorem name_eq (h : g.Matches g') : g'.name = g.name := by
  funext id
  rw [name, name, h.task_eq]

theorem predecessors_eq (h : g.Matches g') : g'.predecessors = g.predecessors := by
  funext id
  refine (IdSet.pairwise_ofList _).eq_of_mem_iff (IdSet.pairwise_ofList _) fun u => ?_
  exact mem_predecessors.trans ((h.joins_iff u id).trans mem_predecessors.symm)

theorem leads_eq (h : g.Matches g') : g'.Leads = g.Leads := by
  have hjoins : g'.Joins = g.Joins := by
    funext u v
    exact propext (h.joins_iff u v)
  rw [Leads, Leads, hjoins]

theorem acyclic_iff (h : g.Matches g') : g'.Acyclic ↔ g.Acyclic := by
  have hjoins : g'.Joins = g.Joins := by
    funext u v
    exact propext (h.joins_iff u v)
  rw [Acyclic, Acyclic, Before, Before, hjoins]

theorem hasPath_eq (h : g.Matches g') (hg : g.WellFormed) (hg' : g'.WellFormed) {u : Nat}
    (hu : u ∈ g.ids) (v : Nat) : g'.hasPath u v = g.hasPath u v := by
  rw [Bool.eq_iff_iff, hg'.hasPath_iff (h.ids_eq.symm ▸ hu), hg.hasPath_iff hu, h.leads_eq]

theorem mem_predecessorTable_iff (h : g.Matches g') {v : Nat} (hv : v ∈ g.ids) (u : Nat) :
    u ∈ g'.predecessorTable.getD v [] ↔ u ∈ g.predecessorTable.getD v [] := by
  have hv' : v ∈ g'.ids := h.ids_eq.symm ▸ hv
  rw [mem_predecessorTable (lt_size_of_mem_ids hv'), mem_predecessorTable (lt_size_of_mem_ids hv)]
  exact h.joins_iff u v

end Matches

/-! ## The order -/

section Drain

variable {table table' : Array (List Nat)}

/-- The first task that waits for none of a list. -/
theorem find?_free_congr {waiting : List Nat}
    (h : ∀ v ∈ waiting, ∀ u, u ∈ table'.getD v [] ↔ u ∈ table.getD v []) :
    (waiting.find? fun v => (table'.getD v []).all (!waiting.contains ·)) =
      waiting.find? fun v => (table.getD v []).all (!waiting.contains ·) := by
  rw [← List.head?_filter, ← List.head?_filter]
  congr 1
  refine List.filter_congr fun v hv => ?_
  rw [Bool.eq_iff_iff, List.all_eq_true, List.all_eq_true]
  simp only [h v hv]

/-- Listing tasks only asks who waits for whom. -/
theorem drain_congr {waiting : List Nat}
    (h : ∀ v ∈ waiting, ∀ u, u ∈ table'.getD v [] ↔ u ∈ table.getD v []) :
    drain table' waiting = drain table waiting := by
  fun_induction drain table waiting with
  | case1 waiting hnone => exact drain_of_none ((find?_free_congr h).trans hnone)
  | case2 waiting v found order stuck result ih =>
    rw [drain_of_some ((find?_free_congr h).trans found),
      ih fun u hu => h u (List.mem_of_mem_erase hu), result]

end Drain

theorem Matches.topologicalOrder_eq (h : g.Matches g') :
    g'.topologicalOrder = g.topologicalOrder := by
  unfold topologicalOrder
  rw [h.ids_eq, h.name_eq, drain_congr fun v hv u => h.mem_predecessorTable_iff hv u]

/-! ## Levels -/

theorem levelAfter_le_iff {levels : Array Nat} {predecessors : List Nat} {k : Nat} :
    levelAfter levels predecessors ≤ k ↔ ∀ u ∈ predecessors, levels.getD u 0 < k := by
  have hrun : ∀ (ps : List Nat) (level : Nat),
      ps.foldl (fun level p => max level (levels.getD p 0 + 1)) level ≤ k ↔
        level ≤ k ∧ ∀ p ∈ ps, levels.getD p 0 < k := by
    intro ps
    induction ps with
    | nil => simp
    | cons p ps ih =>
      intro level
      rw [List.foldl_cons, ih, Nat.max_le, List.forall_mem_cons, and_assoc]
      rfl
  unfold levelAfter
  rw [hrun]
  simp

/-- The equation of levels has one solution. -/
theorem Matches.levels_eq (h : g.Matches g') (hg : g.WellFormed) {levels levels' : Array Nat}
    (hlevels : g.HasLevels levels) (hlevels' : g'.HasLevels levels') :
    ∀ v ∈ g.ids, levels'.getD v 0 = levels.getD v 0 := by
  -- by induction on the level, which is lower before an edge
  intro v hv
  induction hlevel : levels.getD v 0 using Nat.strongRecOn generalizing v with
  | ind level ih =>
    subst hlevel
    have hbefore : ∀ u ∈ g.predecessorTable.getD v [], levels'.getD u 0 = levels.getD u 0 := by
      intro u hu
      have huv := (mem_predecessorTable (lt_size_of_mem_ids hv)).1 hu
      exact ih _ (hlevels.lt hg huv) u (hg.joins_left huv) rfl
    rw [hlevels v hv, hlevels' v (h.ids_eq.symm ▸ hv)]
    refine eq_of_forall_ge_iff fun k => ?_
    rw [levelAfter_le_iff, levelAfter_le_iff]
    simp only [h.mem_predecessorTable_iff hv]
    exact forall₂_congr fun u hu => by rw [hbefore u hu]

/-! ## New edges -/

theorem Matches.addEdge (h : g.Matches g') (a b : Nat) (kind : Dependency) :
    (g.addEdge a b kind).2.Matches (g'.addEdge a b kind).2 where
  task?_eq id := by
    rw [task?, task?, tasks_addEdge, tasks_addEdge]
    exact h.task?_eq id
  joins_iff u v := by
    rw [joins_addEdge, joins_addEdge, h.joins_iff]

theorem Matches.addControlEdge (h : g.Matches g') (hg : g.WellFormed) (hg' : g'.WellFormed)
    {a b : Nat} (ha : a ∈ g.ids) (hb : b ∈ g.ids) :
    (∃ fault, g.addControlEdge a b = .error fault ∧ g'.addControlEdge a b = .error fault) ∨
    ∃ added h h', g.addControlEdge a b = .ok (added, h) ∧
      g'.addControlEdge a b = .ok (added, h') ∧ h.Matches h' ∧ h.WellFormed ∧ h'.WellFormed ∧
      h.ids = g.ids := by
  have hdirect : (g'.edge? a b).isSome = (g.edge? a b).isSome := by
    rw [Bool.eq_iff_iff, edge?_isSome_iff, edge?_isSome_iff, h.joins_iff]
  unfold TaskGraph.addControlEdge
  rw [hdirect, h.hasPath_eq hg hg' hb, h.name_eq]
  split
  · exact Or.inr ⟨false, g, g', rfl, rfl, h, hg, hg', rfl⟩
  · split
    · exact Or.inl ⟨_, rfl, rfl⟩
    · refine Or.inr ⟨true, _, _, rfl, rfl, h.addEdge a b .control, hg.addEdge ha hb .control, ?_,
        ids_addEdge g a b .control⟩
      rw [← h.ids_eq] at ha hb
      exact hg'.addEdge ha hb .control

/-- Matching graphs take or refuse the same control edges, and match again. -/
theorem Matches.addControlEdges (h : g.Matches g') (hg : g.WellFormed) (hg' : g'.WellFormed)
    {pairs : List (Nat × Nat)} (hpairs : ∀ p ∈ pairs, p.1 ∈ g.ids ∧ p.2 ∈ g.ids) :
    Outcome.Agree (fun count h count' h' => count' = count ∧ h.Matches h')
      (g.addControlEdges pairs) (g'.addControlEdges pairs) := by
  induction pairs generalizing g g' with
  | nil => exact .done ⟨rfl, h⟩
  | cons pair pairs ih =>
    obtain ⟨a, b⟩ := pair
    obtain ⟨⟨ha, hb⟩, hrest⟩ := List.forall_mem_cons.1 hpairs
    unfold TaskGraph.addControlEdges
    rcases h.addControlEdge hg hg' ha hb with
      ⟨fault, hfault, hfault'⟩ | ⟨added, g₁, g₁', hadd, hadd', h₁, hg₁, hg₁', hids⟩
    · rw [hfault, hfault']
      exact .failed fault g g'
    · simp only [hadd, hadd']
      have hagree := ih h₁ hg₁ hg₁' (by rwa [hids])
      generalize g₁.addControlEdges pairs = o, g₁'.addControlEdges pairs = o' at hagree ⊢
      cases hagree with
      | failed fault g₂ g₂' => exact .failed fault g₂ g₂'
      | done h₂ =>
        obtain ⟨rfl, h₂⟩ := h₂
        exact .done ⟨rfl, h₂⟩

/-! ## The same order -/

/-- Both graphs have the same tasks under the same ids, and lead from the same tasks to the
same tasks, be it along other edges. -/
structure SameOrder (g g' : TaskGraph) : Prop where
  task?_eq : ∀ id, g'.task? id = g.task? id
  leads_iff : ∀ u v, g'.Leads u v ↔ g.Leads u v

theorem Matches.sameOrder (h : g.Matches g') : g.SameOrder g' where
  task?_eq := h.task?_eq
  leads_iff u v := by rw [h.leads_eq]

/-- Without cycles, what a task leads to comes after it, itself apart. -/
theorem Acyclic.before_iff (hac : g.Acyclic) {u v : Nat} :
    g.Before u v ↔ g.Leads u v ∧ u ≠ v := by
  constructor
  · intro hbefore
    refine ⟨hbefore.to_reflTransGen, ?_⟩
    rintro rfl
    exact hac u hbefore
  · rintro ⟨hleads, hne⟩
    cases Relation.reflTransGen_iff_eq_or_transGen.1 hleads with
    | inl heq => exact absurd heq.symm hne
    | inr hbefore => exact hbefore

namespace SameOrder

theorem symm (h : g.SameOrder g') : g'.SameOrder g where
  task?_eq id := (h.task?_eq id).symm
  leads_iff u v := (h.leads_iff u v).symm

theorem ids_eq (h : g.SameOrder g') : g'.ids = g.ids :=
  ids_of_task?_eq h.task?_eq

theorem before_iff (h : g.SameOrder g') (hac : g.Acyclic) (hac' : g'.Acyclic) (u v : Nat) :
    g'.Before u v ↔ g.Before u v := by
  rw [hac'.before_iff, hac.before_iff, h.leads_iff]

end SameOrder

end TaskGraph

end TaskLoom
