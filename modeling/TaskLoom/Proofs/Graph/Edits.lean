import TaskLoom.Proofs.Graph.Edges

/-!
# Graphs that edits lead to

A graph grows and shrinks: tasks come with what they wait for, control edges are added,
tasks and edges are removed, and a new task may take the id of a removed one.  An edit that
fails half-way leaves what it did before.

No edit closes a cycle.  A new task has no outgoing edge, because edges join tasks in use
and its id was vacant, so what it waits for cannot be reached from it.  A control edge is
added where the search finds no path against it, and the search is exact.  What is removed
closes nothing.

## Main results

* `Acyclic.addEdge_iff` — a new edge closes a cycle exactly if a path leads back.
* `Simple.addTask`, `Simple.addDependencies`, `Simple.addControlEdge`, `Simple.removeTask`,
  `Simple.removeEdge` — what the operations keep.
* `Reached.simple` — what every sequence of edits keeps.
* `addControlEdge_of_reached` — what a control edge does in a graph that edits lead to.
-/

namespace TaskLoom.TaskGraph

variable {g : TaskGraph}

/-! ## Cycles -/

/-- A graph with fewer pairs joined has no new cycle. -/
theorem Acyclic.of_joins (hac : g.Acyclic) {g' : TaskGraph}
    (hjoins : ∀ u v, g'.Joins u v → g.Joins u v) : g'.Acyclic :=
  fun v hv => hac v (Relation.TransGen.mono hjoins v v hv)

/-- A path after an edge was added is an old one, or it takes the new edge. -/
theorem before_addEdge {u v : Nat} {kind : Dependency} {a b : Nat}
    (h : (g.addEdge u v kind).2.Before a b) :
    g.Before a b ∨ (g.Leads a u ∧ g.Leads v b) := by
  induction h with
  | single step =>
    rcases joins_addEdge.1 step with ⟨rfl, rfl⟩ | hold
    · exact Or.inr ⟨.refl, .refl⟩
    · exact Or.inl (.single hold)
  | tail path step ih =>
    rcases joins_addEdge.1 step with ⟨rfl, rfl⟩ | hold
    · cases ih with
      | inl hbefore => exact Or.inr ⟨hbefore.to_reflTransGen, .refl⟩
      | inr hleads => exact Or.inr ⟨hleads.1, .refl⟩
    · cases ih with
      | inl hbefore => exact Or.inl (hbefore.tail hold)
      | inr hleads => exact Or.inr ⟨hleads.1, hleads.2.tail hold⟩

/-- A new edge closes a cycle exactly if a path leads back. -/
theorem Acyclic.addEdge_iff (hac : g.Acyclic) {u v : Nat} (kind : Dependency) :
    (g.addEdge u v kind).2.Acyclic ↔ ¬ g.Leads v u := by
  constructor
  · intro hnew hleads
    have hback : (g.addEdge u v kind).2.Leads v u :=
      Relation.ReflTransGen.mono (fun a b hab => joins_addEdge.2 (Or.inr hab)) v u hleads
    have hstep : (g.addEdge u v kind).2.Joins u v := joins_addEdge.2 (Or.inl ⟨rfl, rfl⟩)
    exact hnew u (Relation.TransGen.head' hstep hback)
  · intro hback w hw
    rcases before_addEdge hw with hbefore | ⟨hto, hfrom⟩
    · exact hac w hbefore
    · exact hback (hfrom.trans hto)

/-! ## What edits keep -/

/-- A graph without cycles in which edges join tasks, no pair is joined twice, and the
vacant ids are known. -/
structure Simple (g : TaskGraph) : Prop where
  linked : g.Linked
  acyclic : g.Acyclic
  nodup : (g.edges.map ends).Nodup
  vacant_nodup : g.vacantIds.Nodup
  vacant_lt : ∀ id ∈ g.vacantIds, id < g.tasks.size
  vacant_notMem : ∀ id ∈ g.vacantIds, id ∉ g.ids

theorem simple_empty : empty.Simple where
  linked := linked_empty
  acyclic := Acyclic.of_forward (by simp [empty])
  nodup := .nil
  vacant_nodup := .nil
  vacant_lt := by simp [empty]
  vacant_notMem := by simp [empty]

theorem joins_iff_mem_ends {u v : Nat} : g.Joins u v ↔ (u, v) ∈ g.edges.map ends := by
  simp [Joins, ends]

/-- An edge between tasks that are not joined and not ordered the other way. -/
theorem Simple.addEdge (h : g.Simple) {u v : Nat} (hu : u ∈ g.ids) (hv : v ∈ g.ids)
    (hjoin : ¬ g.Joins u v) (hleads : ¬ g.Leads v u) (kind : Dependency) :
    (g.addEdge u v kind).2.Simple where
  linked := h.linked.addEdge hu hv kind
  acyclic := (h.acyclic.addEdge_iff kind).2 hleads
  nodup := by
    rw [edges_addEdge, List.map_cons, List.nodup_cons]
    exact ⟨fun hmem => hjoin (joins_iff_mem_ends.2 hmem), h.nodup⟩
  vacant_nodup := by simpa using h.vacant_nodup
  vacant_lt := by simpa using h.vacant_lt
  vacant_notMem := by
    rw [vacantIds_addEdge, ids_addEdge]
    exact h.vacant_notMem

/-- Fewer edges between the same tasks. -/
theorem Simple.of_sublist (h : g.Simple) {g' : TaskGraph} (hlinked : g'.Linked)
    (hedges : g'.edges.Sublist g.edges) (hnodup : g'.vacantIds.Nodup)
    (hlt : ∀ id ∈ g'.vacantIds, id < g'.tasks.size) (hmem : ∀ id ∈ g'.vacantIds, id ∉ g'.ids) :
    g'.Simple where
  linked := hlinked
  acyclic := h.acyclic.of_joins fun _ _ ⟨e, he, hends⟩ => ⟨e, hedges.subset he, hends⟩
  nodup := h.nodup.sublist (hedges.map ends)
  vacant_nodup := hnodup
  vacant_lt := hlt
  vacant_notMem := hmem

/-! ## The operations -/

/-- A new task takes a vacant id or the next one. -/
theorem Simple.addTask (h : g.Simple) (t : Task) :
    (g.addTask t).2.Simple ∧ (g.addTask t).1 ∈ (g.addTask t).2.ids ∧ (g.addTask t).1 ∉ g.ids := by
  have hlinked := h.linked.addTask t
  cases hvacant : g.vacantIds with
  | nil =>
    rw [addTask_next hvacant] at hlinked ⊢
    refine ⟨h.of_sublist hlinked (.refl _) (by simp [hvacant]) (by simp [hvacant])
      (by simp [hvacant]), ?_, fun hmem => Nat.lt_irrefl _ (lt_size_of_mem_ids hmem)⟩
    rw [mem_ids, has, task?, Array.getElem?_push_size]
    rfl
  | cons id rest =>
    have hlt := h.vacant_lt
    have hnotMem := h.vacant_notMem
    have hnodup := h.vacant_nodup
    rw [hvacant] at hlt hnotMem hnodup
    obtain ⟨hfresh, hrest⟩ := List.nodup_cons.1 hnodup
    rw [addTask_vacant hvacant] at hlinked ⊢
    refine ⟨h.of_sublist hlinked (.refl _) hrest ?_ ?_, ?_, hnotMem id List.mem_cons_self⟩
    · intro x hx
      simpa using hlt x (List.mem_cons_of_mem _ hx)
    · intro x hx
      have hne : id ≠ x := fun heq => hfresh (heq ▸ hx)
      have hold := hnotMem x (List.mem_cons_of_mem _ hx)
      rw [mem_ids] at hold ⊢
      unfold has task? at hold ⊢
      rw [Array.getElem?_setIfInBounds_ne hne]
      exact hold
    · rw [mem_ids, has, task?, Array.getElem?_setIfInBounds_self_of_lt
        (hlt id List.mem_cons_self)]
      rfl

/-- A task without outgoing edges may depend on any tasks, whether this is accepted
to the end or not. -/
theorem Simple.addDependencies (h : g.Simple) {target : Nat} (htarget : target ∈ g.ids)
    (hleaf : ∀ v, ¬ g.Joins target v) {sources : List Nat} (hsources : ∀ s ∈ sources, s ∈ g.ids) :
    (g.addDependencies target sources).state.Simple := by
  induction sources generalizing g with
  | nil => exact h
  | cons source rest ih =>
    obtain ⟨hsource, hrest⟩ := List.forall_mem_cons.1 hsources
    rw [TaskGraph.addDependencies, addDependency]
    by_cases hself : source = target
    · rw [if_pos hself]
      exact h
    rw [if_neg hself]
    by_cases hjoin : g.Joins source target
    · rw [if_pos (edge?_isSome_iff.2 hjoin)]
      exact ih h htarget hleaf hrest
    · rw [if_neg fun hsome => hjoin (edge?_isSome_iff.1 hsome)]
      have hleads : ¬ g.Leads target source := by
        intro hpath
        rcases hpath.cases_head with heq | ⟨v, hstep, -⟩
        · exact hself heq.symm
        · exact hleaf v hstep
      refine ih (h.addEdge hsource htarget hjoin hleads .data) (by rwa [ids_addEdge]) ?_
        (by rwa [ids_addEdge])
      intro v hv
      rcases joins_addEdge.1 hv with ⟨heq, -⟩ | hold
      · exact hself heq.symm
      · exact hleaf v hold

/-- All that a control edge between tasks can do. -/
theorem Linked.addControlEdge_cases (hg : g.Linked) {u v : Nat} (hv : v ∈ g.ids) :
    (g.Joins u v ∧ g.addControlEdge u v = .ok (false, g)) ∨
    (¬ g.Joins u v ∧ g.Leads v u ∧
      g.addControlEdge u v = .error (.broken (.closesCycle (g.name u) (g.name v)))) ∨
    (¬ g.Joins u v ∧ ¬ g.Leads v u ∧
      g.addControlEdge u v = .ok (true, (g.addEdge u v .control).2)) := by
  by_cases hjoin : g.Joins u v
  · exact Or.inl ⟨hjoin, addControlEdge_joined hjoin⟩
  by_cases hleads : g.Leads v u
  · refine Or.inr (Or.inl ⟨hjoin, hleads, ?_⟩)
    rw [addControlEdge, if_neg fun hsome => hjoin (edge?_isSome_iff.1 hsome),
      if_pos (by simp [(hg.hasPath_iff hv).2 hleads])]
  · exact Or.inr (Or.inr ⟨hjoin, hleads, hg.addControlEdge_new hv hjoin hleads⟩)

theorem Simple.addControlEdge (h : g.Simple) {u v : Nat} (hu : u ∈ g.ids) (hv : v ∈ g.ids) :
    (Outcome.ofExcept g (g.addControlEdge u v)).state.Simple := by
  rcases h.linked.addControlEdge_cases (u := u) hv with ⟨-, heq⟩ | ⟨-, -, heq⟩ |
    ⟨hjoin, hleads, heq⟩
  · rw [heq]
    exact h
  · rw [heq]
    exact h
  · rw [heq]
    exact h.addEdge hu hv hjoin hleads .control

theorem Simple.removeTask (h : g.Simple) {id : Nat} (hid : id ∈ g.ids) :
    (g.removeTask id).Simple := by
  refine h.of_sublist (h.linked.removeTask id) List.filter_sublist ?_ ?_ ?_
  · exact List.nodup_cons.2 ⟨fun hmem => h.vacant_notMem id hmem hid, h.vacant_nodup⟩
  · show ∀ x ∈ id :: g.vacantIds, x < (g.tasks.setIfInBounds id none).size
    rw [Array.size_setIfInBounds]
    exact List.forall_mem_cons.2 ⟨lt_size_of_mem_ids hid, h.vacant_lt⟩
  · show ∀ x ∈ id :: g.vacantIds, x ∉ (g.removeTask id).ids
    intro x hx
    by_cases heq : x = id
    · subst heq
      rw [mem_ids, has, task?]
      simp [TaskGraph.removeTask, Array.getElem?_setIfInBounds]
      split <;> simp
    · have hold := h.vacant_notMem x ((List.mem_cons.1 hx).resolve_left heq)
      rw [mem_ids] at hold ⊢
      rwa [has_removeTask heq]

theorem Simple.removeEdge (h : g.Simple) {u v : Nat} {kind : Dependency} {g' : TaskGraph}
    (hremove : g.removeEdge u v = some (kind, g')) : g'.Simple := by
  obtain ⟨e, hedges, htasks, hvacant⟩ := removeEdge_eq_some hremove
  refine h.of_sublist (h.linked.removeEdge hremove) (hedges ▸ List.erase_sublist) ?_ ?_ ?_
  · rw [hvacant]
    exact h.vacant_nodup
  · rw [hvacant, htasks]
    exact h.vacant_lt
  · rw [hvacant, ids_congr htasks]
    exact h.vacant_notMem

/-! ## Sequences of edits -/

/-- One change of a graph. -/
inductive Edit where
  /-- A new task that waits for others. -/
  | addTask (t : Task) (sources : List Nat)
  /-- A control edge from one task to another. -/
  | addControlEdge (source target : Nat)
  | removeTask (id : Nat)
  | removeEdge (source target : Nat)

/-- An edit names tasks of the graph where it adds an edge.  A new task may name itself. -/
def Edit.Names (g : TaskGraph) : Edit → Prop
  | .addTask t sources => ∀ source ∈ sources, source ∈ (g.addTask t).2.ids
  | .addControlEdge source target => source ∈ g.ids ∧ target ∈ g.ids
  | .removeTask _ => True
  | .removeEdge _ _ => True

instance (g : TaskGraph) : (e : Edit) → Decidable (e.Names g)
  | .addTask t sources =>
    inferInstanceAs (Decidable (∀ source ∈ sources, source ∈ (g.addTask t).2.ids))
  | .addControlEdge source target =>
    inferInstanceAs (Decidable (source ∈ g.ids ∧ target ∈ g.ids))
  | .removeTask _ => inferInstanceAs (Decidable True)
  | .removeEdge _ _ => inferInstanceAs (Decidable True)

/-- The graph that an edit leaves, whether it ends or fails. -/
def after (g : TaskGraph) : Edit → TaskGraph
  | .addTask t sources => ((g.addTask t).2.addDependencies (g.addTask t).1 sources).state
  | .addControlEdge source target => (Outcome.ofExcept g (g.addControlEdge source target)).state
  | .removeTask id => if g.has id then g.removeTask id else g
  | .removeEdge source target => ((g.removeEdge source target).map (·.2)).getD g

/-- The graphs that edits lead to from the empty one. -/
inductive Reached : TaskGraph → Prop
  | empty : Reached empty
  | edit {g : TaskGraph} {e : Edit} (h : Reached g) (hnames : e.Names g) : Reached (g.after e)

/-- What one edit keeps. -/
theorem Simple.after (h : g.Simple) {e : Edit} (hnames : e.Names g) : (g.after e).Simple := by
  cases e with
  | addTask t sources =>
    obtain ⟨hsimple, hid, hfresh⟩ := h.addTask t
    refine hsimple.addDependencies hid ?_ hnames
    rintro v ⟨e, he, hsource, -⟩
    rw [edges_addTask] at he
    exact hfresh (hsource ▸ h.linked.source_mem e he)
  | addControlEdge source target => exact h.addControlEdge hnames.1 hnames.2
  | removeTask id =>
    show (if g.has id then g.removeTask id else g).Simple
    split
    · next hid => exact h.removeTask (mem_ids.2 hid)
    · exact h
  | removeEdge source target =>
    show (((g.removeEdge source target).map (·.2)).getD g).Simple
    rcases hremove : g.removeEdge source target with _ | ⟨kind, g'⟩
    · exact h
    · exact h.removeEdge hremove

/-- What every sequence of edits keeps. -/
theorem Reached.simple (h : Reached g) : g.Simple := by
  induction h with
  | empty => exact simple_empty
  | edit _ hnames ih => exact ih.after hnames

/-- After any edits there is no cycle and no pair is joined twice.  A control edge is then
added unless the pair is joined, and it is refused exactly if it would close a cycle. -/
theorem addControlEdge_of_reached (h : Reached g) :
    g.Acyclic ∧ (g.edges.map ends).Nodup ∧
    ∀ u ∈ g.ids, ∀ v ∈ g.ids,
      (∀ g', g.addControlEdge u v = .ok (true, g') ↔
        g' = (g.addEdge u v .control).2 ∧ ¬ g.Joins u v ∧ g'.Acyclic) ∧
      (∀ g', g.addControlEdge u v = .ok (false, g') ↔ g' = g ∧ g.Joins u v) ∧
      (∀ fault, g.addControlEdge u v = .error fault ↔
        fault = .broken (.closesCycle (g.name u) (g.name v)) ∧ ¬ g.Joins u v ∧
          ¬ (g.addEdge u v .control).2.Acyclic) ∧
      ((∃ fault, g.addControlEdge u v = .error fault) → g.after (.addControlEdge u v) = g) := by
  have hsimple := h.simple
  refine ⟨hsimple.acyclic, hsimple.nodup, fun u hu v hv => ?_⟩
  have hcloses := hsimple.acyclic.addEdge_iff (u := u) (v := v) .control
  rcases hsimple.linked.addControlEdge_cases (u := u) hv with ⟨hjoin, heq⟩ |
    ⟨hjoin, hleads, heq⟩ | ⟨hjoin, hleads, heq⟩
  · simp [heq, hjoin, eq_comm]
  · simp [heq, hjoin, hcloses, hleads, eq_comm, TaskGraph.after, Outcome.ofExcept]
  · simp [heq, hjoin, hcloses, hleads, eq_comm]

/-- Three tasks, of which the last takes the id of the first and waits for the second. -/
def recycled : TaskGraph :=
  (((empty.after (.addTask { name := "a", kind := .dma, buffers := [] } [])).after
    (.addTask { name := "b", kind := .dma, buffers := [] } [0])).after
    (.removeTask 0)).after (.addTask { name := "c", kind := .dma, buffers := [] } [1, 0])

theorem reached_recycled : Reached recycled :=
  .edit (.edit (.edit (.edit .empty (by decide)) (by decide)) (by decide)) (by decide)

/-- That the last task named itself was refused, and it waits for the second one all the same.
So a control edge to the second one is refused, against the order of the ids. -/
theorem addControlEdge_of_reached_recycled :
    Reached recycled ∧ recycled.Acyclic ∧
    recycled.addControlEdge 1 0 = .ok (false, recycled) ∧
    recycled.addControlEdge 0 1 = .error (.broken (.closesCycle "c" "b")) := by
  have hjoins : recycled.Joins 1 0 := by decide
  have hcloses : ¬ (recycled.addEdge 0 1 .control).2.Acyclic := by
    intro hac
    exact hac 0 (.tail (.single (joins_addEdge.2 (Or.inl ⟨rfl, rfl⟩)))
      (joins_addEdge.2 (Or.inr hjoins)))
  obtain ⟨hacyclic, -, hcontrol⟩ := addControlEdge_of_reached reached_recycled
  obtain ⟨-, hjoined, -, -⟩ := hcontrol 1 (by decide) 0 (by decide)
  obtain ⟨-, -, hrefused, -⟩ := hcontrol 0 (by decide) 1 (by decide)
  refine ⟨reached_recycled, hacyclic, (hjoined recycled).2 ⟨rfl, hjoins⟩, ?_⟩
  exact (hrefused _).2 ⟨rfl, by decide, hcloses⟩

end TaskLoom.TaskGraph
