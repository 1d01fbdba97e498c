import TaskLoom.Proofs.Graph.Paths

/-!
# Adding edges

What an added edge changes: it joins one more pair and nothing else.  A control
edge that runs forward under a number which grows along all edges is always
accepted, because a path against it would have to run backward.  So a list of
forward pairs can be added to the end, whatever is joined already.

Every operation that changes a graph leaves edges between tasks only.

## Main results

* `addControlEdge_forward` — a forward control edge is accepted.
* `addControlEdges_forward` — forward control edges are all accepted, and the
  graph gains exactly the pairs that were not joined.
* `adds_of_done` — each of these pairs gets one new edge.
* `Linked.addTask`, `Linked.addEdge`, `Linked.removeTask`, `Linked.removeEdge` —
  edges still join tasks after every change.
* `WellFormed.addEdge` — an edge between tasks keeps a graph well formed.
-/

namespace TaskLoom.TaskGraph

variable {g : TaskGraph}

/-! ## One edge -/

@[simp]
theorem tasks_addEdge (g : TaskGraph) (u v : Nat) (kind : Dependency) :
    (g.addEdge u v kind).2.tasks = g.tasks := by
  unfold addEdge
  split <;> rfl

@[simp]
theorem vacantIds_addEdge (g : TaskGraph) (u v : Nat) (kind : Dependency) :
    (g.addEdge u v kind).2.vacantIds = g.vacantIds := by
  unfold addEdge
  split <;> rfl

theorem edges_addEdge (g : TaskGraph) (u v : Nat) (kind : Dependency) :
    (g.addEdge u v kind).2.edges = ⟨(g.addEdge u v kind).1, u, v, kind⟩ :: g.edges := by
  unfold addEdge
  split <;> rfl

theorem joins_addEdge {u v : Nat} {kind : Dependency} {a b : Nat} :
    (g.addEdge u v kind).2.Joins a b ↔ (a = u ∧ b = v) ∨ g.Joins a b := by
  unfold Joins
  rw [edges_addEdge]
  simp only [List.mem_cons, exists_eq_or_imp]
  simp [eq_comm]

/-- Two graphs with the same tasks have the same ids. -/
theorem ids_congr {g' : TaskGraph} (h : g'.tasks = g.tasks) : g'.ids = g.ids := by
  unfold ids has task?
  rw [h]

/-- Two graphs with the same tasks have the same task under every id. -/
theorem task_congr {g' : TaskGraph} (h : g'.tasks = g.tasks) : g'.task = g.task := by
  funext id
  unfold task task?
  rw [h]

/-- Two graphs with the same tasks have the same tasks that post. -/
theorem posters_congr {g' : TaskGraph} (h : g'.tasks = g.tasks) : g'.posters = g.posters := by
  unfold posters
  rw [ids_congr h, task_congr h]

@[simp]
theorem ids_addEdge (g : TaskGraph) (u v : Nat) (kind : Dependency) :
    (g.addEdge u v kind).2.ids = g.ids :=
  ids_congr (tasks_addEdge g u v kind)

/-! ## Edges still join tasks -/

theorem linked_empty : empty.Linked where
  source_mem := by simp [empty]
  target_mem := by simp [empty]

theorem Linked.addEdge (hg : g.Linked) {u v : Nat} (hu : u ∈ g.ids) (hv : v ∈ g.ids)
    (kind : Dependency) : (g.addEdge u v kind).2.Linked := by
  constructor
  · rw [edges_addEdge, ids_addEdge]
    intro e he
    rcases List.mem_cons.1 he with rfl | he
    · exact hu
    · exact hg.source_mem e he
  · rw [edges_addEdge, ids_addEdge]
    intro e he
    rcases List.mem_cons.1 he with rfl | he
    · exact hv
    · exact hg.target_mem e he

theorem WellFormed.addEdge (hg : g.WellFormed) {u v : Nat} (hu : u ∈ g.ids) (hv : v ∈ g.ids)
    (kind : Dependency) : (g.addEdge u v kind).2.WellFormed :=
  (hg.linked.addEdge hu hv kind).wellFormed
    (by rw [posters_congr (tasks_addEdge g u v kind)]; exact hg.posters_lt)

/-- A change that keeps the edges and all ids in use keeps the edges between tasks. -/
theorem Linked.of_ids_subset {g' : TaskGraph} (hg : g.Linked)
    (hedges : ∀ e ∈ g'.edges, e ∈ g.edges)
    (hids : ∀ e ∈ g'.edges, ∀ id, id = e.source ∨ id = e.target → id ∈ g.ids → id ∈ g'.ids) :
    g'.Linked where
  source_mem e he := hids e he _ (Or.inl rfl) (hg.source_mem e (hedges e he))
  target_mem e he := hids e he _ (Or.inr rfl) (hg.target_mem e (hedges e he))

/-- An id stays in use when some id is given a task. -/
theorem has_setIfInBounds {g' : TaskGraph} {at' : Nat} {t : Task}
    (h : g'.tasks = g.tasks.setIfInBounds at' (some t)) {id : Nat} (hid : g.has id = true) :
    g'.has id = true := by
  have hlt := has_lt_size hid
  unfold has task? at hid ⊢
  rw [h, Array.getElem?_setIfInBounds]
  split
  · next heq => simp [heq, hlt]
  · exact hid

theorem task_setTask {id : Nat} (hid : id ∈ g.ids) (t : Task) (x : Nat) :
    (g.setTask id t).task x = if x = id then t else g.task x := by
  have hlt := lt_size_of_mem_ids hid
  unfold task task? TaskGraph.setTask
  by_cases heq : x = id
  · subst heq
    simp [hlt]
  · rw [if_neg heq, Array.getElem?_setIfInBounds_ne (Ne.symm heq)]

theorem ids_setTask {id : Nat} (hid : id ∈ g.ids) (t : Task) : (g.setTask id t).ids = g.ids := by
  have hsize : (g.setTask id t).tasks.size = g.tasks.size := by simp [TaskGraph.setTask]
  unfold ids
  rw [hsize]
  refine List.filter_congr fun x _ => ?_
  by_cases heq : x = id
  · subst heq
    rw [mem_ids.1 hid]
    exact has_setIfInBounds rfl (mem_ids.1 hid)
  · unfold has task? TaskGraph.setTask
    rw [Array.getElem?_setIfInBounds_ne (Ne.symm heq)]

/-- A new task takes the id that became vacant last. -/
theorem addTask_vacant {id : Nat} {rest : List Nat} (hvacant : g.vacantIds = id :: rest)
    (t : Task) :
    g.addTask t =
      (id, { g with tasks := g.tasks.setIfInBounds id (some t), vacantIds := rest }) := by
  unfold addTask
  rw [hvacant]

/-- If no id is vacant, a new task takes the next one. -/
theorem addTask_next (hvacant : g.vacantIds = []) (t : Task) :
    g.addTask t = (g.tasks.size, { g with tasks := g.tasks.push (some t) }) := by
  unfold addTask
  rw [hvacant]

@[simp]
theorem edges_addTask (g : TaskGraph) (t : Task) : (g.addTask t).2.edges = g.edges := by
  unfold addTask
  split <;> rfl

theorem has_addTask_of_has (t : Task) {id : Nat} (hid : g.has id = true) :
    (g.addTask t).2.has id = true := by
  unfold addTask
  split
  · exact has_setIfInBounds rfl hid
  · have hlt := has_lt_size hid
    unfold has task? at hid ⊢
    rw [Array.getElem?_push, if_neg (Nat.ne_of_lt hlt)]
    exact hid

theorem Linked.addTask (hg : g.Linked) (t : Task) : (g.addTask t).2.Linked := by
  refine hg.of_ids_subset (by simp) ?_
  intro e he x hx hmem
  exact mem_ids.2 (has_addTask_of_has t (mem_ids.1 hmem))

theorem mem_edges_removeTask {id : Nat} {e : Edge} :
    e ∈ (g.removeTask id).edges ↔ e ∈ g.edges ∧ e.source ≠ id ∧ e.target ≠ id := by
  simp [removeTask]

theorem has_removeTask {id x : Nat} (hne : x ≠ id) : (g.removeTask id).has x = g.has x := by
  unfold has task?
  rw [show (g.removeTask id).tasks = g.tasks.setIfInBounds id none from rfl,
    Array.getElem?_setIfInBounds_ne (Ne.symm hne)]

theorem Linked.removeTask (hg : g.Linked) (id : Nat) : (g.removeTask id).Linked := by
  refine hg.of_ids_subset (fun e he => (mem_edges_removeTask.1 he).1) ?_
  intro e he x hx hmem
  obtain ⟨-, hsource, htarget⟩ := mem_edges_removeTask.1 he
  have hne : x ≠ id := by
    rcases hx with rfl | rfl
    · exact hsource
    · exact htarget
  rw [mem_ids] at hmem ⊢
  rw [has_removeTask hne]
  exact hmem

/-- Removing an edge takes an edge of the pair out and keeps the tasks. -/
theorem removeEdge_eq_some {u v : Nat} {kind : Dependency} {g' : TaskGraph}
    (h : g.removeEdge u v = some (kind, g')) :
    ∃ e, g'.edges = g.edges.erase e ∧ g'.tasks = g.tasks ∧ g'.vacantIds = g.vacantIds := by
  obtain ⟨e, -, heq⟩ := Option.map_eq_some_iff.1 h
  obtain ⟨-, rfl⟩ := Prod.mk.inj heq
  exact ⟨e, rfl, rfl, rfl⟩

theorem Linked.removeEdge (hg : g.Linked) {u v : Nat} {kind : Dependency}
    {g' : TaskGraph} (h : g.removeEdge u v = some (kind, g')) : g'.Linked := by
  obtain ⟨e, hedges, htasks, -⟩ := removeEdge_eq_some h
  refine hg.of_ids_subset (fun e' he' => List.mem_of_mem_erase (hedges ▸ he')) ?_
  intro e' _ x _ hmem
  exact ids_congr htasks ▸ hmem

/-! ## Control edges -/

/-- A control edge between tasks that are not joined and not ordered the other way
is added. -/
theorem Linked.addControlEdge_new (hg : g.Linked) {u v : Nat} (hv : v ∈ g.ids)
    (hjoin : ¬ g.Joins u v) (hlead : ¬ g.Leads v u) :
    g.addControlEdge u v = .ok (true, (g.addEdge u v .control).2) := by
  have hdirect : ¬ (g.edge? u v).isSome = true := fun h => hjoin (edge?_isSome_iff.1 h)
  have hne : u ≠ v := by
    rintro rfl
    exact hlead .refl
  have hpath : ¬ g.hasPath v u = true := fun h => hlead ((hg.hasPath_iff hv).1 h)
  unfold addControlEdge
  rw [if_neg hdirect, if_neg (by simp [hne, hpath])]

/-- A control edge between joined tasks changes nothing. -/
theorem addControlEdge_joined {u v : Nat} (hjoin : g.Joins u v) :
    g.addControlEdge u v = .ok (false, g) := by
  unfold addControlEdge
  rw [if_pos (edge?_isSome_iff.2 hjoin)]

/-- Control edges between joined tasks change nothing. -/
theorem addControlEdges_joined {pairs : List (Nat × Nat)}
    (hjoins : ∀ p ∈ pairs, g.Joins p.1 p.2) : g.addControlEdges pairs = .done 0 g := by
  induction pairs with
  | nil => rfl
  | cons pair pairs ih =>
    obtain ⟨hjoin, hrest⟩ := List.forall_mem_cons.1 hjoins
    rw [addControlEdges, addControlEdge_joined hjoin]
    simp only
    rw [ih hrest]
    rfl

/-- A forward control edge is accepted: a path against it would run backward. -/
theorem WellFormed.addControlEdge_forward (hg : g.WellFormed) {rank : Nat → Nat}
    (hrank : ∀ a b, g.Joins a b → rank a < rank b) {u v : Nat} (hv : v ∈ g.ids)
    (hlt : rank u < rank v) (hjoin : ¬ g.Joins u v) :
    g.addControlEdge u v = .ok (true, (g.addEdge u v .control).2) := by
  refine hg.linked.addControlEdge_new hv hjoin ?_
  intro hlead
  rcases Relation.reflTransGen_iff_eq_or_transGen.1 hlead with rfl | hbefore
  · exact Nat.lt_irrefl _ hlt
  · exact Nat.lt_asymm hlt (Before.lt_of_rank hrank hbefore)

/-- What adding control edges leaves: the same tasks, and new control edges in
front of the old edges, which join the given pairs. -/
structure Gains (g g' : TaskGraph) (pairs : List (Nat × Nat)) (count : Nat) : Prop where
  tasks_eq : g'.tasks = g.tasks
  edges_eq : ∃ added : List Edge, g'.edges = added ++ g.edges ∧ added.length = count ∧
    ∀ e ∈ added, e.kind = .control ∧ (e.source, e.target) ∈ pairs
  joins_iff : ∀ a b, g'.Joins a b ↔ g.Joins a b ∨ (a, b) ∈ pairs

theorem Gains.nil (g : TaskGraph) : Gains g g [] 0 where
  tasks_eq := rfl
  edges_eq := ⟨[], rfl, rfl, by simp⟩
  joins_iff := by simp

/-- A new edge in front of further ones. -/
theorem Gains.cons_new {g' : TaskGraph} {u v : Nat} {pairs : List (Nat × Nat)} {count : Nat}
    (h : Gains (g.addEdge u v .control).2 g' pairs count) :
    Gains g g' ((u, v) :: pairs) (count + 1) := by
  obtain ⟨added, hedges, hcount, hadded⟩ := h.edges_eq
  rw [edges_addEdge] at hedges
  refine ⟨h.tasks_eq.trans (tasks_addEdge g u v _), ?_, ?_⟩
  · refine ⟨added ++ [⟨(g.addEdge u v .control).1, u, v, .control⟩], by simp [hedges],
      by simp [hcount], ?_⟩
    intro e he
    rcases List.mem_append.1 he with he | he
    · exact ⟨(hadded e he).1, List.mem_cons_of_mem _ (hadded e he).2⟩
    · obtain rfl := List.mem_singleton.1 he
      exact ⟨rfl, List.mem_cons_self⟩
  · intro a b
    rw [h.joins_iff, joins_addEdge, List.mem_cons, Prod.mk.injEq]
    tauto

/-- A pair that is joined already in front of further ones. -/
theorem Gains.cons_joined {g' : TaskGraph} {u v : Nat} {pairs : List (Nat × Nat)} {count : Nat}
    (hjoin : g.Joins u v) (h : Gains g g' pairs count) : Gains g g' ((u, v) :: pairs) count := by
  obtain ⟨added, hedges, hcount, hadded⟩ := h.edges_eq
  refine ⟨h.tasks_eq, ⟨added, hedges, hcount, ?_⟩, ?_⟩
  · intro e he
    exact ⟨(hadded e he).1, List.mem_cons_of_mem _ (hadded e he).2⟩
  · intro a b
    rw [h.joins_iff, List.mem_cons, Prod.mk.injEq]
    constructor
    · rintro (h | h)
      · exact Or.inl h
      · exact Or.inr (Or.inr h)
    · rintro (h | ⟨rfl, rfl⟩ | h)
      · exact Or.inl h
      · exact Or.inl hjoin
      · exact Or.inr h

theorem Gains.ids_eq {g' : TaskGraph} {pairs : List (Nat × Nat)} {count : Nat}
    (h : Gains g g' pairs count) : g'.ids = g.ids :=
  ids_congr h.tasks_eq

/-- Forward control edges are all accepted. -/
theorem WellFormed.addControlEdges_forward (hg : g.WellFormed) {rank : Nat → Nat}
    (hrank : ∀ a b, g.Joins a b → rank a < rank b) (pairs : List (Nat × Nat))
    (hpairs : ∀ p ∈ pairs, p.1 ∈ g.ids ∧ p.2 ∈ g.ids ∧ rank p.1 < rank p.2) :
    ∃ count g', g.addControlEdges pairs = .done count g' ∧ Gains g g' pairs count ∧
      g'.WellFormed ∧ ∀ a b, g'.Joins a b → rank a < rank b := by
  induction pairs generalizing g with
  | nil => exact ⟨0, g, rfl, .nil g, hg, hrank⟩
  | cons p pairs ih =>
    obtain ⟨u, v⟩ := p
    obtain ⟨hu, hv, hlt⟩ := hpairs (u, v) List.mem_cons_self
    have hrest : ∀ p ∈ pairs, p.1 ∈ g.ids ∧ p.2 ∈ g.ids ∧ rank p.1 < rank p.2 :=
      fun p hp => hpairs p (List.mem_cons_of_mem _ hp)
    by_cases hjoin : g.Joins u v
    · obtain ⟨count, g', hdone, hgains, hwf, hforward⟩ := ih hg hrank hrest
      refine ⟨count, g', ?_, hgains.cons_joined hjoin, hwf, hforward⟩
      simp [addControlEdges, addControlEdge_joined hjoin, hdone]
    · have hrank' : ∀ a b, (g.addEdge u v .control).2.Joins a b → rank a < rank b := by
        intro a b hab
        rcases joins_addEdge.1 hab with ⟨rfl, rfl⟩ | hab
        · exact hlt
        · exact hrank a b hab
      obtain ⟨count, g', hdone, hgains, hwf, hforward⟩ :=
        ih (hg.addEdge hu hv .control) hrank' (by simpa using hrest)
      refine ⟨count + 1, g', ?_, hgains.cons_new, hwf, hforward⟩
      simp [addControlEdges, hg.addControlEdge_forward hrank hv hlt hjoin, hdone]

/-! ## The new edges -/

/-- The tasks that an edge joins. -/
def ends (e : Edge) : Nat × Nat := (e.source, e.target)

/-- Control edges that were accepted: the first pair was joined, or it got an edge. -/
theorem addControlEdges_cons_done {g' : TaskGraph} {u v : Nat} {pairs : List (Nat × Nat)}
    {count : Nat} (h : g.addControlEdges ((u, v) :: pairs) = .done count g') :
    (g.Joins u v ∧ g.addControlEdges pairs = .done count g') ∨
      (¬ g.Joins u v ∧ ∃ others, count = others + 1 ∧
        (g.addEdge u v .control).2.addControlEdges pairs = .done others g') := by
  rw [addControlEdges] at h
  by_cases hjoin : g.Joins u v
  · rw [addControlEdge_joined hjoin] at h
    simp only at h
    split at h
    · next others last hrest =>
      cases h
      exact Or.inl ⟨hjoin, hrest⟩
    · cases h
  · have hdirect : ¬ (g.edge? u v).isSome = true := fun hedge => hjoin (edge?_isSome_iff.1 hedge)
    rw [addControlEdge, if_neg hdirect] at h
    by_cases hcycle : (u = v || g.hasPath v u) = true
    · rw [if_pos hcycle] at h
      cases h
    · rw [if_neg hcycle] at h
      simp only at h
      split at h
      · next others last hrest =>
        cases h
        exact Or.inr ⟨hjoin, others, rfl, hrest⟩
      · cases h

/-- The new edges are control edges in front of the old ones, one for each pair that was
not joined. -/
structure Adds (g g' : TaskGraph) (pairs : List (Nat × Nat)) (added : List Edge) : Prop where
  edges_eq : g'.edges = added ++ g.edges
  control : ∀ e ∈ added, e.kind = .control
  nodup : (added.map ends).Nodup
  mem_iff : ∀ u v, (u, v) ∈ added.map ends ↔ (u, v) ∈ pairs ∧ ¬ g.Joins u v

theorem Adds.cons_joined {g' : TaskGraph} {u v : Nat} {pairs : List (Nat × Nat)}
    {added : List Edge} (hjoin : g.Joins u v) (h : Adds g g' pairs added) :
    Adds g g' ((u, v) :: pairs) added where
  edges_eq := h.edges_eq
  control := h.control
  nodup := h.nodup
  mem_iff a b := by
    rw [h.mem_iff, List.mem_cons, Prod.mk.injEq]
    constructor
    · intro hab
      exact ⟨Or.inr hab.1, hab.2⟩
    · rintro ⟨⟨rfl, rfl⟩ | hab, hnot⟩
      · exact absurd hjoin hnot
      · exact ⟨hab, hnot⟩

/-- The first new edge is the last one in front of the old edges, and no later pair gets
one between the same tasks. -/
theorem Adds.cons_new {g' : TaskGraph} {u v : Nat} {pairs : List (Nat × Nat)}
    {added : List Edge} (hjoin : ¬ g.Joins u v)
    (h : Adds (g.addEdge u v .control).2 g' pairs added) :
    Adds g g' ((u, v) :: pairs)
      (added ++ [⟨(g.addEdge u v .control).1, u, v, .control⟩]) := by
  have hnew : (u, v) ∉ added.map ends := by
    intro hmem
    apply ((h.mem_iff u v).1 hmem).2
    exact joins_addEdge.2 (Or.inl ⟨rfl, rfl⟩)
  constructor
  · rw [h.edges_eq, edges_addEdge, List.append_assoc]
    rfl
  · intro e he
    rcases List.mem_append.1 he with he | he
    · exact h.control e he
    · rw [List.mem_singleton.1 he]
  · rw [List.map_append]
    refine List.nodup_append.2 ⟨h.nodup, by simp, ?_⟩
    intro pair hpair last hlast heq
    rw [heq, List.mem_singleton.1 hlast] at hpair
    exact hnew hpair
  · intro a b
    rw [List.map_append, List.mem_append, h.mem_iff, joins_addEdge, List.map_singleton,
      List.mem_singleton, List.mem_cons, ends, Prod.mk.injEq]
    constructor
    · rintro (⟨hab, hnot⟩ | ⟨rfl, rfl⟩)
      · exact ⟨Or.inr hab, fun hold => hnot (Or.inr hold)⟩
      · exact ⟨Or.inl ⟨rfl, rfl⟩, hjoin⟩
    · rintro ⟨hab, hnot⟩
      by_cases hsame : a = u ∧ b = v
      · exact Or.inr hsame
      · refine Or.inl ⟨hab.resolve_left hsame, ?_⟩
        intro hjoins
        cases hjoins with
        | inl hsame' => exact hsame hsame'
        | inr hold => exact hnot hold

/-- Control edges that were all accepted are one new edge for each pair that was not
joined. -/
theorem adds_of_done {g' : TaskGraph} {pairs : List (Nat × Nat)} {count : Nat}
    (h : g.addControlEdges pairs = .done count g') :
    ∃ added : List Edge, added.length = count ∧ Adds g g' pairs added := by
  induction pairs generalizing g count with
  | nil =>
    cases h
    exact ⟨[], rfl, rfl, by simp, .nil, by simp⟩
  | cons pair pairs ih =>
    obtain ⟨u, v⟩ := pair
    cases addControlEdges_cons_done h with
    | inl hold =>
      obtain ⟨added, hcount, hadds⟩ := ih hold.2
      exact ⟨added, hcount, hadds.cons_joined hold.1⟩
    | inr hnew =>
      obtain ⟨hjoin, others, rfl, hrest⟩ := hnew
      obtain ⟨added, hcount, hadds⟩ := ih hrest
      exact ⟨_, by simp [hcount], hadds.cons_new hjoin⟩

theorem Adds.joins_iff {g' : TaskGraph} {pairs : List (Nat × Nat)} {added : List Edge}
    (h : Adds g g' pairs added) {u v : Nat} :
    g'.Joins u v ↔ (u, v) ∈ added.map ends ∨ g.Joins u v := by
  simp only [Joins, h.edges_eq, List.mem_append, List.mem_map, ends, Prod.mk.injEq, or_and_right,
    exists_or]

/-- New edges that come in two turns are new edges. -/
theorem Adds.trans {g' g'' : TaskGraph} {pairs pairs' : List (Nat × Nat)}
    {first second : List Edge} (h : Adds g g' pairs first) (h' : Adds g' g'' pairs' second) :
    Adds g g'' (pairs ++ pairs') (second ++ first) := by
  constructor
  · rw [h'.edges_eq, h.edges_eq, List.append_assoc]
  · intro e he
    cases List.mem_append.1 he with
    | inl hsecond => exact h'.control e hsecond
    | inr hfirst => exact h.control e hfirst
  · rw [List.map_append]
    refine List.nodup_append.2 ⟨h'.nodup, h.nodup, ?_⟩
    rintro ⟨u, v⟩ hsecond pair hfirst rfl
    exact ((h'.mem_iff u v).1 hsecond).2 (h.joins_iff.2 (Or.inl hfirst))
  · intro u v
    have hjoins := @Adds.joins_iff _ _ _ _ h u v
    rw [List.map_append, List.mem_append, List.mem_append, h'.mem_iff, hjoins, h.mem_iff]
    tauto

/-- New control edges are counted. -/
theorem controlCount_append {g' : TaskGraph} {added : List Edge}
    (hedges : g'.edges = added ++ g.edges) (hcontrol : ∀ e ∈ added, e.kind = .control) :
    g'.controlCount = added.length + g.controlCount := by
  have hall : added.countP (·.kind == .control) = added.length :=
    List.countP_eq_length.2 fun e he => by simp [hcontrol e he]
  rw [controlCount, hedges, List.countP_append, hall]
  rfl

/-! ## A sample -/

/-- A load, two tasks beside each other and a store.  One pair is joined twice, and
one id is vacant. -/
def diamond : TaskGraph where
  tasks := #[
    some { name := "load", kind := .dma, buffers := [⟨"in", 100, .cmx, none⟩] },
    some { name := "left", kind := .compute 3,
           buffers := [⟨"l", 64, .cmx, none⟩, ⟨"k", 8, .cmx, none⟩] },
    none,
    some { name := "right", kind := .control, buffers := [⟨"r", 0, .cmx, none⟩] },
    some { name := "store", kind := .dma, buffers := [⟨"out", 32, .ddr, none⟩] }]
  vacantIds := [2]
  edges := [⟨4, 3, 4, .control⟩, ⟨3, 1, 4, .data⟩, ⟨2, 0, 1, .data⟩, ⟨1, 0, 3, .data⟩,
    ⟨0, 0, 1, .data⟩]
  slotCount := 5

theorem wellFormed_diamond : diamond.WellFormed := by
  constructor <;> decide

theorem acyclic_diamond : diamond.Acyclic :=
  Acyclic.of_forward (by decide)

end TaskLoom.TaskGraph
