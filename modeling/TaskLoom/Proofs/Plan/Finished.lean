import TaskLoom.Proofs.Plan
import TaskLoom.Proofs.Timetable.Rounding

/-!
# Finished plans

A plan that is handed out went through all stages, whatever the sizes of its tasks are:
its timetable is feasible for the graph that its barriers were wired for.  Nothing is
assumed of the input but that its numbers are words.

## Main results

* `boundPeak_done` — the graph whose peak was bounded is well formed, with the same tasks.
* `feasible_of_placeAll` — what was placed is a feasible timetable.
* `place_of_placeAll` — what was placed comes from one run of list scheduling.
* `make_eq_done`, `make_stages`, `make_done` — what a finished plan consists of.
-/

namespace TaskLoom

/-! ## Bounding the peak -/

/-- Control edges between tasks of a graph keep it well formed. -/
theorem TaskGraph.WellFormed.addControlEdges_done {g g' : TaskGraph} (hg : g.WellFormed)
    {pairs : List (Nat × Nat)} (hpairs : ∀ pair ∈ pairs, pair.1 ∈ g.ids ∧ pair.2 ∈ g.ids)
    {count : Nat} (h : g.addControlEdges pairs = .done count g') :
    g'.WellFormed ∧ g'.tasks = g.tasks := by
  induction pairs generalizing g count with
  | nil =>
    cases h
    exact ⟨hg, rfl⟩
  | cons pair pairs ih =>
    obtain ⟨⟨hsource, htarget⟩, hpairs⟩ := List.forall_mem_cons.1 hpairs
    cases TaskGraph.addControlEdges_cons_done h with
    | inl hold => exact ih hg hpairs hold.2
    | inr hnew =>
      obtain ⟨-, others, -, hrest⟩ := hnew
      obtain ⟨hwf, htasks⟩ := ih (hg.addEdge hsource htarget .control)
        (by simpa using hpairs) hrest
      exact ⟨hwf, htasks.trans (TaskGraph.tasks_addEdge _ _ _ _)⟩

namespace Serialiser

variable {s s' : Serialiser} {f : Frontier} {ids : List Nat}

theorem mem_ids_of_heaviest (h : s.heaviest = .ok f) : ∀ id ∈ f.tasks, id ∈ s.graph.ids := by
  unfold heaviest at h
  simp only [bind, Except.bind] at h
  split at h
  · cases h
  · split at h
    · cases h
    · split at h
      · cases h
      · split at h
        · cases h
        · split at h
          · cases h
            exact fun id hid => (List.mem_filter.1 hid).1
          · cases h

/-- The working copy has the tasks of the graph, and joins only those. -/
structure Confined (ids : List Nat) (s : Serialiser) : Prop where
  ids_eq : s.graph.ids = ids
  pending_mem : ∀ pair ∈ s.pending, pair.1 ∈ ids ∧ pair.2 ∈ ids

theorem Confined.orderPair (h : Confined ids s) (hf : ∀ id ∈ f.tasks, id ∈ ids)
    {pair : Nat × Nat} (hdone : s.orderPair f = .ok (pair, s')) : Confined ids s' := by
  unfold Serialiser.orderPair at hdone
  split at hdone
  · next first second rest hheaviest =>
    have hmem : ∀ id ∈ s.byWeight f.tasks, id ∈ ids := fun id hid =>
      hf id (List.mem_filter.1 ((List.mergeSort_perm _ _).mem_iff.1 hid)).1
    rw [hheaviest] at hmem
    have hfirst := hmem first List.mem_cons_self
    have hsecond := hmem second (List.mem_cons_of_mem _ List.mem_cons_self)
    generalize hchosen : (if s.rank first < s.rank second then (first, second)
      else (second, first)) = chosen at hdone
    have hboth : chosen.1 ∈ ids ∧ chosen.2 ∈ ids := by
      subst hchosen
      split
      · exact ⟨hfirst, hsecond⟩
      · exact ⟨hsecond, hfirst⟩
    simp only at hdone
    split at hdone
    · cases hdone
    · cases hdone
      refine ⟨(TaskGraph.ids_addEdge _ _ _ _).trans h.ids_eq, fun pair hpair => ?_⟩
      rcases List.mem_append.1 hpair with hpair | hpair
      · exact h.pending_mem pair hpair
      · obtain rfl := List.mem_singleton.1 hpair
        exact hboth
  · cases hdone

theorem Confined.serialiseRounds {observed : Bool} {rounds : Nat} {events events' :
      List FrontierEvent} (h : Confined ids s)
    (hdone : serialiseRounds observed rounds s events = .done f (s', events')) :
    Confined ids s' := by
  induction rounds generalizing s events with
  | zero =>
    unfold Serialiser.serialiseRounds at hdone
    split at hdone
    · cases hdone
    · simp only at hdone
      split at hdone
      · cases hdone
        exact h
      · split at hdone <;> cases hdone
  | succ rounds ih =>
    unfold Serialiser.serialiseRounds at hdone
    split at hdone
    · cases hdone
    · next frontier hmeasure =>
      simp only at hdone
      split at hdone
      · cases hdone
        exact h
      · split at hdone
        · cases hdone
        · split at hdone
          · cases hdone
          · next a b s₁ horder =>
            refine ih (h.orderPair (fun id hid => ?_) horder) hdone
            exact h.ids_eq ▸ mem_ids_of_heaviest hmeasure id hid

theorem Confined.serialise {observed : Bool} {events : List FrontierEvent} (h : Confined ids s)
    (hdone : s.serialise observed = .done f (s', events)) : Confined ids s' := by
  unfold Serialiser.serialise at hdone
  split at hdone
  · next hrounds =>
    cases hdone
    exact h.serialiseRounds hrounds
  · cases hdone

theorem confined_ofGraph {g : TaskGraph} {budget : Nat} (h : ofGraph g budget = .ok s) :
    Confined g.ids s := by
  unfold ofGraph at h
  simp only [bind, Except.bind] at h
  split at h
  · cases h
  · split at h
    · cases h
    · cases h
      exact ⟨rfl, by simp⟩

end Serialiser

/-- The pass over a graph adds control edges between its tasks. -/
theorem boundPeak_adds {g g' : TaskGraph} {observed : Bool} {budget : Nat} {peak : Frontier}
    {events : List FrontierEvent} (h : boundPeak observed budget g = .done peak (g', events)) :
    ∃ pairs count, (∀ pair ∈ pairs, pair.1 ∈ g.ids ∧ pair.2 ∈ g.ids) ∧
      g.addControlEdges pairs = .done count g' := by
  unfold boundPeak at h
  split at h
  · cases h
  · next s hs =>
    split at h
    · cases h
    · split at h
      · cases h
      · simp only at h
        split at h
        · cases h
        · next s₁ more hserialise =>
          have hconfined := (Serialiser.confined_ofGraph hs).serialise hserialise
          unfold Serialiser.commit at h
          split at h
          · cases h
          · next count s₂ g₁ hcommit =>
            have hadded : g.addControlEdges s₁.pending = .done count g₁ := by
              split at hcommit
              · next hadd =>
                cases hcommit
                exact hadd
              · cases hcommit
            have hsame : g' = g₁ := by
              unfold confirmPeak at h
              split at h
              · cases h
              · split at h
                · cases h
                · simp only at h
                  split at h <;> cases h
                  rfl
            exact ⟨s₁.pending, count, hconfined.pending_mem, hsame ▸ hadded⟩

/-- The pass over a graph keeps it well formed and leaves its tasks as they are. -/
theorem boundPeak_done {g g' : TaskGraph} (hg : g.WellFormed) {observed : Bool} {budget : Nat}
    {peak : Frontier} {events : List FrontierEvent}
    (h : boundPeak observed budget g = .done peak (g', events)) :
    g'.WellFormed ∧ g'.tasks = g.tasks := by
  obtain ⟨pairs, count, hpairs, hadded⟩ := boundPeak_adds h
  exact hg.addControlEdges_done hpairs hadded

namespace Plan

variable {g g' : TaskGraph} {settings : Settings} {placements : List Placement}

/-- The numbers of a graph and its settings are words. -/
structure Worded (settings : Settings) (g : TaskGraph) : Prop where
  wellFormed : g.WellFormed
  slots_lt : settings.slotsPerBarrier < Word.bound
  sizes_lt : ∀ id ∈ g.ids, ∀ size ∈ (g.task id).sizesIn .cmx, size < Word.bound

theorem Worded.of_tasks (h : Worded settings g) (hwf : g'.WellFormed)
    (htasks : g'.tasks = g.tasks) : Worded settings g' where
  wellFormed := hwf
  slots_lt := h.slots_lt
  sizes_lt := by
    rw [TaskGraph.ids_congr htasks, TaskGraph.task_congr htasks]
    exact h.sizes_lt

/-! ## Placing -/

theorem create_done {s : ListScheduler} (h : ListScheduler.create g settings = .ok s) :
    settings.validate = .ok () ∧ s.graph = g ∧ s.settings = settings := by
  unfold ListScheduler.create at h
  simp only [bind, Except.bind] at h
  split at h
  · cases h
  · next hvalid =>
    split at h
    · cases h
    · cases h
      exact ⟨hvalid, rfl, rfl⟩

theorem feasible_of_place (h : Worded settings g) {hints : Hints} {events : List ListingEvent}
    (hplace : place g settings hints = .done placements events) :
    Feasible g settings placements := by
  unfold place at hplace
  split at hplace
  · cases hplace
  · next s hcreate =>
    obtain ⟨hvalid, rfl, rfl⟩ := create_done hcreate
    simp only at hplace
    split at hplace
    · cases hplace
    · next hresult =>
      cases hplace
      exact @ListScheduler.feasible_of_done { s with hints } h.wellFormed hvalid h.slots_lt
        h.sizes_lt _ hresult

/-- Placing for prefetches keeps the timetable or is one more run of list scheduling. -/
theorem place_of_replace {limits : PrefetchLimits} {again : List Placement} {hinted : Nat}
    {reports : List StageReport}
    (hreplace : replace g settings limits placements = .done (again, hinted) reports) :
    again = placements ∨ ∃ hints events, place g settings hints = .done again events := by
  unfold replace at hreplace
  split at hreplace
  · cases hreplace
  · cases hreplace
    exact Or.inl rfl
  · simp only at hreplace
    split at hreplace
    · cases hreplace
    · next hplace =>
      cases hreplace
      exact Or.inr ⟨_, _, hplace⟩

/-- Placements are those of one run of list scheduling, by time step and task. -/
theorem place_of_placeAll {hinted : Nat} {reports : List StageReport}
    (hplace : placeAll g settings = .done (placements, hinted) reports) :
    ∃ found hints events, placements = Timetable.sorted found ∧
      place g settings hints = .done found events := by
  unfold placeAll at hplace
  split at hplace
  · cases hplace
  · next first events hfirst =>
    split at hplace
    · cases hplace
      exact ⟨first, [], events, rfl, hfirst⟩
    · split at hplace
      · cases hplace
      · next again hinted' reports' hreplace =>
        cases hplace
        rcases place_of_replace hreplace with rfl | ⟨hints, events', hagain⟩
        · exact ⟨again, [], events, rfl, hfirst⟩
        · exact ⟨again, hints, events', rfl, hagain⟩

/-- What was placed with success is a feasible timetable. -/
theorem feasible_of_placeAll (h : Worded settings g) {hinted : Nat} {reports : List StageReport}
    (hplace : placeAll g settings = .done (placements, hinted) reports) :
    Feasible g settings placements := by
  obtain ⟨found, hints, events, rfl, hfound⟩ := place_of_placeAll hplace
  exact (feasible_of_place h hfound).perm (Timetable.sorted_perm found).symm

/-! ## The whole run -/

/-- The stages of a run that ended with a plan: the peak of the graph is `bounded`, the tasks
are placed, the timetable is `ordered` by further edges, and the decisions are written. -/
structure Stages (settings : Settings) (g bounded ordered : TaskGraph) (plan : Plan)
    (run : PlanRun) : Prop where
  serialised : ∃ pairs count, g.addControlEdges pairs = .done count bounded
  serialisationEdges_eq : plan.serialisationEdges = bounded.controlCount - g.controlCount
  sorted : ∃ found, plan.placements = Timetable.sorted found
  joined : settings.ordering.apply bounded plan.placements = .done plan.orderingEdges ordered
  tasks_eq : ordered.tasks = g.tasks
  wellFormed : ordered.WellFormed
  feasible : Feasible ordered settings plan.placements
  barriers_eq : plan.barriers = wire ordered plan.placements
  makespan_eq : plan.makespan = Timetable.makespan plan.placements
  graph_eq : run.graph = writeDecisions ordered plan.placements plan.barriers

/-- What a finished plan was made of, stage by stage. -/
theorem make_eq_done {observed : Bool} {plan : Plan} {run : PlanRun}
    (hmake : make observed settings g = .done plan run) :
    ∃ bounded events reports ordered, settings.validate = .ok () ∧
      boundPeak observed settings.cmxSize g = .done plan.peak (bounded, events) ∧
      plan.serialisationEdges = bounded.controlCount - g.controlCount ∧
      placeAll bounded settings = .done (plan.placements, plan.prefetched) reports ∧
      settings.ordering.apply bounded plan.placements = .done plan.orderingEdges ordered ∧
      plan.barriers = wire ordered plan.placements ∧
      plan.makespan = Timetable.makespan plan.placements ∧
      run.graph = writeDecisions ordered plan.placements plan.barriers := by
  unfold make at hmake
  split at hmake
  · cases hmake
  · next hvalid =>
    split at hmake
    · cases hmake
    · next peak bounded events hbound =>
      simp only at hmake
      split at hmake
      · cases hmake
      · next placements prefetched reports hplace =>
        unfold complete at hmake
        split at hmake
        · cases hmake
        · next count ordered happly =>
          simp only at hmake
          split at hmake
          · cases hmake
          · cases hmake
            exact ⟨bounded, events, reports, ordered, hvalid, hbound, rfl, hplace, happly, rfl,
              rfl, rfl⟩

/-- A finished plan went through all stages. -/
theorem make_stages (h : Worded settings g) {observed : Bool} {plan : Plan} {run : PlanRun}
    (hmake : make observed settings g = .done plan run) :
    ∃ bounded ordered, Stages settings g bounded ordered plan run := by
  obtain ⟨bounded, events, reports, ordered, -, hbound, hedges, hplace, happly, hbarriers,
    hmakespan, hgraph⟩ := make_eq_done hmake
  obtain ⟨hwf, htasks⟩ := boundPeak_done h.wellFormed hbound
  obtain ⟨pairs, inserted, -, hadded⟩ := boundPeak_adds hbound
  obtain ⟨found, -, -, hsorted, -⟩ := place_of_placeAll hplace
  have hfeasible := feasible_of_placeAll (h.of_tasks hwf htasks) hplace
  obtain ⟨count, g₁, happly', hgains, hwf₁, horders⟩ :=
    settings.ordering.apply_spec hwf hfeasible.orders
  cases happly.symm.trans happly'
  exact ⟨bounded, ordered, ⟨pairs, inserted, hadded⟩, hedges, ⟨found, hsorted⟩, happly,
    hgains.tasks_eq.trans htasks, hwf₁, feasible_of_gains hgains horders hfeasible, hbarriers,
    hmakespan, hgraph⟩

/-- A finished plan has a feasible timetable of a graph and the barriers that were wired
for both. -/
theorem make_done (h : Worded settings g) {observed : Bool} {plan : Plan} {run : PlanRun}
    (hmake : make observed settings g = .done plan run) :
    ∃ g₁ : TaskGraph, g₁.WellFormed ∧ Feasible g₁ settings plan.placements ∧
      plan.barriers = wire g₁ plan.placements := by
  obtain ⟨_, ordered, hstages⟩ := make_stages h hmake
  exact ⟨ordered, hstages.wellFormed, hstages.feasible, hstages.barriers_eq⟩

end Plan

end TaskLoom
