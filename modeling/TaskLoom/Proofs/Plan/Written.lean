import TaskLoom.Proofs.Plan.Barriers
import TaskLoom.Proofs.Timetable.Delays
import TaskLoom.Proofs.Timetable.Hints

/-!
# What a plan leaves on its graph

Planning changes a graph in two ways: it adds control edges, and it writes its decisions on
the tasks.  The edges that were there stay as they are, and so does the work of the tasks.
The decisions are those of the plan, whatever was noted on the tasks before.

## Main results

* `task_writeDecisions` — the decisions on one task.
* `Stages.adds` — the edges that are added.
* `make_written` — how the graph and the plan agree.
-/

namespace TaskLoom

/-! ## Barriers of one task -/

section Barriers

variable {barriers : List VirtualBarrier}

open VirtualBarrier (waitsOf updatesOf)

theorem Timetable.Numbered.ascending (h : Timetable.Numbered barriers) :
    barriers.Pairwise (·.id < ·.id) := by
  refine List.pairwise_iff_getElem.2 fun i j hi hj hlt => ?_
  rw [h i _ (List.getElem?_eq_getElem hi), h j _ (List.getElem?_eq_getElem hj)]
  exact hlt

/-- Barriers that are picked from a numbered list keep their order. -/
theorem Timetable.Numbered.ascending_ids (h : Timetable.Numbered barriers)
    (picked : VirtualBarrier → Bool) :
    ((barriers.filter picked).map (·.id)).Pairwise (· < ·) :=
  List.pairwise_map.2 (h.ascending.filter picked)

theorem VirtualBarrier.mem_ids_filter (picked : VirtualBarrier → Bool) {id : Nat} :
    id ∈ (barriers.filter picked).map (·.id) ↔ ∃ b ∈ barriers, b.id = id ∧ picked b = true := by
  rw [List.mem_map]
  constructor
  · rintro ⟨b, hb, rfl⟩
    obtain ⟨hb, hpicked⟩ := List.mem_filter.1 hb
    exact ⟨b, hb, rfl, hpicked⟩
  · rintro ⟨b, hb, rfl, hpicked⟩
    exact ⟨b, List.mem_filter.2 ⟨hb, hpicked⟩, rfl⟩

theorem VirtualBarrier.mem_waitsOf {task id : Nat} :
    id ∈ waitsOf barriers task ↔ ∃ b ∈ barriers, b.id = id ∧ task ∈ b.consumers := by
  simp only [waitsOf, mem_ids_filter, List.contains_iff_mem]

theorem VirtualBarrier.mem_updatesOf {task id : Nat} :
    id ∈ updatesOf barriers task ↔ ∃ b ∈ barriers, b.id = id ∧ task ∈ b.producers := by
  simp only [updatesOf, mem_ids_filter, List.contains_iff_mem]

end Barriers

namespace Plan

variable {g bounded ordered : TaskGraph} {settings : Settings} {observed : Bool} {plan : Plan}
  {run : PlanRun} {barriers : List VirtualBarrier}

/-! ## Decisions -/

section Decisions

variable {entries : List (Placement × Nat)}

/-- Decisions on other tasks leave a task as it is. -/
theorem task_foldl_of_ne (hids : ∀ e ∈ entries, e.1.task ∈ g.ids) {id : Nat}
    (hne : ∀ e ∈ entries, e.1.task ≠ id) :
    (entries.foldl (writeDecision barriers) g).task id = g.task id := by
  induction entries generalizing g with
  | nil => rfl
  | cons entry rest ih =>
    obtain ⟨hentry, hids⟩ := List.forall_mem_cons.1 hids
    obtain ⟨hother, hne⟩ := List.forall_mem_cons.1 hne
    have hsame := (sameWork_writeDecision barriers entry.2 hentry).ids_eq
    rw [List.foldl_cons, ih (fun e he => hsame.symm ▸ hids e he) hne,
      task_writeDecision barriers entry.2 hentry, if_neg hother.symm]

/-- If no task is decided twice, each has the decision that was made for it. -/
theorem task_foldl_of_mem (hids : ∀ e ∈ entries, e.1.task ∈ g.ids)
    (hnodup : (entries.map (·.1.task)).Nodup) {e : Placement × Nat} (he : e ∈ entries) :
    (entries.foldl (writeDecision barriers) g).task e.1.task =
      decided barriers e.1 e.2 (g.task e.1.task) := by
  induction entries generalizing g with
  | nil => cases he
  | cons entry rest ih =>
    obtain ⟨hentry, hids⟩ := List.forall_mem_cons.1 hids
    obtain ⟨hfresh, hnodup⟩ := List.nodup_cons.1 hnodup
    have hsame := (sameWork_writeDecision barriers entry.2 hentry).ids_eq
    have hids' : ∀ e ∈ rest, e.1.task ∈ (writeDecision barriers g entry).ids :=
      fun e he => hsame.symm ▸ hids e he
    rw [List.foldl_cons]
    cases List.mem_cons.1 he with
    | inl heq =>
      have hne : ∀ e ∈ rest, e.1.task ≠ entry.1.task :=
        fun e he htask => hfresh (List.mem_map.2 ⟨e, he, htask⟩)
      rw [heq, task_foldl_of_ne hids' hne, task_writeDecision barriers entry.2 hentry, if_pos rfl]
    | inr hrest =>
      have hne : e.1.task ≠ entry.1.task :=
        fun htask => hfresh (List.mem_map.2 ⟨e, hrest, htask⟩)
      rw [ih hids' hnodup hrest, task_writeDecision barriers entry.2 hentry, if_neg hne]

end Decisions

/-- A placed task has its time step, its position in the timetable and its barriers. -/
theorem task_writeDecisions {placements : List Placement}
    (hids : ∀ p ∈ placements, p.task ∈ g.ids) (hnodup : (placements.map (·.task)).Nodup)
    {number : Nat} {p : Placement} (hp : placements[number]? = some p) :
    (writeDecisions g placements barriers).task p.task =
      decided barriers p number (g.task p.task) := by
  have hentries : placements.zipIdx.map (·.1.task) = placements.map (·.task) := by
    calc
      _ = (placements.zipIdx.map Prod.fst).map (·.task) := List.map_map.symm
      _ = _ := by rw [List.zipIdx_map_fst]
  have hentry : (p, number) ∈ placements.zipIdx := List.mem_zipIdx_iff_getElem?.2 hp
  refine task_foldl_of_mem (fun e he => hids e.1 ?_) (hentries ▸ hnodup) hentry
  exact List.mem_of_getElem? (List.mem_zipIdx_iff_getElem?.1 he)

/-! ## The graph of a finished plan -/

/-- The edges of both stages are new. -/
theorem Stages.adds (h : Stages settings g bounded ordered plan run) :
    ∃ pairs added, g.Adds ordered pairs added ∧
      added.length = plan.serialisationEdges + plan.orderingEdges := by
  obtain ⟨pairs, count, hserialised⟩ := h.serialised
  obtain ⟨first, -, hfirst⟩ := TaskGraph.adds_of_done hserialised
  obtain ⟨second, hsecond_length, hsecond⟩ := TaskGraph.adds_of_done h.joined
  have hfirst_length : plan.serialisationEdges = first.length := by
    rw [h.serialisationEdges_eq, TaskGraph.controlCount_append hfirst.edges_eq hfirst.control,
      Nat.add_sub_cancel]
  refine ⟨_, second ++ first, hfirst.trans hsecond, ?_⟩
  rw [List.length_append, hsecond_length, hfirst_length, Nat.add_comm]

theorem Stages.sameWork (h : Stages settings g bounded ordered plan run) :
    SameWork ordered run.graph := by
  rw [h.graph_eq]
  exact sameWork_writeDecisions (fun p hp => h.feasible.orders.task_mem hp) _

theorem Stages.task_eq (h : Stages settings g bounded ordered plan run) {number : Nat}
    {p : Placement} (hp : plan.placements[number]? = some p) :
    run.graph.task p.task = decided plan.barriers p number (g.task p.task) := by
  have horders := h.feasible.orders
  rw [h.graph_eq, task_writeDecisions (fun p hp => horders.task_mem hp) horders.nodup hp,
    TaskGraph.task_congr h.tasks_eq]

theorem Stages.ascending (h : Stages settings g bounded ordered plan run) :
    plan.placements.Pairwise Placement.Earlier := by
  obtain ⟨found, hsorted⟩ := h.sorted
  have hfeasible := h.feasible
  rw [hsorted] at hfeasible ⊢
  exact (hfeasible.perm (Timetable.sorted_perm found)).orders.ascending

theorem Stages.lt_makespan_iff (h : Stages settings g bounded ordered plan run) {time : Nat} :
    time < plan.makespan ↔ ∃ p ∈ plan.placements, time ≤ p.time := by
  obtain ⟨found, hsorted⟩ := h.sorted
  rw [h.makespan_eq, hsorted, Timetable.lt_makespan_sorted_iff]
  simp only [(Timetable.sorted_perm found).mem_iff]

/-- A finished plan and its graph agree.  The graph keeps its tasks and edges and gains the
control edges that the plan counts, each between tasks that were not joined.  The timetable
lists every task once, by time step and id.  A task keeps its work, and all else on it is
written anew: its time step, its position in the timetable, and the barriers that list it, in
ascending order.  Times and makespan are those of the timetable. -/
theorem make_written (h : Worded settings g) (hmake : make observed settings g = .done plan run) :
    (∃ added, run.graph.edges = added ++ g.edges ∧
      added.length = plan.serialisationEdges + plan.orderingEdges ∧
      (added.map TaskGraph.ends).Nodup ∧
      ∀ e ∈ added, e.kind = .control ∧ ¬ g.Joins e.source e.target) ∧
    run.graph.ids = g.ids ∧
    (plan.placements.map (·.task)).Perm g.ids ∧
    plan.placements.Pairwise (fun p q => p.time < q.time ∨ p.time = q.time ∧ p.task < q.task) ∧
    (∀ number p, plan.placements[number]? = some p → ∃ waits updates,
      run.graph.task p.task =
        { g.task p.task with time := some p.time, number := some number, waits, updates } ∧
      waits.Pairwise (· < ·) ∧
      (∀ id, id ∈ waits ↔ ∃ b ∈ plan.barriers, b.id = id ∧ p.task ∈ b.consumers) ∧
      updates.Pairwise (· < ·) ∧
      ∀ id, id ∈ updates ↔ ∃ b ∈ plan.barriers, b.id = id ∧ p.task ∈ b.producers) ∧
    (∀ id time, plan.timeOf? id = some time ↔
      ∃ p ∈ plan.placements, p.task = id ∧ p.time = time) ∧
    ∀ time, time < plan.makespan ↔ ∃ p ∈ plan.placements, time ≤ p.time := by
  obtain ⟨bounded, ordered, hstages⟩ := make_stages h hmake
  have horders := hstages.feasible.orders
  have hids : ordered.ids = g.ids := TaskGraph.ids_congr hstages.tasks_eq
  have hsame := hstages.sameWork
  have hnumbered : Timetable.Numbered plan.barriers := by
    rw [hstages.barriers_eq]
    exact (enforced_wire hstages.wellFormed horders).numbered
  refine ⟨?_, hsame.ids_eq.trans hids, hids ▸ horders.perm, hstages.ascending, ?_, ?_,
    fun time => hstages.lt_makespan_iff⟩
  · obtain ⟨pairs, added, hadds, hlength⟩ := hstages.adds
    refine ⟨added, hsame.edges_eq.trans hadds.edges_eq, hlength, hadds.nodup, fun e he => ?_⟩
    have hnew := (hadds.mem_iff e.source e.target).1 (List.mem_map_of_mem he)
    exact ⟨hadds.control e he, hnew.2⟩
  · intro number p hp
    exact ⟨_, _, hstages.task_eq hp, hnumbered.ascending_ids _,
      fun id => VirtualBarrier.mem_waitsOf, hnumbered.ascending_ids _,
      fun id => VirtualBarrier.mem_updatesOf⟩
  · exact fun id time => Timetable.timeOf?_eq_some_iff horders.nodup

/-- Two tasks that do not fit the memory together, and a third one.  The second task has notes
of an earlier plan. -/
def worn : TaskGraph where
  tasks := #[
    some { name := "a", kind := .dma, buffers := [⟨"x", 64, .cmx, none⟩] },
    some { name := "b", kind := .compute 1, buffers := [⟨"y", 64, .cmx, none⟩],
           time := some 9, number := some 7, waits := [5], updates := [5] },
    some { name := "c", kind := .dma }]

/-- Both stages add an edge to the sample, and the old notes are gone. -/
theorem make_written_worn :
    let settings : Settings := { cmxSize := 64, ordering := .basic }
    Worded settings worn ∧ ∃ plan run, make false settings worn = .done plan run ∧
      plan.serialisationEdges = 1 ∧ plan.orderingEdges = 1 ∧ run.graph.edges.length = 2 ∧
      (run.graph.task 1).number = some 2 ∧ 0 ∈ (run.graph.task 1).waits ∧
      (run.graph.task 1).updates = [] ∧ plan.timeOf? 1 = some 1 := by
  intro settings
  have hworded : Worded settings worn := ⟨by constructor <;> decide, by decide, by decide +kernel⟩
  have heval : ∃ plan run, make false settings worn = .done plan run ∧
      (plan.placements, plan.barriers, plan.serialisationEdges, plan.orderingEdges) =
        ([⟨0, 0, some ⟨1⟩, 1, [⟨0, 0, 64⟩]⟩, ⟨2, 0, some ⟨2⟩, 1, []⟩,
          ⟨1, 1, some ⟨1⟩, 1, [⟨0, 0, 64⟩]⟩], [⟨0, ⟨1⟩, [0, 2], [1]⟩], 1, 1) :=
    exists_done _ (by cbv)
  obtain ⟨plan, run, hmake, hparts⟩ := heval
  simp only [Prod.mk.injEq] at hparts
  obtain ⟨hplacements, hbarriers, hserialised, hordered⟩ := hparts
  obtain ⟨⟨added, hedges, hlength, -⟩, -, -, -, htasks, htimes, -⟩ := make_written hworded hmake
  rw [hplacements] at htimes htasks
  obtain ⟨waits, updates, htask, -, hwaits, -, hupdates⟩ := htasks 2 _ rfl
  rw [hbarriers] at hwaits hupdates
  refine ⟨hworded, plan, run, hmake, hserialised, hordered, ?_, ?_, ?_, ?_, ?_⟩
  · rw [hedges, List.length_append, hlength, hserialised, hordered]
    rfl
  · rw [htask]
  · rw [htask]
    exact (hwaits 0).2 ⟨_, List.mem_cons_self, rfl, by decide⟩
  · rw [htask]
    refine List.eq_nil_iff_forall_not_mem.2 fun id hid => ?_
    obtain ⟨b, hb, -, hmem⟩ := (hupdates id).1 hid
    rw [List.mem_singleton.1 hb] at hmem
    revert hmem
    decide
  · exact (htimes 1 1).2 (by decide)

end Plan

end TaskLoom
