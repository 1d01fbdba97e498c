import TaskLoom.Proofs.Barrier.Wiring
import TaskLoom.Proofs.Graph.Matching

/-!
# Wiring matching graphs

Who waits for a task is read off a graph by a search along its edges, and so is which
consumers lead to another.  Both searches only ask which tasks are joined, so a timetable is
wired alike for matching graphs.

## Main results

* `Matches.waiters_eq` — the same tasks wait for a task.
* `Matches.sealAll_eq` — the same barriers are sealed.
* `Matches.wire_eq` — the same barriers are left.
-/

namespace TaskLoom

open Wiring

variable {g g' : TaskGraph} {posting : List Nat}

/-- Who waits for a task, whether it is one of the graph or not. -/
theorem Wiring.mem_waiters_iff (hg : g.WellFormed) {u w : Nat} : w ∈ waiters g posting u ↔
    ∃ x, g.Joins u x ∧ Relation.ReflTransGen (Passes g posting) x w := by
  by_cases hu : u < g.tasks.size
  · exact mem_waiters hg hu
  · have hnone : ∀ x, x ∉ g.successorTable.getD u [] := by
      intro x
      rw [TaskGraph.successorTable, mem_foldl_modify]
      simp [hu]
    refine iff_of_false (fun hw => ?_) ?_
    · obtain ⟨x, hx, -⟩ := (explore_marks_iff _ _ _ _).1 (List.mem_filter.1 hw).2
      exact hnone x hx
    · rintro ⟨x, hx, -⟩
      exact hu (TaskGraph.lt_size_of_mem_ids (hg.joins_left hx))

namespace TaskGraph.Matches

theorem passes_eq (h : g.Matches g') : Passes g' posting = Passes g posting := by
  funext a b
  rw [Passes, Passes, propext (h.joins_iff a b)]

theorem waiters_eq (h : g.Matches g') (hg : g.WellFormed) (hg' : g'.WellFormed) :
    waiters g' posting = waiters g posting := by
  funext u
  refine (List.pairwise_lt_range.filter _).eq_of_mem_iff (List.pairwise_lt_range.filter _)
    fun w => ?_
  refine (mem_waiters_iff hg').trans (Iff.trans ?_ (mem_waiters_iff hg).symm)
  rw [h.passes_eq]
  exact exists_congr fun x => and_congr_left fun _ => h.joins_iff u x

/-! ## Sealing -/

theorem sealNext_eq (h : g.Matches g') (hg : g.WellFormed) (hg' : g'.WellFormed) :
    sealNext g' posting = sealNext g posting := by
  funext barriers u
  rw [sealNext, sealNext, h.waiters_eq hg hg']

theorem gather_eq (h : g.Matches g') (hg : g.WellFormed) (hg' : g'.WellFormed)
    (physical : BarrierId) (time task : Nat) (barriers : List VirtualBarrier)
    (gatherings : List Gathering) :
    gather g' posting physical time task barriers gatherings =
      gather g posting physical time task barriers gatherings := by
  induction gatherings with
  | nil => rfl
  | cons u rest ih => rw [gather, gather, h.sealNext_eq hg hg', ih]

/-- The same barriers are sealed for matching graphs. -/
theorem sealAll_eq (h : g.Matches g') (hg : g.WellFormed) (hg' : g'.WellFormed)
    (placements : List Placement) : sealAll g' placements = sealAll g placements := by
  have htake : take g' (Timetable.posting placements) = take g (Timetable.posting placements) := by
    funext w p
    simp only [take, h.gather_eq hg hg']
  rw [sealAll, sealAll, htake, h.sealNext_eq hg hg']

/-! ## Cleaning up -/

theorem neededConsumers_eq (h : g.Matches g') (hg : g.WellFormed) (hg' : g'.WellFormed)
    {consumers : List Nat} (hconsumers : ∀ c ∈ consumers, c ∈ g.ids) :
    VirtualBarrier.neededConsumers g' posting consumers =
      VirtualBarrier.neededConsumers g posting consumers := by
  have hconsumers' : ∀ c ∈ consumers, c ∈ g'.ids := h.ids_eq.symm ▸ hconsumers
  refine List.filter_congr fun c hc => ?_
  have hneeded : c ∈ VirtualBarrier.neededConsumers g' posting consumers ↔
      c ∈ VirtualBarrier.neededConsumers g posting consumers := by
    rw [VirtualBarrier.mem_neededConsumers hg' hconsumers',
      VirtualBarrier.mem_neededConsumers hg hconsumers, h.leads_eq]
  rw [VirtualBarrier.neededConsumers, VirtualBarrier.neededConsumers, List.mem_filter,
    List.mem_filter, and_iff_right hc, and_iff_right hc] at hneeded
  exact Bool.eq_iff_iff.2 hneeded

/-- The same barriers are left for matching graphs. -/
theorem wire_eq (h : g.Matches g') (hg : g.WellFormed) (hg' : g'.WellFormed)
    {placements : List Placement} (horders : Timetable.Orders g placements) :
    wire g' placements = wire g placements := by
  obtain ⟨hsealed, -⟩ := sealed_sealAll hg horders
  have hdrop : VirtualBarrier.dropConsumers g' (sealAll g placements) =
      VirtualBarrier.dropConsumers g (sealAll g placements) := by
    refine List.map_congr_left fun b hb => ?_
    rw [h.neededConsumers_eq hg hg' (hsealed.consumers_mem b hb)]
  rw [wire, wire, h.sealAll_eq hg hg', hdrop]

end TaskGraph.Matches

end TaskLoom
