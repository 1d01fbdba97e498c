import TaskLoom.Proofs.Graph.Edges
import TaskLoom.Proofs.Memory.Owners
import TaskLoom.Proofs.Timetable.Steps

/-!
# Ordering edges run forward in time

Every policy takes its pairs from two occupied steps, the earlier one first.  For the
policy that follows scratch memory this is because an owner claimed its bytes in an
earlier step.  The edges of a correct timetable run forward in time as well, so no
pair is ever refused, and the timetable stays correct for the graph with the new
edges.

Which pairs a policy takes does not depend on the edges.  So a second time it takes the
same pairs, and finds all of them joined.

Two policies join the tasks of consecutive steps.  This is enough to order the tasks that
they look at by time.

## Main results

* `forward_memoryPairs` — the memory of a task was used before.
* `forward_pairs` — the pairs of every policy run forward in time.
* `apply_spec` — a policy adds its edges, and the timetable keeps the new ones.
* `apply_again` — a second time it adds nothing.
* `apply_settles` — what a policy adds, keeps and tells.
* `apply_basic_sequences` — all tasks, or all that touch main memory, are put in order.
-/

namespace TaskLoom

namespace Timetable

variable {placements : List Placement}

/-- The tasks of a pair are placed, the first one earlier. -/
def Forward (placements : List Placement) (pair : Nat × Nat) : Prop :=
  ∃ p ∈ placements, ∃ q ∈ placements, pair = (p.task, q.task) ∧ p.time < q.time

theorem Forward.mono {few all : List Placement} {pair : Nat × Nat} (h : Forward few pair)
    (hsub : few ⊆ all) : Forward all pair := by
  obtain ⟨p, hp, q, hq, heq, hlt⟩ := h
  exact ⟨p, hsub hp, q, hsub hq, heq, hlt⟩

/-- Steps of a timetable in ascending order. -/
structure Ascending (placements : List Placement) (steps : List (Nat × List Placement)) :
    Prop where
  sorted : steps.Pairwise (·.1 < ·.1)
  placed : ∀ step ∈ steps, ∀ p ∈ step.2, p ∈ placements ∧ p.time = step.1

theorem Ascending.tail {step : Nat × List Placement} {rest : List (Nat × List Placement)}
    (h : Ascending placements (step :: rest)) : Ascending placements rest :=
  ⟨(List.pairwise_cons.1 h.sorted).2, fun other hother =>
    h.placed other (List.mem_cons_of_mem _ hother)⟩

theorem ascending_steps (placements : List Placement) :
    Ascending placements (steps placements) := by
  have hgroups := groups_steps placements
  refine ⟨hgroups.sorted, ?_⟩
  intro step hstep p hp
  rw [hgroups.eq_placedAt step hstep] at hp
  exact mem_placedAt.1 hp

/-! ## Consecutive steps -/

theorem forward_consecutivePairs (placements : List Placement) :
    ∀ pair ∈ consecutivePairs (steps placements), Forward placements pair := by
  rintro ⟨u, v⟩ hpair
  obtain ⟨p, q, hpq, rfl, rfl⟩ := mem_consecutivePairs.1 hpair
  exact ⟨p, hpq.left_mem, q, hpq.right_mem, rfl, hpq.lt⟩

/-! ## Scratch memory -/

/-- Every owner is a task that was placed before a time. -/
def OwnedBefore (placements : List Placement) (time : Nat) (owners : Owners) : Prop :=
  ∀ segment ∈ owners.segments, ∃ p ∈ placements, p.task = segment.owner ∧ p.time < time

theorem OwnedBefore.mono {owners : Owners} {time time' : Nat}
    (h : OwnedBefore placements time owners) (hle : time ≤ time') :
    OwnedBefore placements time' owners := by
  intro segment hsegment
  obtain ⟨p, hp, howner, hlt⟩ := h segment hsegment
  exact ⟨p, hp, howner, by omega⟩

/-- A claim makes one more task an owner. -/
theorem OwnedBefore.claim {owners : Owners} {time : Nat} (h : OwnedBefore placements time owners)
    {p : Placement} (hp : p ∈ placements) (hlt : p.time < time) (i : Interval) :
    OwnedBefore placements time (owners.claim i p.task) := by
  intro segment hsegment
  cases Owners.mem_segments_claim.1 hsegment with
  | inl hkept =>
    obtain ⟨s, hs, hout⟩ := hkept
    rw [Owners.owner_of_mem_outside hout]
    exact h s hs
  | inr hnew =>
    rw [hnew]
    exact ⟨p, hp, rfl, hlt⟩

theorem OwnedBefore.claimAll {owners : Owners} {time : Nat}
    (h : OwnedBefore placements time owners) {p : Placement} (hp : p ∈ placements)
    (hlt : p.time < time) : OwnedBefore placements time (Timetable.claimAll owners p) := by
  unfold Timetable.claimAll
  induction p.held generalizing owners with
  | nil => exact h
  | cons i rest ih => exact ih (h.claim hp hlt i)

/-- After a step its tasks are owners as well. -/
theorem OwnedBefore.foldl_claimAll {owners : Owners} {time : Nat} {ps : List Placement}
    (h : OwnedBefore placements time owners)
    (hps : ∀ p ∈ ps, p ∈ placements ∧ p.time < time) :
    OwnedBefore placements time (ps.foldl Timetable.claimAll owners) := by
  induction ps generalizing owners with
  | nil => exact h
  | cons p ps ih =>
    obtain ⟨⟨hp, hlt⟩, hrest⟩ := List.forall_mem_cons.1 hps
    exact ih (h.claimAll hp hlt) hrest

/-- The memory that a task takes was used in an earlier step. -/
theorem forward_reusePairs {owners : Owners} {p : Placement}
    (h : OwnedBefore placements p.time owners) (hp : p ∈ placements) :
    ∀ pair ∈ reusePairs owners p, Forward placements pair := by
  intro pair hpair
  obtain ⟨owner, howner, rfl⟩ := List.mem_map.1 hpair
  obtain ⟨i, -, hi⟩ := List.mem_flatMap.1 (IdSet.mem_ofList.1 howner)
  obtain ⟨segment, hsegment, rfl⟩ := List.mem_map.1 hi
  obtain ⟨q, hq, htask, hlt⟩ := h segment (List.mem_filter.1 hsegment).1
  exact ⟨q, hq, p, hp, by rw [htask], hlt⟩

theorem forward_memoryPairs {steps : List (Nat × List Placement)} {owners : Owners}
    (h : Ascending placements steps)
    (howners : ∀ step ∈ steps, OwnedBefore placements step.1 owners) :
    ∀ pair ∈ memoryPairs owners steps, Forward placements pair := by
  induction steps generalizing owners with
  | nil => simp [memoryPairs]
  | cons step rest ih =>
    intro pair hpair
    have hstep := h.placed step List.mem_cons_self
    rcases List.mem_append.1 hpair with hpair | hpair
    · obtain ⟨p, hp, hpair⟩ := List.mem_flatMap.1 hpair
      obtain ⟨hplaced, htime⟩ := hstep p hp
      refine forward_reusePairs ?_ hplaced pair hpair
      rw [htime]
      exact howners step List.mem_cons_self
    · refine ih h.tail ?_ pair hpair
      intro later hlater
      have hlt := (List.pairwise_cons.1 h.sorted).1 later hlater
      refine (howners later (List.mem_cons_of_mem _ hlater)).foldl_claimAll ?_
      intro p hp
      obtain ⟨hplaced, htime⟩ := hstep p hp
      exact ⟨hplaced, by omega⟩

end Timetable

/-! ## Policies -/

namespace OrderingPolicy

open Timetable

variable {g : TaskGraph} {placements : List Placement}

/-- The pairs of every policy run forward in time. -/
theorem forward_pairs (policy : OrderingPolicy) (g : TaskGraph) (placements : List Placement) :
    ∀ pair ∈ policy.pairs g placements, Forward placements pair := by
  cases policy with
  | none => simp [pairs]
  | basic => exact forward_consecutivePairs placements
  | basicNonCmx =>
    intro pair hpair
    exact (forward_consecutivePairs _ pair hpair).mono (List.filter_sublist.subset)
  | memoryAware =>
    exact forward_memoryPairs (ascending_steps placements) (by simp [OwnedBefore, Owners.empty])

/-- The pairs of a policy depend on the tasks of a graph, not on its edges. -/
theorem pairs_congr (policy : OrderingPolicy) {g' : TaskGraph} (htask : g'.task = g.task) :
    policy.pairs g' placements = policy.pairs g placements := by
  unfold pairs
  rw [htask]

/-- A policy adds its edges, and the timetable keeps the new ones as well. -/
theorem apply_spec (policy : OrderingPolicy) (hg : g.WellFormed) (h : Orders g placements) :
    ∃ count g', policy.apply g placements = .done count g' ∧
      g.Gains g' (policy.pairs g placements) count ∧ g'.WellFormed ∧ Orders g' placements := by
  have hpairs : ∀ pair ∈ policy.pairs g placements, pair.1 ∈ g.ids ∧ pair.2 ∈ g.ids ∧
      startOf placements pair.1 < startOf placements pair.2 := by
    intro pair hpair
    obtain ⟨p, hp, q, hq, rfl, hlt⟩ := policy.forward_pairs g placements pair hpair
    refine ⟨h.task_mem hp, h.task_mem hq, ?_⟩
    rwa [startOf_of_mem h.nodup hp, startOf_of_mem h.nodup hq]
  obtain ⟨count, g', hdone, hgains, hwf, hforward⟩ :=
    hg.addControlEdges_forward (fun u v => h.startOf_lt hg) _ hpairs
  refine ⟨count, g', hdone, hgains, hwf, ?_, ?_⟩
  · rw [hgains.ids_eq]
    exact h.perm
  · intro p hp q hq hpq
    have hlt := hforward _ _ hpq
    rwa [startOf_of_mem h.nodup hp, startOf_of_mem h.nodup hq] at hlt

/-- A policy that was applied finds all its pairs joined. -/
theorem apply_again (policy : OrderingPolicy) {g' : TaskGraph} {count : Nat}
    (hgains : g.Gains g' (policy.pairs g placements) count) :
    policy.apply g' placements = .done 0 g' := by
  unfold apply
  rw [policy.pairs_congr (TaskGraph.task_congr hgains.tasks_eq)]
  apply TaskGraph.addControlEdges_joined
  intro pair hpair
  exact (hgains.joins_iff pair.1 pair.2).2 (Or.inr hpair)

/-- Every policy succeeds and tells how many edges it added.  It keeps the tasks and all
edges, and adds one control edge for each of its pairs that was not joined.  All edges still
run forward in time, so there is no cycle, and the policy has nothing to add to the graph
that it leaves. -/
theorem apply_settles {g : TaskGraph} {placements : List Placement} (policy : OrderingPolicy)
    (hg : g.WellFormed) (h : Orders g placements) :
    ∃ added g', policy.apply g placements = .done added.length g' ∧
      g'.tasks = g.tasks ∧ g'.edges = added ++ g.edges ∧ (∀ e ∈ added, e.kind = .control) ∧
      (added.map TaskGraph.ends).Nodup ∧
      (∀ u v, (u, v) ∈ added.map TaskGraph.ends ↔
        (u, v) ∈ policy.pairs g placements ∧ ¬ g.Joins u v) ∧
      g'.WellFormed ∧ Orders g' placements ∧ g'.Acyclic ∧
      policy.apply g' placements = .done 0 g' := by
  obtain ⟨count, g', hdone, hgains, hwf, horders⟩ := policy.apply_spec hg h
  obtain ⟨added, rfl, hadds⟩ := TaskGraph.adds_of_done hdone
  exact ⟨added, g', hdone, hgains.tasks_eq, hadds.edges_eq, hadds.control, hadds.nodup,
    hadds.mem_iff, hwf, horders, horders.acyclic hwf, policy.apply_again hgains⟩

/-- The two tasks between load and store are put in order.  The other pairs of consecutive
steps are joined already, the first of them twice. -/
theorem apply_settles_diamond :
    let placements : List Placement :=
      [⟨4, 5, some ⟨2⟩, 1, []⟩, ⟨1, 1, some ⟨1⟩, 3, []⟩, ⟨0, 0, some ⟨1⟩, 1, []⟩,
        ⟨3, 2, Option.none, 0, []⟩]
    Orders TaskGraph.diamond placements ∧
      ∃ (added : List Edge) (g' : TaskGraph),
        OrderingPolicy.basic.apply TaskGraph.diamond placements = .done added.length g' ∧
        (1, 3) ∈ added.map TaskGraph.ends ∧ (0, 1) ∉ added.map TaskGraph.ends ∧
        g'.Acyclic ∧ OrderingPolicy.basic.apply g' placements = .done 0 g' := by
  intro placements
  have horders : Orders TaskGraph.diamond placements := by
    constructor <;> decide
  obtain ⟨added, g', hdone, -, -, -, -, hadded, -, -, hac, hagain⟩ :=
    OrderingPolicy.basic.apply_settles TaskGraph.wellFormed_diamond horders
  refine ⟨horders, added, g', hdone, ?_, ?_, hac, hagain⟩
  · exact (hadded 1 3).2 (by decide)
  · intro hmem
    exact ((hadded 0 1).1 hmem).2 (by decide)

/-! ## Steps one after the other -/

/-- A graph has gained control edges between the tasks of consecutive steps that were not
joined, and so has paths between the tasks of any two steps. -/
structure Sequences (considered : List Placement) (g g' : TaskGraph) (added : List Edge) :
    Prop where
  tasks_eq : g'.tasks = g.tasks
  edges_eq : g'.edges = added ++ g.edges
  control : ∀ e ∈ added, e.kind = .control
  added_iff : ∀ u v, (u, v) ∈ added.map TaskGraph.ends ↔
    (∃ p q, Consecutive considered p q ∧ p.task = u ∧ q.task = v) ∧ ¬ g.Joins u v
  before : ∀ p ∈ considered, ∀ q ∈ considered, p.time < q.time → g'.Before p.task q.task

/-- A policy that takes the pairs of consecutive steps puts these steps in order. -/
theorem sequences_of_pairs (policy : OrderingPolicy) (hg : g.WellFormed) (h : Orders g placements)
    {considered : List Placement}
    (hpairs : policy.pairs g placements = consecutivePairs (steps considered)) :
    ∃ added g', policy.apply g placements = .done added.length g' ∧
      Sequences considered g g' added := by
  obtain ⟨count, g', hdone, hgains, -, -⟩ := policy.apply_spec hg h
  obtain ⟨added, rfl, hadds⟩ := TaskGraph.adds_of_done hdone
  refine ⟨added, g', hdone, hgains.tasks_eq, hadds.edges_eq, hadds.control, ?_, ?_⟩
  · intro u v
    rw [hadds.mem_iff, hpairs, mem_consecutivePairs]
  · intro p hp q hq hlt
    apply before_of_time_lt _ hp hq hlt
    intro p q hpq
    apply (hgains.joins_iff _ _).2
    right
    rw [hpairs]
    exact mem_consecutivePairs.2 ⟨p, q, hpq, rfl, rfl⟩

/-- The policy for all tasks joins those of consecutive steps, and the other one does so
among the tasks that touch main memory.  Afterwards there is a path from each of these tasks
to all of them in later steps. -/
theorem apply_basic_sequences {g : TaskGraph} {placements : List Placement} (hg : g.WellFormed)
    (h : Orders g placements) :
    (∃ added g', OrderingPolicy.basic.apply g placements = .done added.length g' ∧
      Sequences placements g g' added) ∧
    ∃ added g', OrderingPolicy.basicNonCmx.apply g placements = .done added.length g' ∧
      Sequences (placements.filter fun p => (g.task p.task).touches .ddr) g g' added :=
  ⟨OrderingPolicy.basic.sequences_of_pairs hg h rfl,
    OrderingPolicy.basicNonCmx.sequences_of_pairs hg h rfl⟩

end OrderingPolicy

/-- Three tasks that touch main memory, of which the first two are joined, and one that does
not. -/
def TaskGraph.transfers : TaskGraph where
  tasks := #[
    some { name := "load", kind := .dma, buffers := [⟨"in", 16, .ddr, none⟩] },
    some { name := "work", kind := .compute 1, buffers := [⟨"t", 64, .cmx, none⟩] },
    some { name := "spill", kind := .dma,
           buffers := [⟨"s", 64, .cmx, none⟩, ⟨"d", 64, .ddr, none⟩] },
    some { name := "store", kind := .dma, buffers := [⟨"out", 32, .ddr, none⟩] }]
  edges := [⟨0, 0, 2, .data⟩]
  slotCount := 1

open Timetable in
/-- Both policies give a path from the first to the last task that touches main memory.  One
of them passes through the task between the first two, and the other needs one edge only. -/
theorem OrderingPolicy.apply_basic_sequences_transfers :
    let load : Placement := ⟨0, 0, some ⟨1⟩, 1, []⟩
    let work : Placement := ⟨1, 1, some ⟨1⟩, 1, []⟩
    let spill : Placement := ⟨2, 4, some ⟨2⟩, 1, []⟩
    let store : Placement := ⟨3, 9, some ⟨2⟩, 1, []⟩
    let placements := [store, load, spill, work]
    Orders TaskGraph.transfers placements ∧
      (∃ (added : List Edge) (g' : TaskGraph),
        OrderingPolicy.basic.apply TaskGraph.transfers placements = .done added.length g' ∧
        (0, 1) ∈ added.map TaskGraph.ends ∧ g'.Before 0 3) ∧
      ∃ (added : List Edge) (g' : TaskGraph),
        OrderingPolicy.basicNonCmx.apply TaskGraph.transfers placements =
          .done added.length g' ∧
        (2, 3) ∈ added.map TaskGraph.ends ∧ (0, 2) ∉ added.map TaskGraph.ends ∧
        g'.Before 0 3 := by
  intro load work spill store placements
  have hwf : TaskGraph.transfers.WellFormed := by
    constructor <;> decide
  have horders : Orders TaskGraph.transfers placements := by
    constructor <;> decide
  obtain ⟨⟨added, g', hdone, hall⟩, touched, g'', hdone', htouching⟩ :=
    OrderingPolicy.apply_basic_sequences hwf horders
  refine ⟨horders, ⟨added, g', hdone, ?_, ?_⟩, touched, g'', hdone', ?_, ?_, ?_⟩
  · apply (hall.added_iff 0 1).2
    exact ⟨⟨load, work, ⟨by decide, by decide, by decide, by decide⟩, rfl, rfl⟩, by decide⟩
  · exact hall.before load (by decide) store (by decide) (by decide)
  · apply (htouching.added_iff 2 3).2
    exact ⟨⟨spill, store, ⟨by decide, by decide, by decide, by decide⟩, rfl, rfl⟩, by decide⟩
  · intro hmem
    exact ((htouching.added_iff 0 2).1 hmem).2 (by decide)
  · exact htouching.before load (by decide) store (by decide) (by decide)

end TaskLoom
