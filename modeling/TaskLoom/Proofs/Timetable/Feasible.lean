import TaskLoom.Proofs.Graph.Edges
import TaskLoom.Proofs.Graph.Order
import TaskLoom.Proofs.Timetable.Listing

/-!
# Timetables that the list scheduler returns

At the end of a step all its tasks give back what they hold, so the next one starts
with empty hardware.  Every step places a task or the run is stuck, so a run ends
with every task placed, or with nothing running and tasks set aside that do not fit
the hardware alone.

## Main results

* `retireAll_spec`, `advance_spec` — the end of a step.
* `runSteps_spec`, `schedule_spec` — how a run ends.
* `schedule_done`, `Stuck.refused` — when all tasks are placed, and when none can be.
* `schedule_feasible` — a timetable that is returned is feasible.
-/

namespace TaskLoom

/-- A timetable that places every task once, after its predecessors, with what the
task needs, in steps that fit the hardware. -/
structure Feasible (g : TaskGraph) (settings : Settings) (placements : List Placement) : Prop where
  orders : Timetable.Orders g placements
  fits : ∀ p ∈ placements, p.Fits settings (g.task p.task)
  steps : ∀ time, StepFits settings (Timetable.placedAt placements time)

/-- The order in which decisions are listed plays no part. -/
theorem Feasible.perm {g : TaskGraph} {settings : Settings} {ps qs : List Placement}
    (h : Feasible g settings ps) (hperm : ps.Perm qs) : Feasible g settings qs where
  orders := ⟨(hperm.map _).symm.trans h.orders.perm, fun p hp q hq =>
    h.orders.forward p (hperm.mem_iff.2 hp) q (hperm.mem_iff.2 hq)⟩
  fits p hp := h.fits p (hperm.mem_iff.2 hp)
  steps time := (h.steps time).perm (hperm.filter _)

namespace ListScheduler

open Timetable (placedAt)

variable {s : ListScheduler} {r r' : Run}

/-! ## The end of a step -/

/-- The tasks that have not given back what they hold. -/
structure Ending (s : ListScheduler) (left : List Placement) (r : Run) : Prop where
  memory : r.memory.Holds (liveRanges left)
  capacity_eq : r.memory.capacity = s.settings.cmxSize
  alignment_eq : r.memory.alignment = s.settings.alignment
  barriers : r.barriers.Balanced s.graph.posters.length
  held_perm : r.barriers.held.Perm (left.filterMap Placement.holding?)
  count_eq : r.barriers.pool.count = s.settings.barrierCount
  slots_eq : r.barriers.pool.maxSlots = s.settings.slotsPerBarrier

/-- A placed task returns the slots that it holds, if it holds any. -/
theorem Ending.release (hslots : s.settings.slotsPerBarrier < Word.bound) {p : Placement}
    {left : List Placement}
    (h : Ending s (p :: left) r) (hother : p.task ∉ left.map (·.task)) :
    ∃ returned barriers, r.barriers.release p.task = .ok (returned, barriers) ∧
      barriers.Balanced s.graph.posters.length ∧
      barriers.held.Perm (left.filterMap Placement.holding?) ∧
      barriers.pool.count = s.settings.barrierCount ∧
      barriers.pool.maxSlots = s.settings.slotsPerBarrier := by
  have hperm := h.held_perm
  cases hbarrier : p.barrier with
  | none =>
    have hnone : p.holding? = none := by simp [Placement.holding?, Run.holding, hbarrier]
    rw [List.filterMap_cons_none hnone] at hperm
    have hfree : r.barriers.find? p.task = none := by
      rw [Holdings.find?_eq_none_iff]
      intro hmem
      obtain ⟨x, hx, hxtask⟩ := List.mem_map.1 hmem
      obtain ⟨q, hq, hholding⟩ := List.mem_filterMap.1 (hperm.mem_iff.1 hx)
      obtain ⟨b, -, rfl⟩ := Option.map_eq_some_iff.1 hholding
      exact hother (List.mem_map.2 ⟨q, hq, hxtask⟩)
    exact ⟨false, r.barriers, by simp [Holdings.release, hfree], h.barriers, hperm, h.count_eq,
      h.slots_eq⟩
  | some b =>
    have hsome : p.holding? = some (p.task, ⟨b, p.slots⟩) := by
      simp [Placement.holding?, Run.holding, hbarrier]
    rw [List.filterMap_cons_some hsome] at hperm
    have hmem : (p.task, (⟨b, p.slots⟩ : Holding)) ∈ r.barriers.held :=
      hperm.mem_iff.2 List.mem_cons_self
    obtain ⟨barriers, hrelease, hbalanced, hheld, hmax, hcount⟩ :=
      h.barriers.release (h.slots_eq ▸ hslots) hmem
    refine ⟨true, barriers, hrelease, hbalanced, ?_, hcount.trans h.count_eq, hmax.trans h.slots_eq⟩
    rw [hheld]
    exact ((Holdings.perm_cons_filter h.barriers.nodup hmem).symm.trans hperm).cons_inv

/-- Ending tasks leaves what the others hold. -/
theorem retireAll_spec (hslots : s.settings.slotsPerBarrier < Word.bound) (left : List Placement)
    (h : Ending s left r)
    (hfits : ∀ p ∈ left, p.Fits s.settings (s.graph.task p.task))
    (hnodup : (left.map (·.task)).Nodup) (hsize : r.retired.size = s.graph.tasks.size)
    (hids : ∀ p ∈ left, p.task ∈ s.graph.ids) :
    ∃ r', retireAll left r = .done () r' ∧ Ending s [] r' ∧ r'.retired.size = s.graph.tasks.size ∧
      (∀ id, r'.retired.getD id false = true ↔
        r.retired.getD id false = true ∨ id ∈ left.map (·.task)) ∧
      r'.placements = r.placements ∧ r'.deferred = r.deferred ∧ r'.time = r.time := by
  induction left generalizing r with
  | nil => exact ⟨r, rfl, h, hsize, by simp, rfl, rfl, rfl⟩
  | cons p left ih =>
    obtain ⟨hp, hfits⟩ := List.forall_mem_cons.1 hfits
    obtain ⟨hpid, hids⟩ := List.forall_mem_cons.1 hids
    rw [List.map_cons, List.nodup_cons] at hnodup
    obtain ⟨hother, hnodup⟩ := hnodup
    have hlive : r.memory.Holds (heldRanges p.ranges ++ liveRanges left) := h.memory
    obtain ⟨memory, hgive, hholds, hcapacity, halignment⟩ :=
      Run.giveBack_spec (fun i hi => hp.start_le hi) hlive
    obtain ⟨returned, barriers, hrelease, hbalanced, hheld, hcount, hmax⟩ :=
      h.release hslots hother
    let r₁ : Run := { r.enter p.task .retired with
      memory, barriers, retired := r.retired.setIfInBounds p.task true }
    have hretire : retire p r = .done () r₁ := by
      simp only [retire, hgive, hrelease]
      rfl
    have hending : Ending s left r₁ :=
      ⟨hholds, hcapacity.trans h.capacity_eq, halignment.trans h.alignment_eq, hbalanced, hheld,
        hcount, hmax⟩
    have hlt : p.task < r.retired.size := by
      rw [hsize]
      exact TaskGraph.lt_size_of_mem_ids hpid
    obtain ⟨r', hdone, hend, hsize', hretired, hplacements, hdeferred, htime⟩ :=
      ih hending hfits hnodup (by simpa [r₁] using hsize) hids
    refine ⟨r', by simp only [retireAll, hretire, hdone], hend, hsize', ?_, hplacements, hdeferred,
      htime⟩
    intro id
    have hset : r₁.retired.getD id false = true ↔
        r.retired.getD id false = true ∨ id = p.task := by
      by_cases heq : id = p.task
      · subst heq
        simp [r₁, hlt]
      · simp [r₁, heq, Ne.symm heq]
    rw [hretired id, hset, List.map_cons, List.mem_cons]
    tauto

/-- At the end of a step everything is given back. -/
theorem advance_spec (hslots : s.settings.slotsPerBarrier < Word.bound) (h : Sound s r)
    (hnodup : (r.placements.map (·.task)).Nodup) :
    ∃ r', advance r = .done () r' ∧ Sound s r' ∧ r'.running = [] ∧
      r'.placements = r.placements ∧ r'.deferred = r.deferred ∧ r'.time = r.time + 1 := by
  have hperm : (r.running.mergeSort (·.task ≤ ·.task)).Perm r.running := List.mergeSort_perm _ _
  have hmem : ∀ p, p ∈ r.running.mergeSort (·.task ≤ ·.task) ↔
      p ∈ r.placements ∧ p.time = r.time := by
    intro p
    rw [hperm.mem_iff, h.running_eq]
    simp [placedAt]
  have hending :
      Ending s (r.running.mergeSort (·.task ≤ ·.task)) { r with time := r.time + 1 } := by
    refine ⟨h.memory.perm (hperm.symm.flatMap_right _), h.capacity_eq, h.alignment_eq, h.barriers,
      h.held_perm.trans (hperm.symm.filterMap _), h.count_eq, h.slots_eq⟩
  have hnodup' : ((r.running.mergeSort (·.task ≤ ·.task)).map (·.task)).Nodup := by
    rw [(hperm.map _).nodup_iff, h.running_eq]
    exact hnodup.sublist (List.filter_sublist.map _)
  obtain ⟨r₁, hdone, hend, hsize, hretired, hplacements, hdeferred, htime⟩ :=
    retireAll_spec hslots _ hending (fun p hp => h.fits p ((hmem p).1 hp).1) hnodup' h.retired_size
      fun p hp => h.task_mem p ((hmem p).1 hp).1
  have hplacements : r₁.placements = r.placements := hplacements
  have htime : r₁.time = r.time + 1 := htime
  have hpast : ∀ p ∈ r.placements, p.time < r.time + 1 := fun p hp =>
    Nat.lt_succ_of_le (h.time_le p hp)
  have hempty : placedAt r.placements (r.time + 1) = [] := by
    refine List.filter_eq_nil_iff.2 fun p hp => ?_
    have hlt := hpast p hp
    simp only [beq_iff_eq]
    omega
  refine ⟨{ r₁ with running := [] }, by simp only [advance, hdone],
    ⟨hend.memory, hend.capacity_eq, hend.alignment_eq, hend.barriers, hend.held_perm, hend.count_eq,
      hend.slots_eq, ?_, ?_, ?_, hsize, ?_, ?_, ?_, ?_⟩, rfl, hplacements, hdeferred, htime⟩
  · show [] = placedAt r₁.placements r₁.time
    rw [hplacements, htime, hempty]
  · show ∀ p ∈ r₁.placements, p.time ≤ r₁.time
    rw [hplacements, htime]
    exact fun p hp => Nat.le_of_lt (hpast p hp)
  · show ∀ p ∈ r₁.placements, p.task ∈ s.graph.ids
    rw [hplacements]
    exact h.task_mem
  · intro id
    show r₁.retired.getD id false = true ↔ ∃ p ∈ r₁.placements, p.task = id ∧ p.time < r₁.time
    rw [hretired id, hplacements, htime]
    simp only [h.retired_iff id, List.mem_map, hmem]
    constructor
    · rintro (⟨p, hp, hpid, hlt⟩ | ⟨p, ⟨hp, hptime⟩, hpid⟩)
      · exact ⟨p, hp, hpid, by omega⟩
      · exact ⟨p, hp, hpid, by omega⟩
    · rintro ⟨p, hp, hpid, hlt⟩
      by_cases hnow : p.time = r.time
      · exact Or.inr ⟨p, ⟨hp, hnow⟩, hpid⟩
      · exact Or.inl ⟨p, hp, hpid, by omega⟩
  · show ∀ p ∈ r₁.placements, p.Fits s.settings (s.graph.task p.task)
    rw [hplacements]
    exact h.fits
  · intro time
    show StepFits s.settings (placedAt r₁.placements time)
    rw [hplacements]
    exact h.steps time
  · show ∀ p ∈ r₁.placements, ∀ u, s.graph.Joins u p.task →
      ∃ q ∈ r₁.placements, q.task = u ∧ q.time < p.time
    rw [hplacements]
    exact h.predecessors

/-! ## The whole run -/

/-- Between two steps: nothing runs and nothing is set aside, every task is placed,
ready or waiting, and a waiting task has a predecessor that is not placed. -/
structure Between (s : ListScheduler) (waiting ready : List Nat) (r : Run) : Prop where
  sound : Sound s r
  idle : r.running = []
  none_aside : r.deferred = []
  perm : (r.placements.map (·.task) ++ waiting ++ ready).Perm s.graph.ids
  ready : ∀ task ∈ ready, ∀ u, s.graph.Joins u task →
    ∃ q ∈ r.placements, q.task = u ∧ q.time < r.time
  waits : ∀ task ∈ waiting, ∃ u, s.graph.Joins u task ∧ u ∉ r.placements.map (·.task)

/-- A run that cannot go on: nothing runs, what is set aside does not fit the hardware
alone, and the other tasks that are left wait for one that is left. -/
structure Stuck (s : ListScheduler) (r : Run) : Prop where
  sound : Sound s r
  idle : r.running = []
  mem_ids : ∀ task ∈ r.deferred, task ∈ s.graph.ids
  unfit : ∀ task ∈ r.deferred, ¬ (s.graph.task task).FitsAlone s.settings
  some_aside : s.graph.Acyclic → r.deferred ≠ []
  waits : ∀ task ∈ s.graph.ids, task ∉ r.placements.map (·.task) → task ∈ r.deferred ∨
    ∃ u, s.graph.Joins u task ∧ u ∉ r.placements.map (·.task)

/-- With nothing running, all that is placed has finished. -/
theorem Sound.time_lt_of_idle (h : Sound s r) (hidle : r.running = []) {p : Placement}
    (hp : p ∈ r.placements) : p.time < r.time := by
  have hle := h.time_le p hp
  have hne : p.time ≠ r.time := by
    intro heq
    have hnone : p ∈ placedAt r.placements r.time := List.mem_filter.2 ⟨hp, by simpa using heq⟩
    rw [← h.running_eq, hidle] at hnone
    cases hnone
  omega

theorem Between.awaits {waiting ready : List Nat} (h : Between s waiting ready r) :
    Awaits s r ready := by
  refine ⟨?_, ?_, h.ready⟩
  · have hnodup := h.perm.nodup_iff.2 s.graph.nodup_ids
    rw [h.none_aside, List.append_nil]
    refine hnodup.sublist ?_
    rw [List.append_assoc]
    exact (List.sublist_append_right waiting ready).append_left _
  · intro task htask
    exact h.perm.mem_iff.1 (List.mem_append_right _ htask)

/-- Without cycles, something is ready as long as something waits. -/
theorem Between.ready_ne_nil {waiting ready : List Nat} (h : Between s waiting ready r)
    (hg : s.graph.WellFormed) (hacyclic : s.graph.Acyclic) (hne : waiting ≠ []) :
    ready ≠ [] := by
  rintro rfl
  obtain ⟨v, hv, hmin⟩ := hacyclic.exists_minimal hne
  obtain ⟨u, huv, hu⟩ := h.waits v hv
  have hmem := h.perm.mem_iff.2 (hg.joins_left huv)
  simp only [List.append_nil, List.mem_append] at hmem
  exact hmin u (hmem.resolve_left hu) huv

/-- If a filled step runs nothing, the run is stuck. -/
theorem Between.stuck {waiting ready : List Nat} (h : Between s waiting ready r)
    (hg : s.graph.WellFormed) (hne : waiting ≠ [] ∨ ready ≠ []) (hfills : Fills s ready r r')
    (hidle : r'.running = []) : Stuck s r' := by
  refine ⟨hfills.sound, hidle, ?_, ?_, ?_, ?_⟩
  · intro task htask
    have hmem := hfills.perm.mem_iff.1 (List.mem_append_right _ htask)
    rw [h.none_aside, List.append_nil] at hmem
    refine h.perm.mem_iff.1 ?_
    rcases List.mem_append.1 hmem with hmem | hmem
    · exact List.mem_append_left _ (List.mem_append_left _ hmem)
    · exact List.mem_append_right _ hmem
  · intro task htask
    rcases hfills.unfit hidle task htask with hmem | hunfit
    · rw [h.none_aside] at hmem
      cases hmem
    · exact hunfit
  · intro hacyclic
    have hready : ready ≠ [] := hne.elim (h.ready_ne_nil hg hacyclic) id
    exact (hfills.settles hready).resolve_left fun hruns => hruns hidle
  · intro task htask hleft
    -- nothing was placed in this step, so whoever waited for a task waits for it still
    have hsame : ∀ u, u ∉ r.placements.map (·.task) → u ∉ r'.placements.map (·.task) := by
      intro u hu hmem
      obtain ⟨p, hp, rfl⟩ := List.mem_map.1 hmem
      rcases hfills.places_now p hp with hp' | hnow
      · exact hu (List.mem_map_of_mem hp')
      · have hlt := hfills.sound.time_lt_of_idle hidle hp
        rw [hnow, hfills.time_eq] at hlt
        exact Nat.lt_irrefl _ hlt
    have hmem := h.perm.mem_iff.2 htask
    simp only [List.mem_append] at hmem
    rcases hmem with (hplaced | hwaiting) | hready
    · obtain ⟨p, hp, rfl⟩ := List.mem_map.1 hplaced
      exact absurd (List.mem_map_of_mem (hfills.keeps p hp)) hleft
    · obtain ⟨u, hu, hnot⟩ := h.waits task hwaiting
      exact Or.inr ⟨u, hu, hsame u hnot⟩
    · have hfilled := hfills.perm.mem_iff.2 (List.mem_append_right _ hready)
      exact Or.inl ((List.mem_append.1 hfilled).resolve_left hleft)

theorem sortByRank_perm (s : ListScheduler) (tasks : List Nat) :
    (s.sortByRank tasks).Perm tasks :=
  List.mergeSort_perm _ _

theorem released_iff (h : Sound s r) {task : Nat}
    (htask : task ∈ s.graph.ids) :
    released s.graph.predecessorTable r task = true ↔
      ∀ u, s.graph.Joins u task → ∃ q ∈ r.placements, q.task = u ∧ q.time < r.time := by
  unfold released
  rw [List.all_eq_true]
  simp only [TaskGraph.mem_predecessorTable (TaskGraph.lt_size_of_mem_ids htask), h.retired_iff]

/-- After a step, the tasks that are released or were set aside are ready. -/
theorem Between.next {waiting ready : List Nat} {r₁ r₂ : Run} (h : Between s waiting ready r)
    (hfills : Fills s ready r r₁) (hsound : Sound s r₂) (hidle : r₂.running = [])
    (hplacements : r₂.placements = r₁.placements) (hdeferred : r₂.deferred = r₁.deferred)
    (htime : r₂.time = r₁.time + 1) :
    Between s (waiting.filter (!released s.graph.predecessorTable r₂ ·))
      (s.sortByRank (waiting.filter (released s.graph.predecessorTable r₂) ++ r₂.deferred))
      { r₂ with deferred := [] } := by
  have hrank :=
    s.sortByRank_perm (waiting.filter (released s.graph.predecessorTable r₂) ++ r₂.deferred)
  have hids : ∀ task ∈ waiting, task ∈ s.graph.ids := fun task htask =>
    h.perm.mem_iff.1 (List.mem_append_left _ (List.mem_append_right _ htask))
  have hfilled := hfills.perm
  rw [h.none_aside, List.append_nil] at hfilled
  refine ⟨hsound.of_core rfl, hidle, rfl, ?_, ?_, ?_⟩
  · -- what waited is released or not, and what was ready is placed or set aside
    have hsplit : (waiting.filter (!released s.graph.predecessorTable r₂ ·) ++
        waiting.filter (released s.graph.predecessorTable r₂)).Perm waiting :=
      List.perm_append_comm.trans (List.filter_append_perm _ waiting)
    calc
      List.Perm (r₂.placements.map (·.task) ++
          waiting.filter (!released s.graph.predecessorTable r₂ ·) ++
          s.sortByRank (waiting.filter (released s.graph.predecessorTable r₂) ++ r₂.deferred))
        (r₁.placements.map (·.task) ++ waiting.filter (!released s.graph.predecessorTable r₂ ·) ++
          (waiting.filter (released s.graph.predecessorTable r₂) ++ r₁.deferred)) := by
        rw [← hplacements, ← hdeferred]
        exact hrank.append_left _
      List.Perm _ (r₁.placements.map (·.task) ++ (waiting ++ r₁.deferred)) := by
        rw [List.append_assoc, ← List.append_assoc (waiting.filter _)]
        exact (hsplit.append_right _).append_left _
      List.Perm _ (r₁.placements.map (·.task) ++ r₁.deferred ++ waiting) := by
        rw [List.append_assoc]
        exact List.perm_append_comm.append_left _
      List.Perm _ (r.placements.map (·.task) ++ ready ++ waiting) := hfilled.append_right _
      List.Perm _ (r.placements.map (·.task) ++ waiting ++ ready) := by
        rw [List.append_assoc, List.append_assoc]
        exact List.perm_append_comm.append_left _
      List.Perm _ s.graph.ids := h.perm
  · intro task htask u hu
    rcases List.mem_append.1 (hrank.mem_iff.1 htask) with htask | htask
    · obtain ⟨hwaiting, hreleased⟩ := List.mem_filter.1 htask
      exact (released_iff hsound (hids task hwaiting)).1 hreleased u hu
    · -- a task that was set aside was ready before
      rw [hdeferred] at htask
      have hready : task ∈ ready := by
        have hmem := hfills.mem_of_mem_deferred h.awaits htask
        rw [h.none_aside] at hmem
        exact hmem.resolve_left List.not_mem_nil
      obtain ⟨q, hq, hqu, hlt⟩ := h.ready task hready u hu
      refine ⟨q, ?_, hqu, ?_⟩
      · show q ∈ r₂.placements
        rw [hplacements]
        exact hfills.keeps q hq
      · show q.time < r₂.time
        rw [htime, hfills.time_eq]
        omega
  · intro task htask
    obtain ⟨hwaiting, hnot⟩ := List.mem_filter.1 htask
    have hnot' : ¬ released s.graph.predecessorTable r₂ task = true := by simpa using hnot
    rw [released_iff hsound (hids task hwaiting)] at hnot'
    simp only [not_forall] at hnot'
    obtain ⟨u, hu, hnone⟩ := hnot'
    refine ⟨u, hu, fun hmem => hnone ?_⟩
    obtain ⟨q, hq, hqu⟩ := List.mem_map.1 hmem
    exact ⟨q, hq, hqu, hsound.time_lt_of_idle hidle hq⟩

/-- A step in which something runs places another task. -/
theorem Fills.length_lt {tasks : List Nat} (hfills : Fills s tasks r r') (h : Sound s r)
    (hidle : r.running = []) (hnodup : (r'.placements.map (·.task)).Nodup)
    (hnodup' : (r.placements.map (·.task)).Nodup) (hruns : r'.running ≠ []) :
    r.placements.length < r'.placements.length := by
  obtain ⟨p, hp⟩ := List.exists_mem_of_ne_nil _ hruns
  rw [hfills.sound.running_eq] at hp
  obtain ⟨hp, htime⟩ := List.mem_filter.1 hp
  simp only [beq_iff_eq] at htime
  have hnew : p.task ∉ r.placements.map (·.task) := by
    intro hmem
    obtain ⟨q, hq, hqp⟩ := List.mem_map.1 hmem
    have hsame : q = p := List.inj_on_of_nodup_map hnodup (hfills.keeps q hq) hp hqp
    have hlt := h.time_lt_of_idle hidle hq
    rw [hsame, htime, hfills.time_eq] at hlt
    exact Nat.lt_irrefl _ hlt
  have hsub : p.task :: r.placements.map (·.task) ⊆ r'.placements.map (·.task) := by
    intro id hid
    rcases List.mem_cons.1 hid with rfl | hid
    · exact List.mem_map_of_mem hp
    · obtain ⟨q, hq, rfl⟩ := List.mem_map.1 hid
      exact List.mem_map_of_mem (hfills.keeps q hq)
  have hle := ((List.nodup_cons.2 ⟨hnew, hnodup'⟩).subperm hsub).length_le
  simp only [List.length_cons, List.length_map] at hle
  omega

/-- One step of a run that is not over. -/
theorem runSteps_succ {predecessors : Array (List Nat)} {count : Nat} {waiting ready : List Nat}
    (hne : ¬ (waiting = [] ∧ ready = [])) :
    s.runSteps predecessors (count + 1) waiting ready r =
      match s.fill ready r with
      | .failed fault r => .failed fault r
      | .done () r =>
        if r.running.isEmpty then .failed (s.stuck waiting r) r
        else
          match advance r with
          | .failed fault r => .failed fault r
          | .done () r =>
            s.runSteps predecessors count (waiting.filter (!released predecessors r ·))
              (s.sortByRank (waiting.filter (released predecessors r) ++ r.deferred))
              { r with deferred := [] } := by
  cases waiting with
  | cons first rest => rfl
  | nil =>
    cases ready with
    | cons first rest => rfl
    | nil => exact absurd ⟨rfl, rfl⟩ hne

/-- A filled step in which something runs can be ended, and has placed another task. -/
theorem Between.advance {waiting ready : List Nat} {r₁ : Run} (h : Between s waiting ready r)
    (hslots : s.settings.slotsPerBarrier < Word.bound) (hfills : Fills s ready r r₁)
    (hruns : r₁.running ≠ []) :
    ∃ r₂, ListScheduler.advance r₁ = .done () r₂ ∧ r₂.placements = r₁.placements ∧
      r₂.time = r₁.time + 1 ∧ r.placements.length < r₂.placements.length ∧
      Between s (waiting.filter (!released s.graph.predecessorTable r₂ ·))
        (s.sortByRank (waiting.filter (released s.graph.predecessorTable r₂) ++ r₂.deferred))
        { r₂ with deferred := [] } := by
  have hnodup : (r₁.placements.map (·.task)).Nodup :=
    (List.nodup_append.1 (hfills.perm.nodup_iff.2 h.awaits.nodup)).1
  obtain ⟨r₂, hadvance, hsound, hidle, hplacements, hdeferred, htime⟩ :=
    advance_spec hslots hfills.sound hnodup
  have hlt := hfills.length_lt h.sound h.idle hnodup h.awaits.nodup_placements hruns
  exact ⟨r₂, hadvance, hplacements, htime, hplacements ▸ hlt,
    h.next hfills hsound hidle hplacements hdeferred htime⟩

/-- A run ends with every task placed, or stuck. -/
theorem runSteps_spec (hs : s.Prepared) (count : Nat) (waiting ready : List Nat)
    (h : Between s waiting ready r) (hcount : s.graph.ids.length ≤ r.placements.length + count) :
    (∃ r', s.runSteps s.graph.predecessorTable count waiting ready r = .done () r' ∧ Sound s r' ∧
      (r'.placements.map (·.task)).Perm s.graph.ids) ∨
    ∃ waiting' r', s.runSteps s.graph.predecessorTable count waiting ready r =
      .failed (s.stuck waiting' r') r' ∧ Stuck s r' := by
  induction count generalizing waiting ready r with
  | zero =>
    -- every step so far placed a task, so none is left
    have hlength := h.perm.length_eq
    simp only [List.length_append, List.length_map] at hlength
    obtain rfl : waiting = [] := List.eq_nil_of_length_eq_zero (by omega)
    obtain rfl : ready = [] := List.eq_nil_of_length_eq_zero (by omega)
    exact Or.inl ⟨r, by rw [runSteps], h.sound, by simpa using h.perm⟩
  | succ count ih =>
    by_cases hdone : waiting = [] ∧ ready = []
    · obtain ⟨rfl, rfl⟩ := hdone
      exact Or.inl ⟨r, by rw [runSteps], h.sound, by simpa using h.perm⟩
    · have hne : waiting ≠ [] ∨ ready ≠ [] := by tauto
      obtain ⟨r₁, hfill, hfills⟩ := fill_spec hs ready h.sound h.awaits
      rw [runSteps_succ hdone, hfill]
      by_cases hruns : r₁.running = []
      · refine Or.inr ⟨waiting, r₁, by simp [hruns], h.stuck hs.wellFormed hne hfills hruns⟩
      · obtain ⟨r₂, hadvance, -, -, hlt, hnext⟩ := h.advance hs.slots_lt hfills hruns
        have hcount' : s.graph.ids.length ≤
            ({ r₂ with deferred := [] } : Run).placements.length + count := by
          show s.graph.ids.length ≤ r₂.placements.length + count
          omega
        simp only [List.isEmpty_eq_false_iff.2 hruns, Bool.false_eq_true, if_false, hadvance]
        exact ih _ _ hnext hcount'

/-- A run starts with nothing placed and empty hardware. -/
theorem sound_start (hvalid : s.settings.validate = .ok ()) (hmemory : r.memory =
      FirstFit.create s.settings.cmxSize s.settings.alignment)
    (hbarriers :
      Holdings.create s.settings.barrierCount s.settings.slotsPerBarrier = .ok r.barriers)
    (hrunning : r.running = []) (hretired : r.retired = Array.replicate s.graph.tasks.size false)
    (hplacements : r.placements = []) : Sound s r := by
  obtain ⟨-, -, -, halignment⟩ := Settings.validate_eq_ok_iff.1 hvalid
  obtain ⟨hbalanced, hheld, hcount, hslots⟩ :=
    Holdings.balanced_create s.graph.posters.length hbarriers
  have hpos := isPowerOfTwo_pos halignment
  constructor
  case memory =>
    rw [hmemory, hrunning]
    exact FirstFit.holds_create _ _
  case capacity_eq => rw [hmemory]; rfl
  case alignment_eq =>
    rw [hmemory]
    exact Nat.max_eq_left hpos
  case barriers => exact hbalanced
  case held_perm => rw [hheld, hrunning]; rfl
  case count_eq => exact hcount
  case slots_eq => exact hslots
  case running_eq => rw [hrunning, hplacements]; rfl
  case retired_size => simp [hretired]
  case retired_iff =>
    intro id
    rw [hretired, hplacements]
    by_cases hid : id < s.graph.tasks.size <;>
      simp [Array.getD_eq_getD_getElem?, hid]
  case steps =>
    intro time
    rw [hplacements]
    exact stepFits_nil _
  all_goals
    rw [hplacements]
    simp

/-- Before the first step, the tasks without predecessors are ready. -/
theorem between_start (h : Sound s r) (hidle : r.running = []) (haside : r.deferred = [])
    (hnone : r.placements = []) :
    Between s (s.graph.ids.filter (!released s.graph.predecessorTable r ·))
      (s.sortByRank (s.graph.ids.filter (released s.graph.predecessorTable r))) r := by
  have hperm := List.filter_append_perm (released s.graph.predecessorTable r) s.graph.ids
  refine ⟨h, hidle, haside, ?_, ?_, ?_⟩
  · rw [hnone]
    exact ((s.sortByRank_perm _).append_left _).trans (List.perm_append_comm.trans hperm)
  · intro task htask
    obtain ⟨hid, hreleased⟩ := List.mem_filter.1 ((s.sortByRank_perm _).mem_iff.1 htask)
    exact (released_iff h hid).1 hreleased
  · intro task htask
    obtain ⟨hid, hnot⟩ := List.mem_filter.1 htask
    have hnot' : ¬ released s.graph.predecessorTable r task = true := by simpa using hnot
    rw [released_iff h hid, hnone] at hnot'
    simp only [List.not_mem_nil, false_and, exists_false, imp_false, not_forall, not_not] at hnot'
    obtain ⟨u, hu⟩ := hnot'
    exact ⟨u, hu, by simp [hnone]⟩

/-- Valid settings make a pool of barriers. -/
theorem exists_holdings (hvalid : s.settings.validate = .ok ()) : ∃ barriers,
    Holdings.create s.settings.barrierCount s.settings.slotsPerBarrier = .ok barriers := by
  obtain ⟨-, hcount, hslots, -⟩ := Settings.validate_eq_ok_iff.1 hvalid
  simp only [Holdings.create, BarrierPool.create]
  rw [if_neg (by omega)]
  exact ⟨_, rfl⟩

/-- Listing ends with a feasible timetable, or stuck. -/
theorem schedule_spec (hs : s.Prepared) :
    (∃ placements, s.schedule.result = .ok placements ∧
      Feasible s.graph s.settings placements) ∨
    ∃ waiting r, s.schedule.result = .error (s.stuck waiting r) ∧ Stuck s r := by
  obtain ⟨barriers, hcreate⟩ := exists_holdings hs.valid
  simp only [schedule, hcreate]
  generalize hstart : ({ memory := FirstFit.create s.settings.cmxSize s.settings.alignment
                         barriers, running := [], deferred := []
                         retired := Array.replicate s.graph.tasks.size false
                         placements := [], time := 0, states := s.states, checks := s.checks
                         events := [] } : Run) = start
  have hbetween : Between s
      (s.graph.ids.filter (!released s.graph.predecessorTable start ·))
      (s.sortByRank (s.graph.ids.filter (released s.graph.predecessorTable start))) start := by
    subst hstart
    exact between_start (sound_start hs.valid rfl hcreate rfl rfl rfl) rfl rfl rfl
  rcases runSteps_spec hs s.graph.ids.length _ _ hbetween (Nat.le_add_left _ _) with
    ⟨r, hrun, hr, hall⟩ | ⟨waiting, r, hrun, hstuck⟩
  · have hfeasible : Feasible s.graph s.settings r.placements := by
      refine ⟨⟨hall, ?_⟩, hr.fits, hr.steps⟩
      intro p hp q hq hjoins
      obtain ⟨q', hq', htask, hlt⟩ := hr.predecessors q hq _ hjoins
      obtain rfl : q' = p :=
        List.inj_on_of_nodup_map (hall.nodup_iff.2 s.graph.nodup_ids) hq' hp htask
      exact hlt
    exact Or.inl ⟨r.placements.reverse, by rw [hrun], hfeasible.perm (List.reverse_perm _).symm⟩
  · exact Or.inr ⟨waiting, r, by rw [hrun], hstuck⟩

/-- Why a task does not fit the hardware alone: it needs too much scratch memory, or else
too many slots of a barrier. -/
def refusal (settings : Settings) (t : Task) : ScheduleError :=
  if settings.cmxSize < t.alignedBytes settings then
    .infeasible .listing t.name .scratch (t.alignedBytes settings) settings.cmxSize
  else
    .infeasible .listing t.name .producerSlots t.demand settings.slotsPerBarrier

/-- With nothing running, the memory is empty, so a task lacks memory only if it needs
more than there is. -/
theorem Stuck.shortage_eq (h : Stuck s r) (hs : s.Prepared) {task : Nat}
    (htask : task ∈ s.graph.ids)
    (haligned : (s.graph.task task).alignedBytes s.settings < Word.bound) :
    s.shortage task r.memory = .ok (refusal s.settings (s.graph.task task)) := by
  obtain ⟨hcmx, -, -, -⟩ := Settings.validate_eq_ok_iff.1 hs.valid
  have hempty : r.memory.Holds [] := by
    have hholds := h.sound.memory
    rwa [h.idle] at hholds
  have hsizes := hs.requests_lt htask
  rw [← h.sound.alignment_eq] at hsizes
  have hmemory := hempty.canReserve_empty (by rw [h.sound.capacity_eq]; exact hcmx) hsizes
  have hrounded := mapM_ok fun size hsize => Word.roundUp_eq_ok (hsizes size hsize)
  have htotal : Word.total (((s.graph.task task).requests.map (·.2)).map
      (Word.alignUp · r.memory.alignment)) = (s.graph.task task).alignedBytes s.settings := by
    rw [h.sound.alignment_eq, Word.total_perm ((Task.sizes_requests _).map _)]
    rfl
  have hsum := Word.sum_eq_ok_iff.2 ⟨htotal ▸ haligned, rfl⟩
  rw [htotal] at hmemory hsum
  unfold shortage FirstFit.aligned refusal
  simp only [hmemory, hrounded, hsum, bind, Except.bind, pure, Except.pure, h.sound.capacity_eq,
    decide_eq_true_eq]
  split
  · next hle => rw [if_neg (Nat.not_lt.2 hle)]
  · next hlt => rw [if_pos (Nat.not_le.1 hlt)]

/-- A run that is stuck is refused. -/
theorem Stuck.refused (h : Stuck s r) (hs : s.Prepared)
    (haligned : ∀ id ∈ s.graph.ids, (s.graph.task id).alignedBytes s.settings < Word.bound)
    (waiting : List Nat) : ∃ error, s.stuck waiting r = .refused error := by
  unfold stuck
  split
  · next task rest hsorted =>
    have htask : task ∈ s.graph.ids := by
      refine h.mem_ids task ((s.sortByRank_perm _).mem_iff.1 ?_)
      rw [hsorted]
      exact List.mem_cons_self
    rw [h.shortage_eq hs htask (haligned task htask)]
    exact ⟨_, rfl⟩
  · exact ⟨_, rfl⟩

/-- Without cycles, a run is stuck because some task does not fit alone. -/
theorem Stuck.exists_unfit (h : Stuck s r) (hacyclic : s.graph.Acyclic) :
    ∃ id ∈ s.graph.ids, ¬ (s.graph.task id).FitsAlone s.settings := by
  obtain ⟨task, htask⟩ := List.exists_mem_of_ne_nil _ (h.some_aside hacyclic)
  exact ⟨task, h.mem_ids task htask, h.unfit task htask⟩

/-- If every task of an acyclic graph fits the hardware alone, all are placed. -/
theorem schedule_done (hs : s.Prepared) (hacyclic : s.graph.Acyclic)
    (hfits : ∀ id ∈ s.graph.ids, (s.graph.task id).FitsAlone s.settings) :
    ∃ placements, s.schedule.result = .ok placements ∧
      Feasible s.graph s.settings placements := by
  rcases schedule_spec hs with hdone | ⟨waiting, r, -, hstuck⟩
  · exact hdone
  · obtain ⟨id, hid, hunfit⟩ := hstuck.exists_unfit hacyclic
    exact absurd (hfits id hid) hunfit

/-- A timetable that the list scheduler returns is feasible, whatever the ranks, the
hints and the states of the tasks are. -/
theorem schedule_feasible (hs : s.Prepared) {placements : List Placement}
    (h : s.schedule.result = .ok placements) : Feasible s.graph s.settings placements := by
  rcases schedule_spec hs with ⟨placements', hok, hfeasible⟩ | ⟨waiting, r, herror, -⟩
  · obtain rfl := Except.ok.inj (h.symm.trans hok)
    exact hfeasible
  · cases h.symm.trans herror

/-- The sample graph on two barriers of four slots, with a hint. -/
def onDiamond : ListScheduler where
  graph := .diamond
  settings := { cmxSize := 256, barrierCount := 2, slotsPerBarrier := 4 }
  ranks := #[0, 1, 0, 2, 3]
  hints := [(1, [3, 1])]
  states := Array.replicate 5 .unscheduled
  checks := 0

/-- The sample fits the hardware, so there is a timetable to look at. -/
theorem schedule_feasible_diamond :
    onDiamond.Prepared ∧ ∃ placements, onDiamond.schedule.result = .ok placements ∧
      Feasible .diamond onDiamond.settings placements := by
  have hprepared : onDiamond.Prepared :=
    ⟨TaskGraph.wellFormed_diamond, Settings.validate_eq_ok_iff.2 (by decide +kernel), by decide,
      by decide +kernel⟩
  obtain ⟨placements, hresult, -⟩ :=
    schedule_done hprepared TaskGraph.acyclic_diamond (by decide +kernel)
  exact ⟨hprepared, placements, hresult, schedule_feasible hprepared hresult⟩

end ListScheduler

end TaskLoom
