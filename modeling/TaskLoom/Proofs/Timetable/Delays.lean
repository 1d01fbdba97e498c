import Mathlib.Data.List.Permutation
import Mathlib.ModelTheory.Encoding
import TaskLoom.Proofs.Timetable.Memory
import TaskLoom.Proofs.Timetable.Rounds

/-!
# Delays have a reason

A list scheduler leaves no step empty: it moves on only when something runs that can end.
Nor does it leave a task behind that could have joined a step.  At the end of a step the
ready tasks that are not placed were set aside, because they did not fit beside what had
been placed until then, and what does not fit stays so until the step ends.

What is free at the end of a step is what its tasks leave of the hardware.  Within a step
the free memory is one range, so a task that lacks memory lacks it in total, and not only
in one piece.  So whether a task fits can be read off the timetable: the tasks of the step
leave too little memory, or too few slots on every barrier.

The sample is evaluated.  Equations of `Option.join` and `Prod.snd` that this takes are what is
imported from Mathlib.

## Main results

* `lt_makespan_sorted_iff` — the number of steps of a timetable.
* `crowded_of_unfit` — why a task does not fit a step.
* `Prompt.next` — what a step keeps.
* `schedule_invariant` — what every step keeps holds of a whole run.
* `schedule_prompt` — no gaps, and no delay without a reason.
-/

namespace TaskLoom

/-! ## The number of steps -/

namespace Timetable

/-- A sorted timetable has as many steps as it takes to reach its last task. -/
theorem lt_makespan_sorted_iff {placements : List Placement} {time : Nat} :
    time < makespan (sorted placements) ↔ ∃ p ∈ placements, time ≤ p.time := by
  have hperm := sorted_perm placements
  unfold makespan
  cases hlast : (sorted placements).getLast? with
  | none =>
    have hnil : placements = [] := by
      have hsorted := List.getLast?_eq_none_iff.1 hlast
      rw [hsorted] at hperm
      exact hperm.symm.eq_nil
    simp [hnil]
  | some last =>
    obtain ⟨front, hsplit⟩ := List.getLast?_eq_some_iff.1 hlast
    have hmem : last ∈ placements := by
      rw [← hperm.mem_iff, hsplit]
      simp
    have hle : ∀ p ∈ placements, p.time ≤ last.time := by
      intro p hp
      rw [← hperm.mem_iff, hsplit, List.mem_append] at hp
      have hpair := pairwise_sorted placements
      rw [hsplit] at hpair
      rcases hp with hp | hp
      · exact (List.pairwise_append.1 hpair).2.2 p hp last List.mem_cons_self
      · rw [List.mem_singleton.1 hp]
    simp only [Option.elim_some]
    constructor
    · intro hlt
      exact ⟨last, hmem, by omega⟩
    · rintro ⟨p, hp, htime⟩
      have := hle p hp
      omega

end Timetable

/-! ## Steps that are crowded -/

/-- The task does not fit beside the tasks of a step: together they need more memory than
there is, or on every barrier they need more slots than it has. -/
def Crowded (g : TaskGraph) (settings : Settings) (step : List Placement) (v : Nat) : Prop :=
  settings.cmxSize < Word.total (step.map fun p => (g.task p.task).alignedBytes settings) +
      (g.task v).alignedBytes settings ∨
    ∀ b : BarrierId, 1 ≤ b.number → b.number ≤ settings.barrierCount →
      settings.slotsPerBarrier <
        Word.total ((step.filter (·.barrier == some b)).map (·.slots)) + (g.task v).demand

theorem Crowded.perm {g : TaskGraph} {settings : Settings} {step step' : List Placement} {v : Nat}
    (h : Crowded g settings step v) (hperm : step.Perm step') : Crowded g settings step' v := by
  unfold Crowded at h ⊢
  rw [← Word.total_perm (hperm.map _)]
  refine h.imp_right fun hslots b hone hle => ?_
  rw [← Word.total_perm ((hperm.filter _).map _)]
  exact hslots b hone hle

namespace ListScheduler

open Timetable (placedAt makespan sorted)

variable {s : ListScheduler} {r r' : Run} {waiting ready : List Nat}

/-- What runs uses as much memory as the tasks need. -/
theorem Sound.used_eq (h : Sound s r) : r.memory.used =
    Word.total (r.running.map fun p => (s.graph.task p.task).alignedBytes s.settings) := by
  rw [h.memory.used_eq, liveRanges, Word.total_flatMap]
  congr 1
  refine List.map_congr_left fun p hp => ?_
  rw [h.running_eq] at hp
  exact (h.fits p (Timetable.mem_placedAt.1 hp).1).total_held

/-- A task that finds no memory exceeds what the running tasks leave. -/
theorem lt_of_canReserve (h : Sound s r) (hone : r.memory.free.length ≤ 1) {task : Nat}
    (hcan : r.memory.canReserve ((s.graph.task task).requests.map (·.2)) = .ok false) :
    s.settings.cmxSize <
      Word.total (r.running.map fun p => (s.graph.task p.task).alignedBytes s.settings) +
        (s.graph.task task).alignedBytes s.settings := by
  rw [FirstFit.canReserve_eq_serveAll hone] at hcan
  have hlt := FirstFit.lt_total_of_serveAll hcan
  have hneeds : Word.total (((s.graph.task task).requests.map (·.2)).map
      (Word.alignUp · r.memory.alignment)) = (s.graph.task task).alignedBytes s.settings := by
    rw [h.alignment_eq]
    exact Word.total_perm ((Task.sizes_requests _).map _)
  have htotal := h.memory.used_add_free
  unfold FirstFit.room at hlt
  rw [hneeds] at hlt
  rw [h.capacity_eq, h.used_eq] at htotal
  omega

/-- A task that finds no slots exceeds what the running tasks leave of every barrier. -/
theorem lt_of_hasRoom (h : Sound s r) {demand : Nat} (hroom : r.barriers.hasRoom demand = false)
    {b : BarrierId} (hone : 1 ≤ b.number) (hle : b.number ≤ s.settings.barrierCount) :
    s.settings.slotsPerBarrier <
      Word.total ((r.running.filter (·.barrier == some b)).map (·.slots)) + demand := by
  have hpick : r.barriers.pool.pick demand = none := by
    simpa [Holdings.hasRoom, BarrierPool.hasRoom] using hroom
  have hlength : b.number - 1 < r.barriers.pool.vacancies.length := by
    have hcount := h.count_eq
    unfold BarrierPool.count at hcount
    omega
  have hvacancy := List.getElem?_eq_getElem hlength
  have hnumber := h.barriers.consistent.barrier_eq _ _ hvacancy
  have hmem := List.mem_of_getElem? hvacancy
  have hless := (BarrierPool.pick_eq_none_iff h.barriers.consistent).1 hpick _ hmem
  have hbalance := h.barriers.balance _ hmem
  rw [hnumber, Nat.sub_add_cancel hone, Holdings.slotsOn_perm h.held_perm,
    slotsOn_filterMap_holding, h.slots_eq] at hbalance
  omega

/-- A task that does not fit what is free does not fit beside what runs. -/
theorem crowded_of_unfit (h : Sound s r) (hone : r.memory.free.length ≤ 1) {task : Nat}
    (hunfit : s.fits r task = .ok false) : Crowded s.graph s.settings r.running task := by
  unfold fits at hunfit
  by_cases hroom : ((s.graph.task task).demand = 0 || r.barriers.hasRoom
      (s.graph.task task).demand) = true
  · simp only [hroom, if_true] at hunfit
    exact Or.inl (lt_of_canReserve h hone hunfit)
  · rw [Bool.not_eq_true, Bool.or_eq_false_iff] at hroom
    exact Or.inr fun b hone hle => lt_of_hasRoom h hroom.2 hone hle

/-! ## A step -/

/-- All steps so far are occupied, and a task whose predecessors had finished before one of
them was placed by then, or did not fit. -/
structure Prompt (s : ListScheduler) (r : Run) : Prop where
  occupied : ∀ time < r.time, ∃ p ∈ r.placements, p.time = time
  reason : ∀ v ∈ s.graph.ids, ∀ step < r.time,
    (∀ u, s.graph.Joins u v → ∃ q ∈ r.placements, q.task = u ∧ q.time < step) →
    (∃ p ∈ r.placements, p.task = v ∧ p.time ≤ step) ∨
      Crowded s.graph s.settings (placedAt r.placements step) v

/-- Filling a step leaves the earlier ones as they are. -/
theorem Fills.placedAt_perm (hfills : Fills s ready r r')
    (hnodup : (r.placements.map (·.task)).Nodup) (hnodup' : (r'.placements.map (·.task)).Nodup)
    {step : Nat} (hstep : step < r.time) :
    (placedAt r.placements step).Perm (placedAt r'.placements step) := by
  refine (List.perm_ext_iff_of_nodup (hnodup.of_map.filter _) (hnodup'.of_map.filter _)).2
    fun p => ?_
  show p ∈ placedAt r.placements step ↔ p ∈ placedAt r'.placements step
  rw [Timetable.mem_placedAt, Timetable.mem_placedAt]
  constructor
  · rintro ⟨hp, htime⟩
    exact ⟨hfills.keeps p hp, htime⟩
  · rintro ⟨hp, htime⟩
    have hnow : p.time ≠ r.time := by omega
    exact ⟨(hfills.places_now p hp).resolve_right hnow, htime⟩

/-- At the end of a step, a ready task is placed or was set aside. -/
theorem Filling.placed_or_crowded (h : Filling s [] r) {v : Nat} (hv : v ∈ s.graph.ids)
    (hready : ∀ u, s.graph.Joins u v → ∃ q ∈ r.placements, q.task = u ∧ q.time < r.time) :
    (∃ p ∈ r.placements, p.task = v ∧ p.time ≤ r.time) ∨
      Crowded s.graph s.settings (placedAt r.placements r.time) v := by
  by_cases hplaced : v ∈ r.placements.map (·.task)
  · left
    obtain ⟨p, hp, hpv⟩ := List.mem_map.1 hplaced
    exact ⟨p, hp, hpv, h.sound.time_le p hp⟩
  · right
    have haside : v ∈ r.deferred :=
      ((h.mem_ready v).1 (Plain.mem_ready.2 ⟨⟨hv, hplaced⟩, hready⟩)).resolve_left List.not_mem_nil
    rw [← h.sound.running_eq]
    exact crowded_of_unfit h.sound h.one_range (h.unfit v haside)

/-- A step that is filled, runs something and is ended keeps a run prompt. -/
theorem Prompt.next {r₁ r₂ : Run} (h : Prompt s r) (hbetween : Between s waiting ready r)
    (hfilling : Filling s [] r₁) (hfills : Fills s ready r r₁) (hruns : r₁.running ≠ [])
    (hplacements : r₂.placements = r₁.placements) (htime : r₂.time = r₁.time + 1) :
    Prompt s r₂ := by
  have hnow := hfills.time_eq
  constructor
  · rw [hplacements, htime, hnow]
    intro time hlt
    by_cases hpast : time < r.time
    · obtain ⟨p, hp, hptime⟩ := h.occupied time hpast
      exact ⟨p, hfills.keeps p hp, hptime⟩
    · -- something runs in the step that ends
      obtain ⟨p, hp⟩ := List.exists_mem_of_ne_nil _ hruns
      rw [hfilling.sound.running_eq, Timetable.mem_placedAt] at hp
      exact ⟨p, hp.1, by omega⟩
  · rw [hplacements, htime, hnow]
    intro v hv step hlt hready
    by_cases hpast : step < r.time
    · have hbefore : ∀ u, s.graph.Joins u v →
          ∃ q ∈ r.placements, q.task = u ∧ q.time < step := by
        intro u hu
        obtain ⟨q, hq, hqu, hqtime⟩ := hready u hu
        have hnot : q.time ≠ r.time := by omega
        exact ⟨q, (hfills.places_now q hq).resolve_right hnot, hqu, hqtime⟩
      have hsame := hfills.placedAt_perm hbetween.awaits.nodup_placements
        hfilling.awaits.nodup_placements hpast
      rcases h.reason v hv step hpast hbefore with ⟨p, hp, hpv⟩ | hcrowded
      · exact Or.inl ⟨p, hfills.keeps p hp, hpv⟩
      · exact Or.inr (hcrowded.perm hsame)
    · obtain rfl : step = r₁.time := by omega
      exact hfilling.placed_or_crowded hv hready

/-! ## The whole run -/

/-- A property of the start that every step keeps holds when a timetable is returned.  The
last event tells how many steps it has. -/
theorem schedule_invariant {P : Run → Prop} (hg : s.graph.WellFormed)
    (hvalid : s.settings.validate = .ok ()) (hslots : s.settings.slotsPerBarrier < Word.bound)
    (hapart : RanksApart s)
    (hstep : ∀ (waiting ready : List Nat) (r r₁ r₂ : Run), Between s waiting ready r → P r →
      Filling s [] r₁ → Fills s ready r r₁ → r₁.running ≠ [] →
      r₂.placements = r₁.placements → r₂.time = r₁.time + 1 → P r₂)
    (hP : ∀ r : Run, r.placements = [] → r.time = 0 → P r) {placements : List Placement}
    (h : s.schedule.result = .ok placements) :
    ∃ r peak checks, placements = r.placements.reverse ∧ P r ∧ Between s [] [] r ∧
      s.schedule.events.getLast? = some (.finished placements.length r.time peak checks) := by
  obtain ⟨outcome, hend, heq⟩ := @schedule_ends s (fun _ => P) hg hvalid hslots hapart
    (fun _ _ _ _ _ hround hP => hstep _ _ _ _ _ hround.before hP hround.filled hround.fills
      hround.runs hround.placements_eq hround.time_eq)
    (fun _ _ _ hstarts _ _ => hP _ hstarts.placements_eq hstarts.time_eq)
  rw [heq] at h ⊢
  cases hend with
  | @done r hbetween hP =>
    obtain rfl := Except.ok.inj h
    refine ⟨r, r.memory.peak, r.checks, rfl, hP, hbetween, ?_⟩
    simp [conclude]
  | overflow => cases h
  | stuck => cases h

/-- A timetable that is returned has no gaps: its steps are the numbers below the makespan,
which the last event reports.  And no task runs later than it could without a reason: where
all its predecessors had finished before an earlier step, it did not fit beside the tasks of
that step. -/
theorem schedule_prompt {g : TaskGraph} {settings : Settings} (hg : g.WellFormed)
    (hac : g.Acyclic) (hvalid : settings.validate = .ok ())
    (hslots : settings.slotsPerBarrier < Word.bound) :
    ∃ s, create g settings = .ok s ∧ ∀ hints states checks placements,
      (schedule { s with hints, states, checks }).result = .ok placements →
        (∀ time, (∃ p ∈ placements, p.time = time) ↔ time < makespan (sorted placements)) ∧
        (∃ peak checks', (schedule { s with hints, states, checks }).events.getLast? =
          some (.finished placements.length (makespan (sorted placements)) peak checks')) ∧
        ∀ p ∈ placements, ∀ step < p.time,
          (∀ u, g.Joins u p.task → ∃ q ∈ placements, q.task = u ∧ q.time < step) →
            Crowded g settings (placedAt placements step) p.task := by
  obtain ⟨s, levels, hcreate, -, -, rfl, rfl, hranked⟩ := create_spec hg hac hvalid
  refine ⟨s, hcreate, fun hints states checks placements hresult => ?_⟩
  obtain ⟨r, peak, checks', rfl, hprompt, hend, hlast⟩ :=
    @schedule_invariant { s with hints, states, checks } (Prompt _) hg hvalid hslots
      hranked.ranksApart (fun _ _ _ _ _ hbetween h => h.next hbetween)
      (fun r hnone hzero => ⟨by simp [hzero], by simp [hzero]⟩) placements hresult
  have hpast : ∀ p ∈ r.placements, p.time < r.time := fun p hp =>
    hend.sound.time_lt_of_idle hend.idle hp
  have hmakespan : makespan (sorted r.placements.reverse) = r.time := by
    have hiff : ∀ time, time < makespan (sorted r.placements.reverse) ↔ time < r.time := by
      intro time
      rw [Timetable.lt_makespan_sorted_iff]
      simp only [List.mem_reverse]
      constructor
      · rintro ⟨p, hp, hle⟩
        have := hpast p hp
        omega
      · intro hlt
        obtain ⟨p, hp, hptime⟩ := hprompt.occupied time hlt
        exact ⟨p, hp, by omega⟩
    have hnot := (hiff r.time).not.2 (Nat.lt_irrefl _)
    have hnot' := (hiff (makespan (sorted r.placements.reverse))).not.1 (Nat.lt_irrefl _)
    omega
  rw [hmakespan]
  refine ⟨fun time => ?_, ⟨peak, checks', hlast⟩, fun p hp step hstep hready => ?_⟩
  · simp only [List.mem_reverse]
    constructor
    · rintro ⟨p, hp, rfl⟩
      exact hpast p hp
    · exact hprompt.occupied time
  · simp only [List.mem_reverse] at hp hready
    have hlt := hpast p hp
    rcases hprompt.reason p.task (hend.sound.task_mem p hp) step (by omega) hready with
      ⟨q, hq, hqp, hle⟩ | hcrowded
    · have hsame : q = p := List.inj_on_of_nodup_map hend.awaits.nodup_placements hq hp hqp
      subst hsame
      omega
    · exact hcrowded.perm ((List.reverse_perm r.placements).symm.filter _)

/-- Four tasks that do not wait for each other, and one barrier of three slots.  One task
needs all three, and runs after the others. -/
theorem schedule_prompt_crowded :
    let g := { TaskGraph.diamond with edges := [] }
    let settings : Settings := { cmxSize := 256, barrierCount := 1, slotsPerBarrier := 3 }
    g.WellFormed ∧ g.Acyclic ∧ settings.validate = .ok () ∧
      ∃ s placements, create g settings = .ok s ∧ s.schedule.result = .ok placements ∧
        placements.map (fun p => (p.task, p.time)) = [(0, 0), (3, 0), (4, 0), (1, 1)] ∧
        (∀ time, (∃ p ∈ placements, p.time = time) ↔ time < makespan (sorted placements)) ∧
        Crowded g settings (placedAt placements 0) 1 := by
  intro g settings
  have hg : g.WellFormed := by constructor <;> decide
  have hac : g.Acyclic := TaskGraph.Acyclic.of_forward (by decide)
  have hvalid : settings.validate = .ok () := Settings.validate_eq_ok_iff.2 (by decide +kernel)
  obtain ⟨s, hcreate, hall⟩ := schedule_prompt hg hac hvalid (by decide)
  have hlisting : ((create g settings).toOption.bind fun s => s.schedule.result.toOption.map
      (·.map fun p => (p.task, p.time))) = some [(0, 0), (3, 0), (4, 0), (1, 1)] := by cbv
  rw [hcreate] at hlisting
  cases hresult : s.schedule.result with
  | error fault => simp [hresult, Except.toOption] at hlisting
  | ok placements =>
    have htimes : placements.map (fun p => (p.task, p.time)) =
        [(0, 0), (3, 0), (4, 0), (1, 1)] := by
      simpa [hresult, Except.toOption] using hlisting
    obtain ⟨hoccupied, -, hreason⟩ := hall s.hints s.states s.checks placements hresult
    have hlate : (1, 1) ∈ placements.map fun p => (p.task, p.time) := by simp [htimes]
    obtain ⟨p, hp, heq⟩ := List.mem_map.1 hlate
    obtain ⟨htask, htime⟩ := Prod.mk.inj heq
    have hcrowded := hreason p hp 0 (by omega) fun u hu => by
      obtain ⟨e, he, -⟩ := hu
      cases he
    rw [htask] at hcrowded
    exact ⟨hg, hac, hvalid, s, placements, hcreate, hresult, htimes, hoccupied, hcrowded⟩

end ListScheduler

end TaskLoom
