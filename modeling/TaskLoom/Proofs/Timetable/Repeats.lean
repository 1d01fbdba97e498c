import TaskLoom.Proofs.Timetable.Matching
import TaskLoom.Proofs.Timetable.States

/-!
# Repeated runs

A scheduler can be run again and again.  It keeps the states of the tasks and the number of
checks, and neither plays a part in what it returns, so all runs end alike.

While a task waits it is checked once in each step: from the first step in which all its
predecessors have finished to the one in which it is placed.  So the checks of one run can be
read off its timetable, and each run adds the same number.

## Main results

* `Runnable.result_after` — all runs end alike.
* `Runnable.checks_of_done` — the checks of one run.
* `schedule_checks` — the checks of any number of runs.
-/

namespace TaskLoom.ListScheduler

variable {s : ListScheduler} {placements : List Placement}

/-! ## Running a scheduler again -/

/-- What a scheduler promises that was made for a graph without cycles. -/
structure Runnable (s : ListScheduler) : Prop where
  wellFormed : s.graph.WellFormed
  acyclic : s.graph.Acyclic
  valid : s.settings.validate = .ok ()
  slots_lt : s.settings.slotsPerBarrier < Word.bound
  apart : RanksApart s

/-- What is kept from run to run plays no part in it. -/
theorem Runnable.restate (h : Runnable s) (states : Array TaskState) (checks : Nat) :
    Runnable { s with states, checks } :=
  ⟨h.wellFormed, h.acyclic, h.valid, h.slots_lt, h.apart⟩

/-- A scheduler after a number of runs. -/
def after (s : ListScheduler) : Nat → ListScheduler
  | 0 => s
  | runs + 1 => (s.after runs).schedule.scheduler

/-- A run changes nothing but the states and the number of checks. -/
theorem scheduler_schedule (s : ListScheduler) :
    ∃ states checks, s.schedule.scheduler = { s with states, checks } := by
  unfold schedule
  split
  · exact ⟨s.states, s.checks, rfl⟩
  · simp only
    split
    · next r _ => exact ⟨r.states, r.checks, rfl⟩
    · next r _ => exact ⟨r.states, r.checks, rfl⟩

theorem after_eq (s : ListScheduler) (runs : Nat) :
    ∃ states checks, s.after runs = { s with states, checks } := by
  induction runs with
  | zero => exact ⟨s.states, s.checks, rfl⟩
  | succ runs ih =>
    obtain ⟨states, checks, heq⟩ := ih
    obtain ⟨states', checks', heq'⟩ := scheduler_schedule (s.after runs)
    refine ⟨states', checks', ?_⟩
    rw [after, heq', heq]

theorem graph_after (s : ListScheduler) (runs : Nat) : (s.after runs).graph = s.graph := by
  obtain ⟨states, checks, heq⟩ := s.after_eq runs
  rw [heq]

theorem Runnable.after (h : Runnable s) (runs : Nat) : Runnable (s.after runs) := by
  obtain ⟨states, checks, heq⟩ := s.after_eq runs
  rw [heq]
  exact h.restate states checks

/-- Every run ends as the first one does, because the plain scheduler looks neither at the
states of the tasks nor at earlier checks. -/
theorem Runnable.result_after (h : Runnable s) (runs : Nat) :
    (s.after runs).schedule.result = s.schedule.result := by
  obtain ⟨states, checks, heq⟩ := s.after_eq runs
  have hsame : Corresponds s { s with states, checks } :=
    ⟨⟨fun _ => rfl, fun _ _ => Iff.rfl⟩, rfl, rfl, h.apart, fun _ _ _ _ => Iff.rfl⟩
  have hfirst := schedule_result h.wellFormed h.acyclic h.valid h.slots_lt h.apart
  have hagain := h.after runs
  rw [heq] at hagain ⊢
  rw [hfirst.1, ← hsame.schedule_eq]
  exact (schedule_result hagain.wellFormed hagain.acyclic hagain.valid hagain.slots_lt
    hagain.apart).1

/-! ## The checks of a run -/

theorem readyAt_congr {g : TaskGraph} {ps qs : List Placement} (h : ∀ p, p ∈ ps ↔ p ∈ qs)
    (v : Nat) : readyAt g ps v = readyAt g qs v := by
  have hle : ∀ time, readyAt g ps v ≤ time ↔ readyAt g qs v ≤ time := by
    intro time
    simp only [readyAt_le_iff, h]
  exact Nat.le_antisymm ((hle _).2 (Nat.le_refl _)) ((hle _).1 (Nat.le_refl _))

/-- The checks of one task: one in each step from the first in which its predecessors have
finished to its own. -/
def checksOf (g : TaskGraph) (placements : List Placement) (p : Placement) : Nat :=
  p.time - readyAt g placements p.task + 1

/-- A run that returns a timetable checks every task in each step in which it waits. -/
theorem Runnable.checks_of_done (hs : Runnable s) (h : s.schedule.result = .ok placements) :
    (placements.map (·.task)).Perm s.graph.ids ∧
      (∀ p ∈ placements, readyAt s.graph placements p.task ≤ p.time ∧
        (s.schedule.events.filterMap (·.entered p.task)).count .pending =
          checksOf s.graph placements p) ∧
      s.schedule.scheduler.checks =
        s.checks + Word.total (placements.map (checksOf s.graph placements)) := by
  rcases schedule_recorded hs.wellFormed hs.valid hs.slots_lt hs.apart with
    ⟨r, heq, hend, hrecorded⟩ | ⟨r, heq, -⟩ | ⟨waiting, r, heq, -⟩
  · rw [heq] at h ⊢
    obtain rfl := Except.ok.inj h
    have hperm : (r.placements.map (·.task)).Perm s.graph.ids := by
      simpa using hend.perm
    have hready : ∀ v, readyAt s.graph r.placements.reverse v = readyAt s.graph r.placements v :=
      readyAt_congr fun p => List.mem_reverse
    have hcount : ∀ p ∈ r.placements, (r.trail p.task).count .pending =
        checksOf s.graph r.placements.reverse p := by
      intro p hp
      rw [hrecorded.traced.finished p hp (hend.sound.time_lt_of_idle hend.idle hp), checksOf,
        hready]
      simp [count_deferrals]
    refine ⟨?_, fun p hp => ⟨?_, ?_⟩, ?_⟩
    · exact ((List.reverse_perm _).map _).trans hperm
    · rw [hready]
      refine readyAt_le_iff.2 fun q hq hjoins => ?_
      obtain ⟨q', hq', htask, hlt⟩ :=
        hend.sound.predecessors p (List.mem_reverse.1 hp) q.task hjoins
      rwa [List.inj_on_of_nodup_map hend.awaits.nodup_placements hq' hq htask] at hlt
    · rw [← hcount p (List.mem_reverse.1 hp)]
      simp [conclude, Run.trail, List.filterMap_reverse, ListingEvent.entered]
    · have htotal : Word.total (s.graph.ids.map fun v => (r.trail v).count .pending) =
          Word.total (r.placements.reverse.map (checksOf s.graph r.placements.reverse)) := by
        calc
          _ = Word.total (r.placements.map fun p => (r.trail p.task).count .pending) := by
            rw [← Word.total_perm (hperm.map _), List.map_map]
            rfl
          _ = Word.total (r.placements.map (checksOf s.graph r.placements.reverse)) := by
            rw [List.map_congr_left hcount]
          _ = _ := Word.total_perm ((List.reverse_perm _).symm.map _)
      rw [← htotal]
      exact hrecorded.booked.checks_eq
  · rw [heq] at h
    cases h
  · rw [heq] at h
    cases h

/-- Each run adds the checks of its timetable. -/
theorem Runnable.checks_after (hs : Runnable s) (h : s.schedule.result = .ok placements)
    (runs : Nat) : (s.after runs).checks =
      s.checks + runs * Word.total (placements.map (checksOf s.graph placements)) := by
  induction runs with
  | zero => simp [ListScheduler.after]
  | succ runs ih =>
    have hdone := (hs.result_after runs).trans h
    obtain ⟨-, -, hchecks⟩ := (hs.after runs).checks_of_done hdone
    rw [graph_after, ih] at hchecks
    rw [ListScheduler.after, hchecks, Nat.succ_mul]
    omega

/-- Every run of a scheduler ends alike.  If it returns a timetable, each run checks every
task once in each step from the first in which its predecessors have finished to its own,
and the checks of all runs are counted. -/
theorem schedule_checks {g : TaskGraph} {settings : Settings} (hg : g.WellFormed)
    (hac : g.Acyclic) (hvalid : settings.validate = .ok ())
    (hslots : settings.slotsPerBarrier < Word.bound) :
    ∃ s, create g settings = .ok s ∧ ∀ hints runs,
      (after { s with hints } runs).schedule.result = (schedule { s with hints }).result ∧
      ∀ placements, (schedule { s with hints }).result = .ok placements →
        (placements.map (·.task)).Perm g.ids ∧
        (∀ p ∈ placements, readyAt g placements p.task ≤ p.time ∧
          ((after { s with hints } runs).schedule.events.filterMap (·.entered p.task)).count
            .pending = p.time - readyAt g placements p.task + 1) ∧
        (after { s with hints } runs).checks = runs * Word.total
          (placements.map fun p => p.time - readyAt g placements p.task + 1) := by
  obtain ⟨s, levels, hcreate, -, -, rfl, rfl, hranked⟩ := create_spec hg hac hvalid
  refine ⟨s, hcreate, fun hints runs => ?_⟩
  have hs : Runnable { s with hints } := ⟨hg, hac, hvalid, hslots, hranked.ranksApart⟩
  have hsame := hs.result_after runs
  refine ⟨hsame, fun placements hok => ?_⟩
  obtain ⟨hperm, htasks, -⟩ := (hs.after runs).checks_of_done (hsame.trans hok)
  rw [graph_after] at hperm htasks
  refine ⟨hperm, htasks, ?_⟩
  have hchecks : (after { s with hints } runs).checks =
      s.checks + runs * Word.total (placements.map (checksOf s.graph placements)) :=
    hs.checks_after hok runs
  refine hchecks.trans ?_
  rw [(fresh_of_create hcreate).checks_eq, Nat.zero_add]
  rfl

/-- The sample is run three times, with a hint. -/
theorem schedule_checks_diamond :
    let settings : Settings := { cmxSize := 128, barrierCount := 1, slotsPerBarrier := 4 }
    settings.validate = .ok () ∧ ∃ s placements, create .diamond settings = .ok s ∧
      (schedule { s with hints := [(1, [3, 1])] }).result = .ok placements ∧
      (after { s with hints := [(1, [3, 1])] } 3).checks = 3 * Word.total
        (placements.map fun p => p.time - readyAt .diamond placements p.task + 1) := by
  intro settings
  have hvalid : settings.validate = .ok () := Settings.validate_eq_ok_iff.2 (by decide +kernel)
  have hwf := TaskGraph.wellFormed_diamond
  have hac := TaskGraph.acyclic_diamond
  obtain ⟨s, hcreate, hall⟩ := schedule_checks hwf hac hvalid (by decide)
  obtain ⟨s', levels, hcreate', -, -, hgraph, hsettings, -⟩ := create_spec hwf hac hvalid
  obtain rfl : s' = s := Except.ok.inj (hcreate'.symm.trans hcreate)
  have hprepared : Prepared { s' with hints := [(1, [3, 1])] } := by
    constructor <;> simp only [hgraph, hsettings]
    · exact hwf
    · exact hvalid
    · decide
    · decide +kernel
  obtain ⟨placements, hok, -⟩ := schedule_done hprepared (hgraph ▸ hac) (by
    simp only [hgraph, hsettings]
    decide +kernel)
  exact ⟨hvalid, s', placements, hcreate, hok, ((hall [(1, [3, 1])] 3).2 placements hok).2.2⟩

end TaskLoom.ListScheduler
