import TaskLoom.Proofs.Graph.Matching
import TaskLoom.Proofs.Timetable.Deferral
import TaskLoom.Timetable.Prefetch

/-!
# Timetables of matching graphs

The plain list scheduler looks at a graph through its ids, its tasks and their predecessors,
and at ranks only to compare those of two tasks.  All this is the same for matching
graphs, so it places their tasks alike.  The search for prefetches looks at nothing else
either.

## Main results

* `Corresponds.schedule_eq` — the plain scheduler places the tasks of matching graphs alike.
* `Matches.findPrefetches_eq` — a timetable has the same prefetches for matching graphs.
-/

namespace TaskLoom

namespace ListScheduler

variable {s s' : ListScheduler}

/-- Two schedulers over matching graphs, with the same settings and hints, that rank tasks in
the same order. -/
structure Corresponds (s s' : ListScheduler) : Prop where
  graphs : s.graph.Matches s'.graph
  settings_eq : s'.settings = s.settings
  hints_eq : s'.hints = s.hints
  apart : RanksApart s
  rank_le_iff : ∀ a ∈ s.graph.ids, ∀ b ∈ s.graph.ids, s'.rank a ≤ s'.rank b ↔ s.rank a ≤ s.rank b

namespace Corresponds

/-- Schedulers that rank by level and id rank in the same order, because the levels of
matching graphs are the same. -/
theorem of_ranked {levels levels' : Array Nat} (hmatch : s.graph.Matches s'.graph)
    (hg : s.graph.WellFormed) (hsettings : s'.settings = s.settings) (hhints : s'.hints = s.hints)
    (hlevels : s.graph.HasLevels levels) (hlevels' : s'.graph.HasLevels levels')
    (hranked : Ranked s levels) (hranked' : Ranked s' levels') : Corresponds s s' := by
  have hids := hmatch.ids_eq
  have hsame := hmatch.levels_eq hg hlevels hlevels'
  have hahead : ∀ a ∈ s.graph.ids, ∀ b ∈ s.graph.ids, Ahead levels' a b ↔ Ahead levels a b := by
    intro a ha b hb
    rw [Ahead, Ahead, hsame a ha, hsame b hb]
  refine ⟨hmatch, hsettings, hhints, hranked.ranksApart, fun a ha b hb => ?_⟩
  have ha' : a ∈ s'.graph.ids := hids.symm ▸ ha
  have hb' : b ∈ s'.graph.ids := hids.symm ▸ hb
  constructor
  · intro hle
    by_contra hlt
    obtain rfl := ((hahead a ha b hb).1 (hranked' a ha' b hb' hle)).antisymm
      (hranked b hb a ha (Nat.le_of_not_le hlt))
    exact hlt (Nat.le_refl _)
  · intro hle
    by_contra hlt
    obtain rfl := (hranked a ha b hb hle).antisymm
      ((hahead b hb a ha).1 (hranked' b hb' a ha' (Nat.le_of_not_le hlt)))
    exact hlt (Nat.le_refl _)

theorem sortByRank_eq (h : Corresponds s s') {tasks : List Nat}
    (hids : ∀ t ∈ tasks, t ∈ s.graph.ids) : s'.sortByRank tasks = s.sortByRank tasks := by
  have hperm := s.sortByRank_perm tasks
  have hperm' := s'.sortByRank_perm tasks
  have hsorted : (s'.sortByRank tasks).Pairwise (s.rank · ≤ s.rank ·) :=
    (s'.pairwise_sortByRank tasks).imp_of_mem fun {a b} ha hb hab =>
      (h.rank_le_iff a (hids a (hperm'.mem_iff.1 ha)) b (hids b (hperm'.mem_iff.1 hb))).1 hab
  refine (hperm'.trans hperm.symm).eq_of_pairwise ?_ hsorted (s.pairwise_sortByRank tasks)
  intro a b ha hb hab hba
  exact h.apart a (hids a (hperm'.mem_iff.1 ha)) b (hids b (hperm.mem_iff.1 hb))
    (Nat.le_antisymm hab hba)

/-! ## One iteration -/

theorem unplaced_eq (h : Corresponds s s') (r : Run) :
    Plain.unplaced s' r = Plain.unplaced s r := by
  rw [Plain.unplaced, Plain.unplaced, h.graphs.ids_eq]

theorem ready_eq (h : Corresponds s s') (r : Run) : Plain.ready s' r = Plain.ready s r := by
  unfold Plain.ready
  rw [h.unplaced_eq, h.graphs.predecessors_eq]
  exact h.sortByRank_eq fun t ht => (Plain.mem_unplaced.1 (List.mem_filter.1 ht).1).1

theorem fits_eq (h : Corresponds s s') : s'.fits = s.fits := by
  funext r task
  rw [fits, fits, h.graphs.task_eq]

theorem place_eq (h : Corresponds s s') : s'.place = s.place := by
  funext task r
  unfold place
  rw [h.graphs.task_eq]

theorem firstFitting_eq (h : Corresponds s s') (r : Run) (tasks : List Nat) :
    Plain.firstFitting s' r tasks = Plain.firstFitting s r tasks := by
  induction tasks with
  | nil => rfl
  | cons task rest ih => rw [Plain.firstFitting, Plain.firstFitting, h.fits_eq, ih]

theorem placeHinted_eq (h : Corresponds s s') (tasks : List Nat) (r : Run) :
    Plain.placeHinted s' tasks r = Plain.placeHinted s tasks r := by
  induction tasks generalizing r with
  | nil => rfl
  | cons task rest ih =>
    rw [Plain.placeHinted, Plain.placeHinted, h.ready_eq, h.fits_eq, h.place_eq]
    simp only [ih]

theorem shortfall_eq (h : Corresponds s s') (r : Run) :
    Plain.shortfall s' r = Plain.shortfall s r := by
  have hshortage : s'.shortage = s.shortage := by
    funext task memory
    rw [shortage, shortage, h.graphs.task_eq, h.settings_eq]
  unfold Plain.shortfall
  rw [h.ready_eq, h.unplaced_eq, h.graphs.name_eq, hshortage]

theorem step_eq (h : Corresponds s s') (r : Run) : Plain.step s' r = Plain.step s r := by
  unfold Plain.step
  rw [h.ready_eq, h.firstFitting_eq, h.place_eq, h.hints_eq, h.unplaced_eq, h.shortfall_eq]
  simp only [h.placeHinted_eq]

/-! ## All iterations -/

theorem loop_eq (h : Corresponds s s') (r : Run) : Plain.loop s' r = Plain.loop s r := by
  fun_induction Plain.loop s r with
  | case1 r fault hstep => exact Plain.loop_error ((h.step_eq r).trans hstep)
  | case2 r hstep => exact Plain.loop_none ((h.step_eq r).trans hstep)
  | case3 r r₁ hstep ih => exact (Plain.loop_some ((h.step_eq r).trans hstep)).trans ih

/-- The plain scheduler places the tasks of matching graphs alike. -/
theorem schedule_eq (h : Corresponds s s') : Plain.schedule s' = Plain.schedule s := by
  unfold Plain.schedule
  rw [h.settings_eq]
  split
  · rfl
  · exact h.loop_eq _

end Corresponds

end ListScheduler

/-! ## Prefetches -/

namespace TaskGraph.Matches

variable {g g' : TaskGraph}

theorem judgeTransfer_eq (h : g.Matches g') : judgeTransfer g' = judgeTransfer g := by
  funext order limits compute transfer level search
  unfold judgeTransfer
  rw [h.predecessors_eq, h.task_eq]

theorem scanAfter_eq (h : g.Matches g') (order : List Placement) (limits : PrefetchLimits)
    (compute : Placement) (level : Nat) (rest : List Placement) (search : PrefetchSearch) :
    scanAfter g' order limits compute level rest search =
      scanAfter g order limits compute level rest search := by
  induction rest generalizing level search with
  | nil => rfl
  | cons later rest ih =>
    rw [scanAfter, scanAfter, h.task_eq, h.judgeTransfer_eq]
    simp only [ih]

theorem scanAll_eq (h : g.Matches g') (order : List Placement) (limits : PrefetchLimits)
    (rest : List Placement) (search : PrefetchSearch) :
    scanAll g' order limits rest search = scanAll g order limits rest search := by
  induction rest generalizing search with
  | nil => rfl
  | cons compute rest ih =>
    rw [scanAll, scanAll, h.task_eq, h.scanAfter_eq]
    simp only [ih]

/-- A timetable has the same prefetches for matching graphs. -/
theorem findPrefetches_eq (h : g.Matches g') : findPrefetches g' = findPrefetches g := by
  funext placements cmxSize limits
  unfold findPrefetches
  simp only [h.scanAll_eq]

end TaskGraph.Matches

end TaskLoom
