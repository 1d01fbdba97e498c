import Mathlib.Data.Finset.Max
import TaskLoom.Proofs.Timetable.Times
import TaskLoom.Timetable.Ordering

/-!
# Tasks of consecutive steps

Two tasks stand in consecutive steps if no task runs at a time strictly between theirs.
The occupied steps are listed in ascending order without gaps, so the pairs of neighbours
in this list are exactly such tasks.

A graph that joins all tasks of consecutive steps has a path between any two tasks of
different steps: it passes through one task of each step in between.

## Main results

* `mem_consecutivePairs` — which pairs are tasks of consecutive steps.
* `exists_latest` — some task with a property is the last before a time.
* `exists_consecutive` — before a step that is not the first, there is a last one.
* `before_of_time_lt` — edges between consecutive steps order all steps.
-/

namespace TaskLoom.Timetable

variable {placements : List Placement} {p q : Placement} {time u v : Nat}

/-- The first task is placed in an earlier step than the second, and none between them. -/
structure Consecutive (placements : List Placement) (p q : Placement) : Prop where
  left_mem : p ∈ placements
  right_mem : q ∈ placements
  lt : p.time < q.time
  gap : ∀ r ∈ placements, r.time ≤ p.time ∨ q.time ≤ r.time

/-! ## Neighbours in the list of steps -/

theorem mem_product {earlier later : List Placement} :
    (u, v) ∈ product earlier later ↔ ∃ p ∈ earlier, ∃ q ∈ later, p.task = u ∧ q.task = v := by
  simp [product]

section Remaining

variable {step next : Nat × List Placement} {rest : List (Nat × List Placement)}

theorem Remaining.mem_first (h : Remaining placements time (step :: rest)) :
    p ∈ step.2 ↔ p ∈ placements ∧ p.time = step.1 := by
  rw [h.eq_placedAt step List.mem_cons_self, mem_placedAt]

/-- The tasks of the first two steps that remain are consecutive, and from the first step
no others are. -/
theorem Remaining.consecutive_iff (h : Remaining placements time (step :: next :: rest))
    (hp : p ∈ step.2) : Consecutive placements p q ↔ q ∈ next.2 := by
  obtain ⟨hplaced, hptime⟩ := h.mem_first.1 hp
  obtain ⟨hlt, hnext⟩ := h.tail.first_le
  rw [h.tail.mem_first]
  constructor
  · intro hpq
    have hle := hpq.lt
    have hge := hnext q hpq.right_mem (by omega)
    -- someone runs in the next step, so `q` does not run after it
    obtain ⟨-, r, hr, hrtime⟩ := (h.tail.occupied next.1).1 (by simp)
    have hgap := hpq.gap r hr
    exact ⟨hpq.right_mem, by omega⟩
  · rintro ⟨hq, hqtime⟩
    refine ⟨hplaced, hq, by omega, ?_⟩
    intro r hr
    by_cases hrtime : r.time ≤ step.1
    · left
      omega
    · right
      rw [hqtime]
      exact hnext r hr (by omega)

/-- In the last step no task has a later one. -/
theorem Remaining.not_consecutive (h : Remaining placements time [step])
    (hle : time ≤ p.time) : ¬ Consecutive placements p q := by
  intro hpq
  have hlt := hpq.lt
  have hp := (h.occupied p.time).2 ⟨hle, p, hpq.left_mem, rfl⟩
  have hq := (h.occupied q.time).2 ⟨by omega, q, hpq.right_mem, rfl⟩
  simp only [List.map_cons, List.map_nil, List.mem_singleton] at hp hq
  omega

end Remaining

/-- The pairs of neighbours among the steps that remain are the tasks of consecutive
steps. -/
theorem Remaining.mem_consecutivePairs {steps : List (Nat × List Placement)}
    (h : Remaining placements time steps) :
    (u, v) ∈ consecutivePairs steps ↔
      ∃ p q, time ≤ p.time ∧ Consecutive placements p q ∧ p.task = u ∧ q.task = v := by
  induction steps generalizing time with
  | nil =>
    simp only [consecutivePairs, List.not_mem_nil, false_iff]
    rintro ⟨p, q, hle, hpq, -⟩
    exact absurd ((h.occupied p.time).2 ⟨hle, p, hpq.left_mem, rfl⟩) (by simp)
  | cons step rest ih =>
    cases rest with
    | nil =>
      simp only [consecutivePairs, List.not_mem_nil, false_iff]
      rintro ⟨p, q, hle, hpq, -⟩
      exact h.not_consecutive hle hpq
    | cons next rest =>
      have hle := h.first_le.1
      rw [consecutivePairs, List.mem_append, mem_product, ih h.tail]
      constructor
      · rintro (⟨p, hp, q, hq, htasks⟩ | ⟨p, q, hlt, hpq, htasks⟩)
        · have hptime := (h.mem_first.1 hp).2
          exact ⟨p, q, by omega, (h.consecutive_iff hp).2 hq, htasks⟩
        · exact ⟨p, q, by omega, hpq, htasks⟩
      · rintro ⟨p, q, hptime, hpq, htasks⟩
        rcases Nat.eq_or_lt_of_le (h.first_le.2 p hpq.left_mem hptime) with heq | hlt
        · have hp : p ∈ step.2 := h.mem_first.2 ⟨hpq.left_mem, heq.symm⟩
          exact Or.inl ⟨p, hp, q, (h.consecutive_iff hp).1 hpq, htasks⟩
        · exact Or.inr ⟨p, q, hlt, hpq, htasks⟩

/-- The pairs that a timetable has in consecutive steps. -/
theorem mem_consecutivePairs :
    (u, v) ∈ consecutivePairs (steps placements) ↔
      ∃ p q, Consecutive placements p q ∧ p.task = u ∧ q.task = v := by
  rw [(remaining_steps placements).mem_consecutivePairs]
  simp

/-! ## Paths through all steps -/

/-- Of the tasks with a property that run before a time, one runs last. -/
theorem exists_latest (P : Placement → Prop) (hp : p ∈ placements) (hlt : p.time < time)
    (hP : P p) :
    ∃ r ∈ placements, P r ∧ r.time < time ∧ p.time ≤ r.time ∧
      ∀ s ∈ placements, P s → s.time < time → s.time ≤ r.time := by
  classical
  let earlier := placements.toFinset.filter fun r => P r ∧ r.time < time
  have hmem : ∀ r, r ∈ earlier ↔ r ∈ placements ∧ P r ∧ r.time < time := by simp [earlier]
  have hfirst : p ∈ earlier := (hmem p).2 ⟨hp, hP, hlt⟩
  obtain ⟨r, hr, hlatest⟩ := earlier.exists_max_image (·.time) ⟨p, hfirst⟩
  obtain ⟨hplaced, hPr, hrtime⟩ := (hmem r).1 hr
  refine ⟨r, hplaced, hPr, hrtime, hlatest p hfirst, ?_⟩
  intro s hs hPs hstime
  exact hlatest s ((hmem s).2 ⟨hs, hPs, hstime⟩)

/-- Between two tasks of different steps, or beside the first, stands a task of the last
step before the second. -/
theorem exists_consecutive (hp : p ∈ placements) (hq : q ∈ placements) (hlt : p.time < q.time) :
    ∃ r, Consecutive placements r q ∧ p.time ≤ r.time := by
  obtain ⟨r, hr, -, hrtime, hle, hlatest⟩ := exists_latest (fun _ => True) hp hlt trivial
  refine ⟨r, ⟨hr, hq, hrtime, ?_⟩, hle⟩
  intro s hs
  by_cases hstime : s.time < q.time
  · exact Or.inl (hlatest s hs trivial hstime)
  · exact Or.inr (Nat.le_of_not_lt hstime)

/-- If the tasks of consecutive steps are joined, there is a path from every task to every
task of a later step. -/
theorem before_of_time_lt {g : TaskGraph}
    (hjoins : ∀ p q, Consecutive placements p q → g.Joins p.task q.task)
    (hp : p ∈ placements) (hq : q ∈ placements) (hlt : p.time < q.time) :
    g.Before p.task q.task := by
  -- by induction on the time of the later task, from step to step
  induction htime : q.time using Nat.strong_induction_on generalizing q with
  | _ time ih =>
    obtain ⟨r, hrq, hle⟩ := exists_consecutive hp hq hlt
    rcases Nat.eq_or_lt_of_le hle with heq | hpr
    · have hpq : Consecutive placements p q :=
        ⟨hp, hq, hlt, fun s hs => by rw [heq]; exact hrq.gap s hs⟩
      exact Relation.TransGen.single (hjoins p q hpq)
    · have hrtime : r.time < time := htime ▸ hrq.lt
      exact (ih r.time hrtime hrq.left_mem hpr rfl).tail (hjoins r q hrq)

end TaskLoom.Timetable
