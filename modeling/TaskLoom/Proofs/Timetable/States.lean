import Mathlib.Data.List.Infix
import TaskLoom.Proofs.Timetable.Refusal
import TaskLoom.Proofs.Timetable.Rounds

/-!
# The states of a task

Every change of a task's state is recorded.  A ready task is checked once in a step.  If it
does not fit it is set aside and checked again in the next step.  If it fits it is
scheduled, and retired at the end of the step.  So its record is a number of failed checks,
followed by a part of one successful pass.

How many checks failed is known: one in each step between the first in which all
predecessors have finished and the one in which the task is placed.

When a run is stuck, what was set aside exceeds the hardware, what comes after it was never
checked, and all else has retired.

## Main results

* `Traced` — the record of every task in the middle of a run.
* `Traced.setAside`, `Traced.place`, `Traced.next` — what considering a task and ending a
  step make of it.
* `schedule_recorded` — the records when a run ends.
* `Stuck.mem_placements_iff`, `Stuck.mem_deferred_iff` — which tasks were placed and which
  were set aside when a run is stuck.
* `schedule_history` — the states that every task goes through, and the last of them.
-/

namespace TaskLoom

/-- The state to which an event moves a task. -/
def ListingEvent.entered (task : Nat) : ListingEvent → Option TaskState
  | .stateChange t _ after => if t = task then some after else none
  | _ => none

namespace ListScheduler

open Timetable (placedAt)

variable {s : ListScheduler} {r r' r₁ r₂ : Run} {waiting ready rest : List Nat} {task : Nat}

/-! ## Records -/

/-- The states to which a task was moved, the last one first. -/
def Run.trail (r : Run) (task : Nat) : List TaskState :=
  r.events.filterMap (·.entered task)

/-- The states that a task goes through in a run of a fresh scheduler. -/
def Listing.history (l : Listing) (task : Nat) : List TaskState :=
  .unscheduled :: l.events.filterMap (·.entered task)

/-- Both runs have recorded the same states and checks. -/
structure SameRecord (r r' : Run) : Prop where
  states_eq : r'.states = r.states
  checks_eq : r'.checks = r.checks
  trail_eq : ∀ v, r'.trail v = r.trail v

theorem trail_enter (r : Run) (task : Nat) (state : TaskState) (v : Nat) :
    (r.enter task state).trail v = if v = task then state :: r.trail v else r.trail v := by
  unfold Run.trail Run.enter Run.record
  by_cases heq : v = task
  · simp [ListingEvent.entered, heq]
  · simp [ListingEvent.entered, heq, Ne.symm heq]

theorem trail_checked (task : Nat) (r : Run) (v : Nat) :
    (checked task r).trail v = if v = task then .pending :: r.trail v else r.trail v :=
  trail_enter r task .pending v

/-- What is recorded of a hint is no change of a state. -/
def noted (task : Nat) (beside : Option Nat) (r : Run) : Run :=
  match beside with
  | some other => r.record (.prefetched task other)
  | none => r

theorem sameRecord_noted (task : Nat) (beside : Option Nat) (r : Run) :
    SameRecord r (noted task beside r) := by
  cases beside <;> exact ⟨rfl, rfl, fun _ => rfl⟩

/-- A task is considered by checking it, and then setting it aside or placing it. -/
theorem consider_eq (s : ListScheduler) (task : Nat) (beside : Option Nat) (r : Run) :
    s.consider task beside r = match s.fits r task with
      | .error fault => .failed fault (checked task r)
      | .ok false => .done false (setAside task (checked task r))
      | .ok true => match s.place task (noted task beside (checked task r)) with
        | .failed fault r => .failed fault r
        | .done () r => .done true r := by
  unfold consider
  rw [check_eq]
  cases s.fits r task with
  | error fault => rfl
  | ok fits =>
    cases fits with
    | false => rfl
    | true => cases beside <;> rfl

theorem sameRecord_setAside (task : Nat) (r : Run) :
    SameRecord (r.enter task .deferred) (setAside task r) :=
  ⟨rfl, rfl, fun _ => rfl⟩

/-- Placing a task schedules it. -/
theorem sameRecord_place (h : s.place task r = .done () r') :
    SameRecord (r.enter task .scheduled) r' := by
  unfold place at h
  simp only at h
  split at h
  · cases h
  · split at h
    · cases h
    · cases h
      exact ⟨rfl, rfl, fun _ => rfl⟩

/-- Ending a task retires it. -/
theorem sameRecord_retire {p : Placement} (h : retire p r = .done () r') :
    SameRecord (r.enter p.task .retired) r' := by
  unfold retire at h
  simp only at h
  split at h
  · cases h
  · split at h
    · cases h
    · cases h
      exact ⟨rfl, rfl, fun _ => rfl⟩

/-! ## What is kept from run to run -/

/-- The states and the number of checks that a run keeps are those of its record. -/
structure Booked (s : ListScheduler) (r : Run) : Prop where
  size_eq : r.states.size = s.states.size
  state_eq : ∀ v < s.states.size, r.states.getD v .unscheduled = (r.trail v).headD (s.state v)
  checks_eq : r.checks =
    s.checks + Word.total (s.graph.ids.map fun v => (r.trail v).count .pending)

theorem Booked.of_sameRecord (h : Booked s r) (hsame : SameRecord r r') : Booked s r' where
  size_eq := by rw [hsame.states_eq, h.size_eq]
  state_eq v hv := by rw [hsame.states_eq, hsame.trail_eq, h.state_eq v hv]
  checks_eq := by
    rw [hsame.checks_eq, h.checks_eq]
    simp only [hsame.trail_eq]

/-- The state to which a task is moved is the last of its record. -/
theorem state_enter (hsize : r.states.size = s.states.size)
    (hstate : ∀ v < s.states.size, r.states.getD v .unscheduled = (r.trail v).headD (s.state v))
    (task : Nat) (state : TaskState) {v : Nat} (hv : v < s.states.size) :
    (r.enter task state).states.getD v .unscheduled =
      ((r.enter task state).trail v).headD (s.state v) := by
  rw [trail_enter]
  show (r.states.setIfInBounds task state).getD v .unscheduled = _
  by_cases heq : v = task
  · subst heq
    simp [hsize, hv]
  · rw [if_neg heq, ← hstate v hv]
    simp [Ne.symm heq]

/-- Moving a task to a state that is no check. -/
theorem Booked.enter (h : Booked s r) (task : Nat) {state : TaskState}
    (hstate : state ≠ .pending) : Booked s (r.enter task state) where
  size_eq := by
    rw [← h.size_eq]
    exact Array.size_setIfInBounds
  state_eq _ hv := state_enter h.size_eq h.state_eq task state hv
  checks_eq := by
    have hcount : ∀ v, ((r.enter task state).trail v).count .pending =
        (r.trail v).count .pending := by
      intro v
      rw [trail_enter]
      split
      · exact List.count_cons_of_ne hstate
      · rfl
    simp only [hcount]
    exact h.checks_eq

/-- One more of one task is one more in total. -/
theorem total_map_succ {tasks : List Nat} (hnodup : tasks.Nodup) (htask : task ∈ tasks)
    {f f' : Nat → Nat} (hone : f' task = f task + 1) (hothers : ∀ v, v ≠ task → f' v = f v) :
    Word.total (tasks.map f') = Word.total (tasks.map f) + 1 := by
  have hperm := List.perm_cons_erase htask
  have hsame : (tasks.erase task).map f' = (tasks.erase task).map f := by
    refine List.map_congr_left fun v hv => hothers v ?_
    rintro rfl
    exact hnodup.not_mem_erase hv
  rw [Word.total_perm (hperm.map f'), Word.total_perm (hperm.map f), List.map_cons, List.map_cons,
    hsame, Word.total_cons, Word.total_cons, hone]
  omega

/-- A check is counted and recorded. -/
theorem Booked.checked (h : Booked s r) (htask : task ∈ s.graph.ids) :
    Booked s (checked task r) where
  size_eq := by
    rw [← h.size_eq]
    exact Array.size_setIfInBounds
  state_eq _ hv := state_enter h.size_eq h.state_eq task .pending hv
  checks_eq := by
    have htotal := @total_map_succ task _ s.graph.nodup_ids htask
      (fun v => (r.trail v).count .pending)
      (fun v => ((ListScheduler.checked task r).trail v).count .pending)
      (by simp [trail_checked]) (fun v hv => by simp only [trail_checked, if_neg hv])
    rw [htotal, ← Nat.add_assoc, ← h.checks_eq]
    rfl

/-! ## Records in the middle of a run -/

/-- The first step in which all predecessors of a task have finished. -/
def readyAt (g : TaskGraph) (placements : List Placement) (v : Nat) : Nat :=
  ((placements.filter fun p => g.Joins p.task v).map (·.time + 1)).foldr max 0

theorem readyAt_le_iff {g : TaskGraph} {placements : List Placement} {v time : Nat} :
    readyAt g placements v ≤ time ↔ ∀ p ∈ placements, g.Joins p.task v → p.time < time := by
  unfold readyAt
  induction placements with
  | nil => simp
  | cons p placements ih =>
    rw [List.forall_mem_cons, ← ih]
    by_cases hjoins : g.Joins p.task v
    · rw [List.filter_cons, if_pos (decide_eq_true hjoins), List.map_cons, List.foldr_cons,
        Nat.max_le, Nat.succ_le_iff]
      simp only [hjoins, true_implies]
    · simp [hjoins]

/-- Placing a task for which another does not wait. -/
theorem readyAt_cons {g : TaskGraph} {p : Placement} {placements : List Placement} {v : Nat}
    (hjoins : ¬ g.Joins p.task v) : readyAt g (p :: placements) v = readyAt g placements v := by
  simp [readyAt, hjoins]

/-- As many failed checks, the last one first. -/
def deferrals (count : Nat) : List TaskState :=
  (List.replicate count [.deferred, .pending]).flatten

theorem deferrals_succ (count : Nat) :
    deferrals (count + 1) = .deferred :: .pending :: deferrals count :=
  rfl

theorem count_deferrals (count : Nat) : (deferrals count).count .pending = count := by
  induction count with
  | zero => rfl
  | succ count ih => simp [deferrals_succ, ih]

/-- The records of a run with the tasks `ready` still to be considered in this step. -/
structure Traced (s : ListScheduler) (ready : List Nat) (r : Run) : Prop where
  finished : ∀ p ∈ r.placements, p.time < r.time → r.trail p.task =
    .retired :: .scheduled :: .pending ::
      deferrals (p.time - readyAt s.graph r.placements p.task)
  running : ∀ p ∈ r.placements, p.time = r.time → r.trail p.task =
    .scheduled :: .pending :: deferrals (p.time - readyAt s.graph r.placements p.task)
  aside : ∀ v ∈ r.deferred, r.trail v = deferrals (r.time - readyAt s.graph r.placements v + 1)
  awaiting : ∀ v ∈ ready, r.trail v = deferrals (r.time - readyAt s.graph r.placements v)
  others : ∀ v, v ∉ r.placements.map (·.task) → v ∉ r.deferred → v ∉ ready → r.trail v = []

/-- All predecessors of a task that was set aside have finished. -/
theorem Filling.aside_ready (h : Filling s ready r) {v : Nat} (hv : v ∈ r.deferred) (u : Nat)
    (hjoins : s.graph.Joins u v) : ∃ q ∈ r.placements, q.task = u ∧ q.time < r.time :=
  (Plain.mem_ready.1 ((h.mem_ready v).2 (Or.inr hv))).2 u hjoins

/-- A task that is to be considered is neither placed nor set aside. -/
theorem Filling.apart (h : Filling s ready r) (hperm : ready.Perm (task :: rest)) :
    task ∉ r.placements.map (·.task) ∧ task ∉ r.deferred ∧ task ∉ rest := by
  obtain ⟨-, hready, hdisjoint⟩ := List.nodup_append.1 (h.awaits.perm hperm).nodup
  refine ⟨?_, ?_, (List.nodup_cons.1 hready).1⟩
  · intro hmem
    exact hdisjoint task (List.mem_append_left _ hmem) task List.mem_cons_self rfl
  · intro hmem
    exact hdisjoint task (List.mem_append_right _ hmem) task List.mem_cons_self rfl

/-- A task that does not fit is set aside after another failed check. -/
theorem Traced.setAside (h : Traced s ready r) (hfilling : Filling s ready r)
    (hperm : ready.Perm (task :: rest))
    (hsame : SameRecord ((checked task r).enter task .deferred) r')
    (hplacements : r'.placements = r.placements) (hdeferred : r'.deferred = task :: r.deferred)
    (htime : r'.time = r.time) : Traced s rest r' := by
  obtain ⟨hplaced, haside, hrest⟩ := hfilling.apart hperm
  have htrail : ∀ v, r'.trail v =
      if v = task then .deferred :: .pending :: r.trail v else r.trail v := by
    intro v
    rw [hsame.trail_eq, trail_enter, trail_checked]
    split <;> rfl
  have hmem : ∀ v, v ∈ ready ↔ v = task ∨ v ∈ rest := by
    simp [hperm.mem_iff]
  have hother : ∀ v, v ≠ task → r'.trail v = r.trail v := by
    intro v hv
    rw [htrail, if_neg hv]
  have hne : ∀ p ∈ r.placements, p.task ≠ task := fun p hp heq =>
    hplaced (heq ▸ List.mem_map_of_mem hp)
  constructor
  · rw [hplacements, htime]
    intro p hp hlt
    rw [hother _ (hne p hp)]
    exact h.finished p hp hlt
  · rw [hplacements, htime]
    intro p hp hnow
    rw [hother _ (hne p hp)]
    exact h.running p hp hnow
  · rw [hdeferred, hplacements, htime]
    intro v hv
    rcases List.mem_cons.1 hv with rfl | hv
    · rw [htrail, if_pos rfl, h.awaiting v ((hmem v).2 (Or.inl rfl)), deferrals_succ]
    · have hv' : v ≠ task := fun heq => haside (heq ▸ hv)
      rw [hother v hv']
      exact h.aside v hv
  · rw [hplacements, htime]
    intro v hv
    have hv' : v ≠ task := fun heq => hrest (heq ▸ hv)
    rw [hother v hv']
    exact h.awaiting v ((hmem v).2 (Or.inr hv))
  · rw [hplacements, hdeferred]
    intro v hnot hnone hleft
    rw [List.mem_cons, not_or] at hnone
    rw [hother v hnone.1]
    exact h.others v hnot hnone.2 fun hready => ((hmem v).1 hready).elim hnone.1 hleft

/-- A task that fits is scheduled after its last check. -/
theorem Traced.place (h : Traced s ready r) (hfilling : Filling s ready r)
    (hperm : ready.Perm (task :: rest)) (hnoted : SameRecord (checked task r) r₁)
    (hsame : SameRecord (r₁.enter task .scheduled) r') {p : Placement} (htask : p.task = task)
    (hnow : p.time = r.time) (hplacements : r'.placements = p :: r.placements)
    (hdeferred : r'.deferred = r.deferred) (htime : r'.time = r.time) : Traced s rest r' := by
  have htrail : ∀ v, r'.trail v =
      if v = task then .scheduled :: .pending :: r.trail v else r.trail v := by
    intro v
    rw [hsame.trail_eq, trail_enter, hnoted.trail_eq, trail_checked]
    split <;> rfl
  subst htask
  obtain ⟨hplaced, haside, hrest⟩ := hfilling.apart hperm
  have hmem : ∀ v, v ∈ ready ↔ v = p.task ∨ v ∈ rest := by
    simp [hperm.mem_iff]
  have hne : ∀ q ∈ r.placements, q.task ≠ p.task := fun q hq heq =>
    hplaced (heq ▸ List.mem_map_of_mem hq)
  -- nothing that is placed, set aside or ready waits for the task, which was not placed
  have hsame : ∀ v, (∀ u, s.graph.Joins u v → ∃ q ∈ r.placements, q.task = u) →
      readyAt s.graph r'.placements v = readyAt s.graph r.placements v := by
    intro v hbefore
    rw [hplacements]
    refine readyAt_cons fun hjoins => ?_
    obtain ⟨q, hq, hqtask⟩ := hbefore p.task hjoins
    exact hne q hq hqtask
  have hsound : ∀ q ∈ r.placements, readyAt s.graph r'.placements q.task =
      readyAt s.graph r.placements q.task := by
    intro q hq
    refine hsame q.task fun u hjoins => ?_
    obtain ⟨q', hq', hu, -⟩ := hfilling.sound.predecessors q hq u hjoins
    exact ⟨q', hq', hu⟩
  have hready : ∀ v ∈ ready, readyAt s.graph r'.placements v =
      readyAt s.graph r.placements v := by
    intro v hv
    refine hsame v fun u hjoins => ?_
    obtain ⟨q, hq, hu, -⟩ := hfilling.awaits.ready v hv u hjoins
    exact ⟨q, hq, hu⟩
  constructor
  · intro q hq hlt
    rw [hplacements] at hq
    rcases List.mem_cons.1 hq with rfl | hq
    · omega
    · rw [htrail, if_neg (hne q hq), hsound q hq]
      exact h.finished q hq (htime ▸ hlt)
  · intro q hq heq
    rw [hplacements] at hq
    rcases List.mem_cons.1 hq with rfl | hq
    · have hmine := (hmem q.task).2 (Or.inl rfl)
      rw [htrail, if_pos rfl, hready _ hmine, h.awaiting _ hmine, hnow]
    · rw [htrail, if_neg (hne q hq), hsound q hq]
      exact h.running q hq (htime ▸ heq)
  · intro v hv
    rw [hdeferred] at hv
    have hbefore : ∀ u, s.graph.Joins u v → ∃ q ∈ r.placements, q.task = u := by
      intro u hjoins
      obtain ⟨q, hq, hu, -⟩ := hfilling.aside_ready hv u hjoins
      exact ⟨q, hq, hu⟩
    have hv' : v ≠ p.task := fun heq => haside (heq ▸ hv)
    rw [htrail, if_neg hv', hsame v hbefore, htime]
    exact h.aside v hv
  · intro v hv
    have hv' : v ≠ p.task := fun heq => hrest (heq ▸ hv)
    have hmine := (hmem v).2 (Or.inr hv)
    rw [htrail, if_neg hv', hready v hmine, htime]
    exact h.awaiting v hmine
  · intro v hnot hnone hleft
    rw [hplacements, List.map_cons, List.mem_cons, not_or] at hnot
    rw [hdeferred] at hnone
    rw [htrail, if_neg hnot.1]
    exact h.others v hnot.2 hnone fun hready => ((hmem v).1 hready).elim hnot.1 hleft

/-! ## The end of a step -/

theorem retireAll_record {left : List Placement} (h : retireAll left r = .done () r')
    (hnodup : (left.map (·.task)).Nodup) (hbooked : Booked s r) :
    Booked s r' ∧ ∀ v, r'.trail v =
      if v ∈ left.map (·.task) then .retired :: r.trail v else r.trail v := by
  induction left generalizing r with
  | nil =>
    cases h
    exact ⟨hbooked, fun v => by simp⟩
  | cons p left ih =>
    rw [List.map_cons, List.nodup_cons] at hnodup
    rw [retireAll] at h
    cases hretire : retire p r with
    | failed fault r₁ =>
      rw [hretire] at h
      cases h
    | done value r₁ =>
      rw [hretire] at h
      have hsame := sameRecord_retire hretire
      have hretired : Booked s (r.enter p.task .retired) := hbooked.enter p.task (by decide)
      obtain ⟨hend, htrail⟩ := ih h hnodup.2 (hretired.of_sameRecord hsame)
      refine ⟨hend, fun v => ?_⟩
      rw [htrail, hsame.trail_eq, trail_enter, List.map_cons]
      by_cases heq : v = p.task
      · subst heq
        simp [hnodup.1]
      · simp [heq]

/-- At the end of a step, what runs retires. -/
theorem advance_record (h : advance r = .done () r') (hnodup : (r.running.map (·.task)).Nodup)
    (hbooked : Booked s r) :
    Booked s r' ∧ ∀ v, r'.trail v =
      if v ∈ r.running.map (·.task) then .retired :: r.trail v else r.trail v := by
  have hperm : (r.running.mergeSort (·.task ≤ ·.task)).Perm r.running := List.mergeSort_perm _ _
  unfold advance at h
  split at h
  · cases h
  · next r₁ hretire =>
    cases h
    obtain ⟨hend, htrail⟩ := retireAll_record hretire ((hperm.map _).nodup_iff.2 hnodup)
      (hbooked.of_sameRecord ⟨rfl, rfl, fun _ => rfl⟩)
    refine ⟨hend.of_sameRecord ⟨rfl, rfl, fun _ => rfl⟩, fun v => ?_⟩
    have hv := htrail v
    simp only [(hperm.map (·.task)).mem_iff] at hv
    exact hv

/-- What runs at the end of a step was placed in it. -/
theorem Round.mem_running_iff (h : Round s waiting ready r r₁ r₂) {p : Placement}
    (hp : p ∈ r₁.placements) : p.task ∈ r₁.running.map (·.task) ↔ p.time = r₁.time := by
  rw [h.filled.sound.running_eq, List.mem_map]
  constructor
  · rintro ⟨q, hq, heq⟩
    obtain ⟨hq, hnow⟩ := Timetable.mem_placedAt.1 hq
    rwa [← List.inj_on_of_nodup_map h.filled.awaits.nodup_placements hq hp heq]
  · intro hnow
    exact ⟨p, Timetable.mem_placedAt.2 ⟨hp, hnow⟩, rfl⟩

/-- A task that waits for others is not considered in a step. -/
theorem Round.not_considered (h : Round s waiting ready r r₁ r₂) {v : Nat} (hv : v ∈ waiting) :
    v ∉ r₁.placements.map (·.task) ∧ v ∉ r₁.deferred := by
  have hnodup := h.before.perm.nodup_iff.2 s.graph.nodup_ids
  rw [List.append_assoc, List.nodup_append] at hnodup
  have hall := h.fills.perm
  rw [h.before.none_aside, List.append_nil] at hall
  have hout : v ∉ r₁.placements.map (·.task) ++ r₁.deferred := by
    intro hmem
    rcases List.mem_append.1 (hall.mem_iff.1 hmem) with hplaced | hready
    · exact hnodup.2.2 v hplaced v (List.mem_append_left _ hv) rfl
    · exact (List.nodup_append.1 hnodup.2.1).2.2 v hv v hready rfl
  exact not_or.1 fun hor => hout (List.mem_append.2 hor)

/-- A task that a step releases can be placed in the next step at the earliest: the
predecessor that was not placed before this step is placed in it. -/
theorem Round.time_lt_readyAt (h : Round s waiting ready r r₁ r₂) {v : Nat} (hv : v ∈ waiting)
    (hplaced : ∀ u, s.graph.Joins u v → u ∈ r₁.placements.map (·.task)) :
    r₁.time < readyAt s.graph r₁.placements v := by
  obtain ⟨u, hjoins, hu⟩ := h.before.waits v hv
  obtain ⟨q, hq, rfl⟩ := List.mem_map.1 (hplaced u hjoins)
  have hnow : q.time = r₁.time := by
    rcases h.fills.places_now q hq with hold | hnow
    · exact absurd (List.mem_map_of_mem hold) hu
    · rw [hnow, h.fills.time_eq]
  by_contra hle
  have hbefore := readyAt_le_iff.1 (Nat.not_lt.1 hle) q hq hjoins
  omega

/-- When a step ends, what runs retires, what was set aside is to be checked again, and what
is released was never checked. -/
theorem Traced.next (h : Traced s [] r₁) (hround : Round s waiting ready r r₁ r₂)
    (htrail : ∀ v, r₂.trail v =
      if v ∈ r₁.running.map (·.task) then .retired :: r₁.trail v else r₁.trail v) :
    Traced s (s.sortByRank (waiting.filter (released s.graph.predecessorTable r₂) ++ r₂.deferred))
      { r₂ with deferred := [] } := by
  have hplacements := hround.placements_eq
  have htime := hround.time_eq
  have hdeferred : r₂.deferred = r₁.deferred := (advance_done hround.advance_eq).2.2
  have hsound := hround.filled.sound
  have hperm :=
    s.sortByRank_perm (waiting.filter (released s.graph.predecessorTable r₂) ++ r₂.deferred)
  have hidle : ∀ v, v ∉ r₁.placements.map (·.task) → r₂.trail v = r₁.trail v := by
    intro v hv
    rw [htrail, if_neg]
    intro hmem
    rw [hsound.running_eq] at hmem
    obtain ⟨q, hq, rfl⟩ := List.mem_map.1 hmem
    exact hv (List.mem_map_of_mem (Timetable.mem_placedAt.1 hq).1)
  constructor
  · show ∀ p ∈ r₂.placements, p.time < r₂.time → r₂.trail p.task = _ :: _ :: _ ::
      deferrals (p.time - readyAt s.graph r₂.placements p.task)
    rw [hplacements, htime]
    intro p hp hlt
    by_cases hnow : p.time = r₁.time
    · rw [htrail, if_pos ((hround.mem_running_iff hp).2 hnow), h.running p hp hnow]
    · rw [htrail, if_neg (fun hmem => hnow ((hround.mem_running_iff hp).1 hmem))]
      exact h.finished p hp (by omega)
  · show ∀ p ∈ r₂.placements, p.time = r₂.time → _
    rw [hplacements, htime]
    intro p hp heq
    have hle := hsound.time_le p hp
    omega
  · intro v hv
    cases hv
  · show ∀ v ∈ _, r₂.trail v = deferrals (r₂.time - readyAt s.graph r₂.placements v)
    rw [hplacements, htime]
    intro v hv
    rcases List.mem_append.1 (hperm.mem_iff.1 hv) with hfree | haside
    · have hwaiting := (List.mem_filter.1 hfree).1
      have hlt : r₁.time < readyAt s.graph r₁.placements v := by
        refine hround.time_lt_readyAt hwaiting fun u hjoins => ?_
        obtain ⟨q, hq, rfl, -⟩ := hround.after.ready v hv u hjoins
        exact List.mem_map_of_mem (hplacements ▸ hq)
      obtain ⟨hplaced, haside⟩ := hround.not_considered hwaiting
      rw [hidle v hplaced, h.others v hplaced haside List.not_mem_nil,
        Nat.sub_eq_zero_of_le hlt]
      rfl
    · rw [hdeferred] at haside
      have hplaced : v ∉ r₁.placements.map (·.task) :=
        (Plain.mem_ready.1 ((hround.filled.mem_ready v).2 (Or.inr haside))).1.2
      have hle : readyAt s.graph r₁.placements v ≤ r₁.time := by
        refine readyAt_le_iff.2 fun p hp hjoins => ?_
        obtain ⟨q, hq, hqp, hlt⟩ := hround.filled.aside_ready haside p.task hjoins
        rwa [← List.inj_on_of_nodup_map hround.filled.awaits.nodup_placements hq hp hqp]
      rw [hidle v hplaced, h.aside v haside, Nat.sub_add_comm hle]
  · show ∀ v, v ∉ r₂.placements.map (·.task) → v ∉ [] → v ∉ _ → r₂.trail v = []
    rw [hplacements]
    intro v hplaced _ hleft
    have hnone : v ∉ r₁.deferred := fun haside =>
      hleft (hperm.mem_iff.2 (List.mem_append_right _ (hdeferred ▸ haside)))
    rw [hidle v hplaced]
    exact h.others v hplaced hnone List.not_mem_nil

/-! ## The whole run -/

/-- A number of failed checks and a part of a successful pass, the last state first. -/
def Lived (trail : List TaskState) : Prop :=
  ∃ count passed, passed <+: [.pending, .scheduled, .retired] ∧
    trail = passed.reverse ++ deferrals count

theorem lived_deferrals (count : Nat) : Lived (deferrals count) :=
  ⟨count, [], List.nil_prefix, rfl⟩

/-- In the middle of a run, every record is of this form. -/
theorem Traced.lived (h : Traced s ready r) (hsound : Sound s r) (v : Nat) :
    Lived (r.trail v) := by
  by_cases hplaced : v ∈ r.placements.map (·.task)
  · obtain ⟨p, hp, rfl⟩ := List.mem_map.1 hplaced
    rcases Nat.lt_or_eq_of_le (hsound.time_le p hp) with hlt | hnow
    · rw [h.finished p hp hlt]
      exact ⟨_, [.pending, .scheduled, .retired], List.prefix_rfl, rfl⟩
    · rw [h.running p hp hnow]
      exact ⟨_, [.pending, .scheduled], ⟨[.retired], rfl⟩, rfl⟩
  · by_cases haside : v ∈ r.deferred
    · rw [h.aside v haside]
      exact lived_deferrals _
    · by_cases hready : v ∈ ready
      · rw [h.awaiting v hready]
        exact lived_deferrals _
      · rw [h.others v hplaced haside hready]
        exact lived_deferrals 0

/-- What holds of a run with the tasks `ready` still to be considered in this step. -/
structure Recorded (s : ListScheduler) (ready : List Nat) (r : Run) : Prop where
  booked : Booked s r
  traced : Traced s ready r

/-- What holds of a run wherever it stops. -/
structure Halted (s : ListScheduler) (r : Run) : Prop where
  booked : Booked s r
  lived : ∀ v, Lived (r.trail v)

theorem Recorded.halted (h : Recorded s ready r) (hsound : Sound s r) : Halted s r :=
  ⟨h.booked, h.traced.lived hsound⟩

theorem recorded_start (h : Starts s r) (ready : List Nat) : Recorded s ready r := by
  have htrail : ∀ v, r.trail v = [] := by
    intro v
    rw [Run.trail, h.events_eq, List.filterMap_nil]
  refine ⟨⟨?_, ?_, ?_⟩, ⟨?_, ?_, ?_, ?_, fun v _ _ _ => htrail v⟩⟩
  · rw [h.states_eq]
  · intro v _
    rw [h.states_eq, htrail]
    rfl
  · have hnone : ∀ ids : List Nat, Word.total (ids.map fun _ => 0) = 0 := by
      intro ids
      induction ids with
      | nil => rfl
      | cons id ids ih => rw [List.map_cons, Word.total_cons, ih]
    simp only [htrail, List.count_nil, hnone, h.checks_eq, Nat.add_zero]
  · simp [h.placements_eq]
  · simp [h.placements_eq]
  · simp [h.deferred_eq]
  · intro v _
    rw [htrail, h.time_eq, Nat.zero_sub]
    rfl

/-- Considering a task keeps the records. -/
theorem recorded_keptByTasks (hg : s.graph.WellFormed) (hvalid : s.settings.validate = .ok ()) :
    KeptByTasks s (Recorded s) (Halted s) := by
  intro ready rest task beside r hfilling hrecorded hperm hsub
  have hmine : task ∈ ready := hperm.mem_iff.2 List.mem_cons_self
  have hchecked : Booked s (checked task r) :=
    hrecorded.booked.checked (hfilling.awaits.mem_ids task hmine)
  have hoften := hrecorded.traced.awaiting task hmine
  rcases hfilling.consider hg hvalid hperm hsub beside with
    ⟨r', hfits, -⟩ | ⟨r', hfits, -⟩ | ⟨-, r', hfits, hconsider, -⟩
  · rw [consider_eq, hfits]
    refine ⟨hchecked, fun v => ?_⟩
    rw [trail_checked]
    split
    · next heq =>
      rw [heq, hoften]
      exact ⟨_, [.pending], ⟨[.scheduled, .retired], rfl⟩, rfl⟩
    · exact hrecorded.traced.lived hfilling.sound v
  · rw [consider_eq, hfits]
    show Recorded s rest (setAside task (checked task r))
    have hsame := sameRecord_setAside task (checked task r)
    have haside : Booked s ((checked task r).enter task .deferred) :=
      hchecked.enter task (by decide)
    refine ⟨haside.of_sameRecord hsame, hrecorded.traced.setAside hfilling hperm hsame ?_ ?_ ?_⟩ <;>
      simp only [setAside, checked, Run.enter, Run.record]
  · rw [consider_eq, hfits] at hconsider ⊢
    have hnoted := sameRecord_noted task beside (checked task r)
    have hfields : (noted task beside (checked task r)).placements = r.placements ∧
        (noted task beside (checked task r)).deferred = r.deferred ∧
        (noted task beside (checked task r)).time = r.time := by
      cases beside <;> exact ⟨rfl, rfl, rfl⟩
    cases hplace : s.place task (noted task beside (checked task r)) with
    | failed fault r'' =>
      rw [hplace] at hconsider
      cases hconsider
    | done value r'' =>
      have hsame := sameRecord_place hplace
      obtain ⟨p, htask, hnow, -, -, hplacements, hdeferred, htime⟩ := place_done hplace
      rw [hfields.1] at hplacements
      rw [hfields.2.1] at hdeferred
      rw [hfields.2.2] at hnow htime
      have hscheduled : Booked s ((noted task beside (checked task r)).enter task .scheduled) :=
        (hchecked.of_sameRecord hnoted).enter task (by decide)
      exact ⟨hscheduled.of_sameRecord hsame, hrecorded.traced.place hfilling hperm hnoted hsame
        htask hnow hplacements hdeferred htime⟩

/-- A step keeps the records. -/
theorem recorded_keptByRounds (hg : s.graph.WellFormed) (hvalid : s.settings.validate = .ok ()) :
    KeptByRounds s (Recorded s) := by
  intro waiting ready r r₁ r₂ hround hrecorded
  have hend := fill_ends hg hvalid (recorded_keptByTasks hg hvalid) ready hround.filling hrecorded
  rw [hround.fill_eq] at hend
  have hnodup : (r₁.running.map (·.task)).Nodup := by
    rw [hround.filled.sound.running_eq]
    exact hround.filled.awaits.nodup_placements.sublist (List.filter_sublist.map _)
  obtain ⟨hbooked, htrail⟩ := advance_record hround.advance_eq hnodup hend.booked
  exact ⟨hbooked.of_sameRecord ⟨rfl, rfl, fun _ => rfl⟩, hend.traced.next hround htrail⟩

/-- The records when a run ends. -/
theorem schedule_recorded (hg : s.graph.WellFormed) (hvalid : s.settings.validate = .ok ())
    (hslots : s.settings.slotsPerBarrier < Word.bound) (hapart : RanksApart s) :
    (∃ r, s.schedule = s.conclude (.done () r) ∧ Between s [] [] r ∧ Recorded s [] r) ∨
    (∃ r, s.schedule = s.conclude (.failed .overflow r) ∧ Halted s r) ∨
    ∃ waiting r, s.schedule = s.conclude (.failed (s.stuck waiting r) r) ∧ Stuck s r ∧
      Filling s [] r ∧ Recorded s [] r := by
  have hkept := recorded_keptByTasks hg hvalid
  obtain ⟨outcome, hend, heq⟩ := schedule_ends hg hvalid hslots hapart
    (recorded_keptByRounds hg hvalid) fun _ _ _ hstarts _ _ => recorded_start hstarts _
  cases hend with
  | done hbetween hrecorded => exact Or.inl ⟨_, heq, hbetween, hrecorded⟩
  | overflow hfilling hrecorded hfill =>
    have hstop := fill_ends hg hvalid hkept _ hfilling hrecorded
    rw [hfill] at hstop
    exact Or.inr (Or.inl ⟨_, heq, hstop⟩)
  | stuck hfilling hrecorded hfill hfilled hstuck =>
    have hstop := fill_ends hg hvalid hkept _ hfilling hrecorded
    rw [hfill] at hstop
    exact Or.inr (Or.inr ⟨_, _, heq, hstuck, hfilled, hstop⟩)

/-! ## Stuck runs -/

/-- What comes before a placed task is placed. -/
theorem Sound.placed_of_before (h : Sound s r) {u v : Nat} (huv : s.graph.Before u v)
    (hv : v ∈ r.placements.map (·.task)) : u ∈ r.placements.map (·.task) := by
  induction huv with
  | single step =>
    obtain ⟨p, hp, rfl⟩ := List.mem_map.1 hv
    obtain ⟨q, hq, rfl, -⟩ := h.predecessors p hp _ step
    exact List.mem_map_of_mem hq
  | tail _ step ih =>
    obtain ⟨p, hp, rfl⟩ := List.mem_map.1 hv
    obtain ⟨q, hq, rfl, -⟩ := h.predecessors p hp _ step
    exact ih (List.mem_map_of_mem hq)

theorem Sound.fitsAlone_of_placed (h : Sound s r) {v : Nat}
    (hv : v ∈ r.placements.map (·.task)) : (s.graph.task v).FitsAlone s.settings := by
  by_contra hunfit
  exact h.not_placed hunfit hv

/-- A stuck run has set aside what exceeds the hardware and comes after nothing that does. -/
theorem Stuck.mem_deferred_iff (h : Stuck s r) (hfilled : Filling s [] r)
    (hg : s.graph.WellFormed) {levels : Array Nat} (hlevels : s.graph.HasLevels levels) {v : Nat}
    (hv : v ∈ s.graph.ids) :
    v ∈ r.deferred ↔ ¬ (s.graph.task v).FitsAlone s.settings ∧
      ∀ u, s.graph.Before u v → (s.graph.task u).FitsAlone s.settings := by
  constructor
  · intro haside
    refine ⟨h.unfit v haside, fun u huv => h.sound.fitsAlone_of_placed ?_⟩
    obtain ⟨w, huw, hwv⟩ := Relation.TransGen.tail'_iff.1 huv
    obtain ⟨q, hq, rfl, -⟩ := hfilled.aside_ready haside w hwv
    rcases Relation.reflTransGen_iff_eq_or_transGen.1 huw with heq | hbefore
    · exact heq ▸ List.mem_map_of_mem hq
    · exact h.sound.placed_of_before hbefore (List.mem_map_of_mem hq)
  · rintro ⟨hunfit, hbefore⟩
    obtain ⟨d, hd, hleads⟩ := h.exists_aside hg hlevels hv (h.sound.not_placed hunfit)
    rcases Relation.reflTransGen_iff_eq_or_transGen.1 hleads with rfl | hdv
    · exact hd
    · exact absurd (hbefore d hdv) (h.unfit d hd)

/-- A stuck run has placed what fits the hardware and comes after nothing that does not. -/
theorem Stuck.mem_placements_iff (h : Stuck s r) (hg : s.graph.WellFormed)
    {levels : Array Nat} (hlevels : s.graph.HasLevels levels) {v : Nat} (hv : v ∈ s.graph.ids) :
    v ∈ r.placements.map (·.task) ↔ (s.graph.task v).FitsAlone s.settings ∧
      ∀ u, s.graph.Before u v → (s.graph.task u).FitsAlone s.settings := by
  constructor
  · intro hplaced
    exact ⟨h.sound.fitsAlone_of_placed hplaced, fun u huv =>
      h.sound.fitsAlone_of_placed (h.sound.placed_of_before huv hplaced)⟩
  · rintro ⟨hfits, hbefore⟩
    by_contra hleft
    obtain ⟨d, hd, hleads⟩ := h.exists_aside hg hlevels hv hleft
    rcases Relation.reflTransGen_iff_eq_or_transGen.1 hleads with rfl | hdv
    · exact h.unfit _ hd hfits
    · exact h.unfit d hd (hbefore d hdv)

/-! ## Histories -/

/-- The states of a task that is placed in the end, after as many failed checks. -/
def lifecycle (count : Nat) : List TaskState :=
  .unscheduled :: ((List.replicate count [.pending, .deferred]).flatten ++
    [.pending, .scheduled, .retired])

theorem reverse_deferrals (count : Nat) :
    (deferrals count).reverse = (List.replicate count [.pending, .deferred]).flatten := by
  simp [deferrals, List.reverse_flatten]

theorem Lived.prefix_lifecycle {trail : List TaskState} (h : Lived trail) :
    ∃ count, .unscheduled :: trail.reverse <+: lifecycle count := by
  obtain ⟨count, passed, hpassed, rfl⟩ := h
  refine ⟨count, ?_⟩
  rw [List.reverse_append, List.reverse_reverse, reverse_deferrals, lifecycle,
    List.cons_prefix_cons, List.prefix_append_right_inj]
  exact ⟨rfl, hpassed⟩

theorem history_conclude (s : ListScheduler) (outcome : Outcome Run Unit) (v : Nat) :
    (s.conclude outcome).history v = .unscheduled :: (outcome.state.trail v).reverse := by
  cases outcome <;>
    simp [conclude, Listing.history, Run.trail, List.filterMap_reverse, ListingEvent.entered]

theorem state_conclude (s : ListScheduler) (outcome : Outcome Run Unit) (v : Nat) :
    (s.conclude outcome).scheduler.state v = outcome.state.states.getD v .unscheduled := by
  cases outcome <;> rfl

/-- A scheduler that has not been used. -/
structure Fresh (s : ListScheduler) : Prop where
  size_eq : s.states.size = s.graph.tasks.size
  state_eq : ∀ v, s.state v = .unscheduled
  checks_eq : s.checks = 0

theorem fresh_of_create {g : TaskGraph} {settings : Settings} (h : create g settings = .ok s) :
    s.Fresh := by
  unfold create at h
  cases hvalid : settings.validate with
  | error error => simp [hvalid, bind, Except.bind] at h
  | ok value =>
    cases hlevels : g.levels with
    | error error => simp [hvalid, hlevels, bind, Except.bind] at h
    | ok levels =>
      simp only [hvalid, hlevels, bind, Except.bind, pure, Except.pure, Except.ok.injEq] at h
      subst h
      refine ⟨by simp, fun v => ?_, rfl⟩
      by_cases hv : v < g.tasks.size <;> simp [state, hv]

/-- A run of a fresh scheduler leaves every task in the last state of its record. -/
theorem Booked.state_of_fresh (h : Booked s r) (hfresh : s.Fresh) {v : Nat}
    (hv : v ∈ s.graph.ids) : r.states.getD v .unscheduled = (r.trail v).headD .unscheduled := by
  have hlt : v < s.states.size := by
    rw [hfresh.size_eq]
    exact TaskGraph.lt_size_of_mem_ids hv
  rw [h.state_eq v hlt, hfresh.state_eq]

/-- With nothing running and all considered, the state of a task tells what became of it. -/
theorem Recorded.state_eq (h : Recorded s [] r) (hsound : Sound s r) (hidle : r.running = [])
    (hfresh : s.Fresh) {v : Nat} (hv : v ∈ s.graph.ids) :
    r.states.getD v .unscheduled =
      if v ∈ r.placements.map (·.task) then .retired
      else if v ∈ r.deferred then .deferred else .unscheduled := by
  rw [h.booked.state_of_fresh hfresh hv]
  split
  · next hplaced =>
    obtain ⟨p, hp, rfl⟩ := List.mem_map.1 hplaced
    rw [h.traced.finished p hp (hsound.time_lt_of_idle hidle hp)]
    rfl
  · next hplaced =>
    split
    · next haside =>
      rw [h.traced.aside v haside, deferrals_succ]
      rfl
    · next haside =>
      rw [h.traced.others v hplaced haside List.not_mem_nil]
      rfl

/-- In a stuck run, the state of a task tells where it stands towards what exceeds the
hardware. -/
theorem Recorded.state_of_stuck (h : Recorded s [] r) (hstuck : Stuck s r)
    (hfilled : Filling s [] r) (hg : s.graph.WellFormed) {levels : Array Nat}
    (hlevels : s.graph.HasLevels levels) (hfresh : s.Fresh) {v : Nat} (hv : v ∈ s.graph.ids) :
    (r.states.getD v .unscheduled = .deferred ↔ ¬ (s.graph.task v).FitsAlone s.settings ∧
      ∀ u, s.graph.Before u v → (s.graph.task u).FitsAlone s.settings) ∧
    (r.states.getD v .unscheduled = .unscheduled ↔
      ∃ u, s.graph.Before u v ∧ ¬ (s.graph.task u).FitsAlone s.settings) ∧
    (r.states.getD v .unscheduled = .retired ↔ (s.graph.task v).FitsAlone s.settings ∧
      ∀ u, s.graph.Before u v → (s.graph.task u).FitsAlone s.settings) := by
  have hplaced := hstuck.mem_placements_iff hg hlevels hv
  have haside := hstuck.mem_deferred_iff hfilled hg hlevels hv
  have hsome : (∃ u, s.graph.Before u v ∧ ¬ (s.graph.task u).FitsAlone s.settings) ↔
      ¬ ∀ u, s.graph.Before u v → (s.graph.task u).FitsAlone s.settings := by
    simp
  rw [h.state_eq hstuck.sound hstuck.idle hfresh hv, hsome, ← hplaced, ← haside]
  by_cases hin : v ∈ r.placements.map (·.task)
  · have hboth := hplaced.1 hin
    have hout : v ∉ r.deferred := fun hmem => (haside.1 hmem).1 hboth.1
    simpa [hin, hout] using hboth.2
  · by_cases hout : v ∈ r.deferred
    · have hboth := haside.1 hout
      simpa [hin, hout] using hboth.2
    · have hunfit : ¬ ∀ u, s.graph.Before u v → (s.graph.task u).FitsAlone s.settings := by
        intro hbefore
        by_cases hfits : (s.graph.task v).FitsAlone s.settings
        · exact hin (hplaced.2 ⟨hfits, hbefore⟩)
        · exact hout (haside.2 ⟨hfits, hbefore⟩)
      simp [hin, hout, hunfit]

theorem getLast?_cons_reverse (first : TaskState) (trail : List TaskState) :
    (first :: trail.reverse).getLast? = some (trail.headD first) := by
  cases trail with
  | nil => rfl
  | cons state trail => simp [List.getLast?_cons]

/-- Wherever the run of a fresh scheduler stops, the states of a task are those of a task
that is placed in the end, as far as it came. -/
theorem Halted.history {outcome : Outcome Run Unit} (h : Halted s outcome.state)
    (hfresh : s.Fresh) {v : Nat} (hv : v ∈ s.graph.ids) :
    (∃ count, (s.conclude outcome).history v <+: lifecycle count) ∧
      ((s.conclude outcome).history v).getLast? =
        some ((s.conclude outcome).scheduler.state v) := by
  rw [history_conclude, state_conclude, getLast?_cons_reverse, h.booked.state_of_fresh hfresh hv]
  exact ⟨(h.lived v).prefix_lifecycle, rfl⟩

/-- The states of a task in the first run of a scheduler: it is checked and set aside any
number of times, checked once more, scheduled and retired, or comes only part of the way.
After a timetable is returned all tasks have retired.  After a refusal a task is set aside if
it exceeds the hardware and comes after nothing that does, it was never checked if it comes
after something that does, and it has retired otherwise.  Only a size that leaves the word
stops a run before that. -/
theorem schedule_history {g : TaskGraph} {settings : Settings} (hg : g.WellFormed)
    (hac : g.Acyclic) (hvalid : settings.validate = .ok ())
    (hslots : settings.slotsPerBarrier < Word.bound) :
    ∃ s, create g settings = .ok s ∧ ∀ hints, ∀ v ∈ g.ids,
      let listing := schedule { s with hints }
      (∃ count, listing.history v <+: lifecycle count) ∧
      (listing.history v).getLast? = some (listing.scheduler.state v) ∧
      (∀ placements, listing.result = .ok placements → listing.scheduler.state v = .retired) ∧
      ∀ fault, fault ≠ .overflow → listing.result = .error fault →
        (listing.scheduler.state v = .deferred ↔ ¬ (g.task v).FitsAlone settings ∧
          ∀ u, g.Before u v → (g.task u).FitsAlone settings) ∧
        (listing.scheduler.state v = .unscheduled ↔
          ∃ u, g.Before u v ∧ ¬ (g.task u).FitsAlone settings) ∧
        (listing.scheduler.state v = .retired ↔ (g.task v).FitsAlone settings ∧
          ∀ u, g.Before u v → (g.task u).FitsAlone settings) := by
  obtain ⟨s, levels, hcreate, -, hlevels, rfl, rfl, hranked⟩ := create_spec hg hac hvalid
  refine ⟨s, hcreate, fun hints v hv => ?_⟩
  intro listing
  have hfresh : Fresh { s with hints } := by
    obtain ⟨hsize, hstate, hchecks⟩ := fresh_of_create hcreate
    exact ⟨hsize, hstate, hchecks⟩
  rcases @schedule_recorded { s with hints } hg hvalid hslots hranked.ranksApart with
    ⟨r, heq, hend, hrecorded⟩ | ⟨r, heq, hhalted⟩ | ⟨waiting, r, heq, hstuck, hfilled, hrecorded⟩
  · have hsound := hend.sound
    obtain ⟨hpart, hlast⟩ :=
      @Halted.history _ (.done () r) (hrecorded.halted hsound) hfresh v hv
    have hplaced : v ∈ r.placements.map (·.task) := by
      have hmem := hend.perm.mem_iff.2 hv
      rwa [List.append_nil, List.append_nil] at hmem
    simp only [listing, heq]
    refine ⟨hpart, hlast, fun _ _ => ?_, fun fault _ herror => by cases herror⟩
    rw [state_conclude, Outcome.state_done, hrecorded.state_eq hsound hend.idle hfresh hv,
      if_pos hplaced]
  · obtain ⟨hpart, hlast⟩ := @Halted.history _ (.failed .overflow r) hhalted hfresh v hv
    simp only [listing, heq]
    refine ⟨hpart, hlast, fun placements hok => (by cases hok), fun fault hother herror => ?_⟩
    cases herror
    exact absurd rfl hother
  · have hsound := hstuck.sound
    obtain ⟨hpart, hlast⟩ := @Halted.history _ (.failed (stuck _ waiting r) r)
      (hrecorded.halted hsound) hfresh v hv
    simp only [listing, heq]
    refine ⟨hpart, hlast, fun placements hok => (by cases hok), fun _ _ _ => ?_⟩
    rw [state_conclude, Outcome.state_failed]
    exact hrecorded.state_of_stuck hstuck hfilled hg hlevels hfresh hv

/-- One task of the sample needs three slots, so barriers of two slots do not do.  What comes
before it retires, and what comes after it is never checked. -/
theorem schedule_history_diamond :
    let settings : Settings := { cmxSize := 128, barrierCount := 2, slotsPerBarrier := 2 }
    settings.validate = .ok () ∧ ∃ s error, create .diamond settings = .ok s ∧
      (schedule { s with hints := [(1, [3])] }).result = .error (.refused error) ∧
      (schedule { s with hints := [(1, [3])] }).scheduler.state 0 = .retired ∧
      (schedule { s with hints := [(1, [3])] }).scheduler.state 1 = .deferred ∧
      (schedule { s with hints := [(1, [3])] }).scheduler.state 4 = .unscheduled := by
  intro settings
  have hvalid : settings.validate = .ok () := Settings.validate_eq_ok_iff.2 (by decide +kernel)
  have honly : ∀ id ∈ TaskGraph.diamond.ids,
      ¬ (TaskGraph.diamond.task id).FitsAlone settings → id = 1 := by decide +kernel
  have hunfit : ¬ (TaskGraph.diamond.task 1).FitsAlone settings := by decide +kernel
  have haligned : ∀ id ∈ TaskGraph.diamond.ids,
      (TaskGraph.diamond.task id).alignedBytes settings < Word.bound := by decide +kernel
  have hforward : ∀ u v, TaskGraph.diamond.Joins u v → u < v := by
    rintro u v ⟨e, he, rfl, rfl⟩
    exact (by decide : ∀ e ∈ TaskGraph.diamond.edges, e.source < e.target) e he
  have hwf := TaskGraph.wellFormed_diamond
  have hac := TaskGraph.acyclic_diamond
  obtain ⟨s, hcreate, hall⟩ := schedule_history hwf hac hvalid (by decide)
  obtain ⟨s', levels, hcreate', -, hlevels, hgraph, hsettings, hranked⟩ :=
    create_spec hwf hac hvalid
  obtain rfl : s' = s := Except.ok.inj (hcreate'.symm.trans hcreate)
  have hprepared : Prepared { s' with hints := [(1, [3])] } := by
    constructor <;> simp only [hgraph, hsettings]
    · exact hwf
    · exact hvalid
    · decide
    · exact fun id hid size hsize =>
        Nat.lt_of_le_of_lt (Task.alignUp_le_alignedBytes hsize _) (haligned id hid)
  have haligned' : ∀ id ∈ s'.graph.ids,
      (s'.graph.task id).alignedBytes s'.settings < Word.bound := by
    rw [hgraph, hsettings]
    exact haligned
  rcases @schedule_cases _ levels hprepared (hgraph ▸ hac) haligned' (hgraph ▸ hlevels) hranked with
    ⟨-, hfits⟩ | ⟨task, -, hrefused⟩
  · simp only [hgraph, hsettings] at hfits
    exact absurd (hfits 1 (by decide)) hunfit
  · have hstates := fun v hv => (hall [(1, [3])] v hv).2.2.2 _ (by simp) hrefused
    refine ⟨hvalid, s', _, hcreate, hrefused, ?_, ?_, ?_⟩
    · refine (hstates 0 (by decide)).2.2.2 ⟨by decide +kernel, fun u hu => ?_⟩
      exact absurd (TaskGraph.Before.lt_of_rank hforward hu) (Nat.not_lt_zero _)
    · refine (hstates 1 (by decide)).1.2 ⟨hunfit, fun u hu => ?_⟩
      by_contra hother
      exact hac 1 (honly u (hwf.before_left hu) hother ▸ hu)
    · exact (hstates 4 (by decide)).2.1.2 ⟨1, .single (by decide), hunfit⟩

end ListScheduler

end TaskLoom
