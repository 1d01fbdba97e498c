import Mathlib.Data.List.Nodup
import TaskLoom.Proofs.Graph.Paths
import TaskLoom.Timetable.Basic

/-!
# Times of a timetable

A timetable that places every task once gives every task one time step.  If all
edges run forward in time, so do all paths.

## Main results

* `timeOf?_of_mem`, `timeOf_eq_ok` — the time step of a placed task.
* `Orders.startOf_lt` — every edge runs forward in time.
* `pairwise_sorted` — sorted placements do not step back in time.
* `groups_steps` — the occupied steps hold the placements of their time.
* `remaining_steps`, `Remaining.tail` — walking the occupied steps in order.
-/

namespace TaskLoom.Timetable

variable {g : TaskGraph} {placements : List Placement}

/-- The time step of a task, zero if it has none. -/
def startOf (placements : List Placement) (id : Nat) : Nat :=
  (timeOf? placements id).getD 0

/-- Every task is placed once, and every edge runs forward in time. -/
structure Orders (g : TaskGraph) (placements : List Placement) : Prop where
  perm : (placements.map (·.task)).Perm g.ids
  forward : ∀ p ∈ placements, ∀ q ∈ placements, g.Joins p.task q.task → p.time < q.time

/-! ## Looking up times -/

/-- Of tasks that are placed once, the placement gives the time. -/
theorem timeOf?_of_mem (hnodup : (placements.map (·.task)).Nodup) {p : Placement}
    (hp : p ∈ placements) : timeOf? placements p.task = some p.time := by
  obtain ⟨q, hfind⟩ := Option.isSome_iff_exists.1
    (List.find?_isSome.2 ⟨p, List.mem_reverse.2 hp, beq_self_eq_true p.task⟩ :
      (placements.reverse.find? (·.task == p.task)).isSome = true)
  have hq : q ∈ placements := List.mem_reverse.1 (List.mem_of_find?_eq_some hfind)
  have htask : q.task = p.task := by simpa using List.find?_some hfind
  have hqp : q = p := List.inj_on_of_nodup_map hnodup hq hp htask
  simp [timeOf?, hfind, hqp]

/-- The time of a task is that of its placement. -/
theorem timeOf?_eq_some_iff (hnodup : (placements.map (·.task)).Nodup) {id time : Nat} :
    timeOf? placements id = some time ↔ ∃ p ∈ placements, p.task = id ∧ p.time = time := by
  constructor
  · intro h
    obtain ⟨p, hfind, htime⟩ := Option.map_eq_some_iff.1 h
    exact ⟨p, List.mem_reverse.1 (List.mem_of_find?_eq_some hfind),
      by simpa using List.find?_some hfind, htime⟩
  · rintro ⟨p, hp, rfl, rfl⟩
    exact timeOf?_of_mem hnodup hp

theorem startOf_of_mem (hnodup : (placements.map (·.task)).Nodup) {p : Placement}
    (hp : p ∈ placements) : startOf placements p.task = p.time := by
  simp [startOf, timeOf?_of_mem hnodup hp]

/-- A task that is placed has a time. -/
theorem timeOf_eq_ok {id : Nat} (hid : id ∈ placements.map (·.task)) :
    timeOf placements id = .ok (startOf placements id) := by
  obtain ⟨p, hp, rfl⟩ := List.mem_map.1 hid
  have hfind : (placements.reverse.find? (·.task == p.task)).isSome = true :=
    List.find?_isSome.2 ⟨p, List.mem_reverse.2 hp, beq_self_eq_true p.task⟩
  obtain ⟨q, hq⟩ := Option.isSome_iff_exists.1 hfind
  simp [timeOf, startOf, timeOf?, hq]

theorem mem_posting {id : Nat} :
    id ∈ posting placements ↔ ∃ p ∈ placements, p.barrier.isSome = true ∧ p.task = id := by
  simp [posting, and_assoc]

namespace Orders

theorem nodup (h : Orders g placements) : (placements.map (·.task)).Nodup :=
  h.perm.nodup_iff.2 g.nodup_ids

/-- Every task of the graph is placed. -/
theorem exists_placement (h : Orders g placements) {id : Nat} (hid : id ∈ g.ids) :
    ∃ p ∈ placements, p.task = id :=
  List.mem_map.1 (h.perm.mem_iff.2 hid)

theorem task_mem (h : Orders g placements) {p : Placement} (hp : p ∈ placements) :
    p.task ∈ g.ids :=
  h.perm.mem_iff.1 (List.mem_map_of_mem hp)

theorem posting_mem (h : Orders g placements) {id : Nat} (hid : id ∈ posting placements) :
    id ∈ g.ids := by
  obtain ⟨p, hp, -, rfl⟩ := mem_posting.1 hid
  exact h.task_mem hp

theorem timeOf_eq_ok (h : Orders g placements) {id : Nat} (hid : id ∈ g.ids) :
    timeOf placements id = .ok (startOf placements id) :=
  Timetable.timeOf_eq_ok (h.perm.mem_iff.2 hid)

/-- Every edge runs forward in time. -/
theorem startOf_lt (h : Orders g placements) (hg : g.WellFormed) {u v : Nat} (huv : g.Joins u v) :
    startOf placements u < startOf placements v := by
  obtain ⟨p, hp, rfl⟩ := h.exists_placement (hg.joins_left huv)
  obtain ⟨q, hq, rfl⟩ := h.exists_placement (hg.joins_right huv)
  rw [startOf_of_mem h.nodup hp, startOf_of_mem h.nodup hq]
  exact h.forward p hp q hq huv

/-- Every path runs forward in time. -/
theorem startOf_lt_of_before (h : Orders g placements) (hg : g.WellFormed) {u v : Nat}
    (huv : g.Before u v) : startOf placements u < startOf placements v :=
  TaskGraph.Before.lt_of_rank (fun _ _ => h.startOf_lt hg) huv

theorem acyclic (h : Orders g placements) (hg : g.WellFormed) : g.Acyclic :=
  .of_rank fun _ _ => h.startOf_lt hg

end Orders

/-! ## Sorted placements -/

theorem sorted_perm (placements : List Placement) : (sorted placements).Perm placements :=
  List.mergeSort_perm _ _

/-- Sorted placements stand by time step, and by task within a step. -/
theorem pairwise_sorted_before (placements : List Placement) :
    (sorted placements).Pairwise (fun p q => p.before q = true) := by
  refine List.pairwise_mergeSort ?_ ?_ placements
  · intro p q r hpq hqr
    simp only [Placement.before, Bool.or_eq_true, Bool.and_eq_true, decide_eq_true_eq,
      beq_iff_eq] at hpq hqr ⊢
    omega
  · intro p q
    simp only [Placement.before, Bool.or_eq_true, Bool.and_eq_true, decide_eq_true_eq,
      beq_iff_eq]
    omega

/-- Sorted placements do not step back in time. -/
theorem pairwise_sorted (placements : List Placement) :
    (sorted placements).Pairwise (fun p q => p.time ≤ q.time) := by
  refine (pairwise_sorted_before placements).imp ?_
  intro p q hpq
  simp only [Placement.before, Bool.or_eq_true, Bool.and_eq_true, decide_eq_true_eq,
    beq_iff_eq] at hpq
  omega

/-! ## Occupied steps -/

variable {steps' : List (Nat × List Placement)} {p : Placement}

theorem mem_placedAt {time : Nat} :
    p ∈ placedAt placements time ↔ p ∈ placements ∧ p.time = time := by
  simp [placedAt]

/-- Steps in ascending order that hold the placements of their time. -/
structure Groups (placements : List Placement) (steps : List (Nat × List Placement)) : Prop where
  sorted : steps.Pairwise (·.1 < ·.1)
  eq_placedAt : ∀ step ∈ steps, step.2 = placedAt placements step.1
  occupied : ∀ time, time ∈ steps.map (·.1) ↔ ∃ p ∈ placements, p.time = time

theorem mem_times_addToStep {time : Nat} :
    time ∈ (addToStep p steps').map (·.1) ↔ time = p.time ∨ time ∈ steps'.map (·.1) := by
  induction steps' with
  | nil => simp [addToStep]
  | cons step rest ih =>
    unfold addToStep
    split
    · simp
    · split
      · next heq => simp [heq]
      · rw [List.map_cons, List.mem_cons, ih, List.map_cons, List.mem_cons]
        exact or_left_comm

theorem pairwise_addToStep (h : steps'.Pairwise (·.1 < ·.1)) :
    (addToStep p steps').Pairwise (·.1 < ·.1) := by
  induction steps' with
  | nil => simp [addToStep]
  | cons step rest ih =>
    obtain ⟨hstep, hrest⟩ := List.pairwise_cons.1 h
    unfold addToStep
    split
    · next hlt =>
      refine List.pairwise_cons.2 ⟨?_, h⟩
      intro other hother
      rcases List.mem_cons.1 hother with rfl | hother
      · exact hlt
      · exact Nat.lt_trans hlt (hstep other hother)
    · split
      · exact List.pairwise_cons.2 ⟨hstep, hrest⟩
      · refine List.pairwise_cons.2 ⟨?_, ih hrest⟩
        intro other hother
        rcases mem_times_addToStep.1 (List.mem_map_of_mem hother) with heq | hother
        · show step.1 < other.1
          omega
        · obtain ⟨same, hsame, heq⟩ := List.mem_map.1 hother
          exact heq ▸ hstep same hsame

/-- A step after a placement was added to its time. -/
theorem mem_addToStep (h : steps'.Pairwise (·.1 < ·.1)) {step : Nat × List Placement}
    (hstep : step ∈ addToStep p steps') :
    (step ∈ steps' ∧ step.1 ≠ p.time) ∨
      (∃ ps, (p.time, ps) ∈ steps' ∧ step = (p.time, ps ++ [p])) ∨
      (step = (p.time, [p]) ∧ p.time ∉ steps'.map (·.1)) := by
  induction steps' with
  | nil => exact Or.inr (Or.inr ⟨by simpa [addToStep] using hstep, by simp⟩)
  | cons first rest ih =>
    obtain ⟨hfirst, hrest⟩ := List.pairwise_cons.1 h
    unfold addToStep at hstep
    split at hstep
    · next hlt =>
      have hafter : ∀ other ∈ first :: rest, p.time < other.1 := by
        intro other hother
        rcases List.mem_cons.1 hother with rfl | hother
        · exact hlt
        · exact Nat.lt_trans hlt (hfirst other hother)
      rcases List.mem_cons.1 hstep with rfl | hstep
      · refine Or.inr (Or.inr ⟨rfl, fun hmem => ?_⟩)
        obtain ⟨other, hother, heq⟩ := List.mem_map.1 hmem
        exact Nat.ne_of_gt (hafter other hother) heq
      · exact Or.inl ⟨hstep, Nat.ne_of_gt (hafter step hstep)⟩
    · split at hstep
      · next heq =>
        rcases List.mem_cons.1 hstep with rfl | hstep
        · rw [heq]
          exact Or.inr (Or.inl ⟨first.2, List.mem_cons_self, rfl⟩)
        · refine Or.inl ⟨List.mem_cons_of_mem _ hstep, ?_⟩
          have hlt := hfirst step hstep
          omega
      · rcases List.mem_cons.1 hstep with rfl | hstep
        · exact Or.inl ⟨List.mem_cons_self, by omega⟩
        · rcases ih hrest hstep with ⟨hmem, hne⟩ | ⟨ps, hmem, heq⟩ | ⟨heq, hnot⟩
          · exact Or.inl ⟨List.mem_cons_of_mem _ hmem, hne⟩
          · exact Or.inr (Or.inl ⟨ps, List.mem_cons_of_mem _ hmem, heq⟩)
          · refine Or.inr (Or.inr ⟨heq, ?_⟩)
            rw [List.map_cons, List.mem_cons]
            rintro (htime | hmem)
            · omega
            · exact hnot hmem

theorem Groups.addToStep (h : Groups placements steps') :
    Groups (placements ++ [p]) (addToStep p steps') where
  sorted := pairwise_addToStep h.sorted
  eq_placedAt := by
    intro step hstep
    unfold placedAt
    rw [List.filter_append]
    rcases mem_addToStep h.sorted hstep with ⟨hmem, hne⟩ | ⟨ps, hmem, rfl⟩ | ⟨rfl, hnot⟩
    · rw [h.eq_placedAt step hmem, List.filter_cons_of_neg (by simpa using Ne.symm hne)]
      simp [placedAt]
    · have hps := h.eq_placedAt _ hmem
      simp only [placedAt] at hps
      simp [hps]
    · have hnone : placements.filter (·.time == p.time) = [] := by
        rw [List.filter_eq_nil_iff]
        intro q hq heq
        exact hnot ((h.occupied p.time).2 ⟨q, hq, by simpa using heq⟩)
      simp [hnone]
  occupied := by
    intro time
    rw [mem_times_addToStep, h.occupied]
    constructor
    · rintro (rfl | ⟨q, hq, rfl⟩)
      · exact ⟨p, by simp, rfl⟩
      · exact ⟨q, by simp [hq], rfl⟩
    · rintro ⟨q, hq, rfl⟩
      rcases List.mem_append.1 hq with hq | hq
      · exact Or.inr ⟨q, hq, rfl⟩
      · exact Or.inl (by rw [List.mem_singleton.1 hq])

/-- The occupied steps hold the placements of their time. -/
theorem groups_steps (placements : List Placement) : Groups placements (steps placements) := by
  -- each placement is added to the groups of those before it
  have hrun : ∀ (rest done : List Placement) (groups : List (Nat × List Placement)),
      Groups done groups →
        Groups (done ++ rest) (rest.foldl (fun steps p => Timetable.addToStep p steps) groups) := by
    intro rest
    induction rest with
    | nil => simp
    | cons p rest ih =>
      intro done groups h
      have hnext := ih (done ++ [p]) _ (h.addToStep : Groups (done ++ [p]) _)
      rwa [List.append_assoc] at hnext
  exact hrun placements [] [] ⟨.nil, by simp, by simp⟩

/-! ## Steps from a time on -/

/-- The steps from a time on. -/
structure Remaining (placements : List Placement) (time : Nat)
    (steps : List (Nat × List Placement)) : Prop where
  sorted : steps.Pairwise (·.1 < ·.1)
  eq_placedAt : ∀ step ∈ steps, step.2 = placedAt placements step.1
  occupied : ∀ t, t ∈ steps.map (·.1) ↔ time ≤ t ∧ ∃ p ∈ placements, p.time = t

theorem remaining_steps (placements : List Placement) :
    Remaining placements 0 (steps placements) := by
  have hgroups := groups_steps placements
  refine ⟨hgroups.sorted, hgroups.eq_placedAt, ?_⟩
  intro t
  rw [hgroups.occupied]
  simp

section Remaining

variable {time : Nat} {step : Nat × List Placement} {rest : List (Nat × List Placement)}

/-- There are no tasks between the time and the first step that remains. -/
theorem Remaining.first_le (h : Remaining placements time (step :: rest)) :
    time ≤ step.1 ∧ ∀ q ∈ placements, time ≤ q.time → step.1 ≤ q.time := by
  refine ⟨((h.occupied step.1).1 (by simp)).1, ?_⟩
  intro q hq hle
  have hmem := (h.occupied q.time).2 ⟨hle, q, hq, rfl⟩
  rcases List.mem_cons.1 hmem with heq | hlater
  · exact Nat.le_of_eq heq.symm
  · obtain ⟨later, hin, heq⟩ := List.mem_map.1 hlater
    have hlt := (List.pairwise_cons.1 h.sorted).1 later hin
    omega

theorem Remaining.tail (h : Remaining placements time (step :: rest)) :
    Remaining placements (step.1 + 1) rest := by
  obtain ⟨hfirst, hrest⟩ := List.pairwise_cons.1 h.sorted
  refine ⟨hrest, fun other hother => h.eq_placedAt other (List.mem_cons_of_mem _ hother), ?_⟩
  intro t
  have hle := h.first_le.1
  have hoccupied := h.occupied t
  rw [List.map_cons, List.mem_cons] at hoccupied
  constructor
  · intro ht
    obtain ⟨later, hlater, heq⟩ := List.mem_map.1 ht
    have hlt := hfirst later hlater
    exact ⟨by omega, (hoccupied.1 (Or.inr ht)).2⟩
  · rintro ⟨hlt, hplaced⟩
    have hne : t ≠ step.1 := by omega
    exact (hoccupied.2 ⟨by omega, hplaced⟩).resolve_left hne

end Remaining

end TaskLoom.Timetable
