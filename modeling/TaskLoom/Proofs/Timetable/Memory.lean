import TaskLoom.Proofs.Frontier.Heaviest
import TaskLoom.Proofs.Timetable.Check
import TaskLoom.Proofs.Timetable.Feasible

/-!
# The memory of a feasible timetable

Ranges that share no address take together no more memory than there is.  A feasible
timetable gives every task ranges of at least its footprint, so the footprints of a
step fit as well, and the check of the memory passes.

## Main results

* `StepFits.fitsAlone`, `Feasible.fitsAlone` — every task that is placed fits alone.
* `StepFits.total_cmxBytes_le` — the footprints of a step fit.
* `checkMemory_ok` — a feasible timetable passes the check of its memory.
-/

namespace TaskLoom

/-- The intervals that a task holds are as long as its sizes rounded up. -/
theorem Placement.Fits.total_held {settings : Settings} {t : Task} {p : Placement}
    (h : p.Fits settings t) :
    Word.total ((p.held.map Interval.range).map ByteRange.length) = t.alignedBytes settings := by
  have hheld : p.held = p.ranges.filter (0 < ·.range.length) := by
    refine List.filter_congr fun i hi => ?_
    have hle := h.start_le hi
    rw [Bool.eq_iff_iff, decide_eq_true_eq]
    simp only [Interval.isEmpty, Interval.range, ByteRange.length, Bool.not_eq_true',
      beq_eq_false_iff_ne, ne_eq]
    omega
  rw [hheld, List.map_map, Task.alignedBytes, ← Word.total_perm h.lengths_perm]
  exact Word.total_filter_pos (fun i : Interval => i.range.length) p.ranges

variable {g : TaskGraph} {settings : Settings} {placements : List Placement}

/-- A task is given at least its footprint. -/
theorem TaskGraph.cmxBytes_le_alignedBytes (g : TaskGraph) (settings : Settings) (id : Nat) :
    g.cmxBytes id ≤ (g.task id).alignedBytes settings := by
  unfold cmxBytes Task.alignedBytes
  conv_lhs => rw [← List.map_id ((g.task id).sizesIn .cmx)]
  exact Word.total_map_le fun size _ => Word.le_alignUp size _

/-- A task that is placed in a step that fits the hardware fits it alone. -/
theorem StepFits.fitsAlone {ps : List Placement} (h : StepFits settings ps) {p : Placement}
    (hp : p ∈ ps) {t : Task} (hfits : p.Fits settings t) : t.FitsAlone settings := by
  constructor
  · have hsub : (p.held.map Interval.range).Sublist (liveRanges ps) := by
      rw [liveRanges, List.flatMap_def]
      exact List.sublist_flatten_of_mem (List.mem_map.2 ⟨p, hp, rfl⟩)
    rw [← hfits.total_held]
    exact ByteRange.total_length_le (h.apart.sublist hsub) fun r hr =>
      (h.within r (hsub.subset hr)).2
  · rcases Nat.eq_zero_or_pos t.demand with hzero | hpos
    · omega
    · obtain ⟨b, hb⟩ := Option.isSome_iff_exists.1 (hfits.barrier_iff.2 hpos)
      rw [← hfits.slots_eq]
      refine Nat.le_trans (Word.le_total ?_) (h.slots_le b)
      exact List.mem_map.2 ⟨p, List.mem_filter.2 ⟨hp, by simp [hb]⟩, rfl⟩

/-- Every task of a feasible timetable fits the hardware alone. -/
theorem Feasible.fitsAlone (h : Feasible g settings placements) :
    ∀ id ∈ g.ids, (g.task id).FitsAlone settings := by
  intro id hid
  obtain ⟨p, hp, rfl⟩ := h.orders.exists_placement hid
  exact (h.steps p.time).fitsAlone (List.mem_filter.2 ⟨hp, by simp⟩) (h.fits p hp)

/-- The footprints of a step that fits are no more than the memory. -/
theorem StepFits.total_cmxBytes_le {ps : List Placement} (h : StepFits settings ps)
    (hfits : ∀ p ∈ ps, p.Fits settings (g.task p.task)) :
    Word.total (ps.map fun p => g.cmxBytes p.task) ≤ settings.cmxSize := by
  have hlive := ByteRange.total_length_le h.apart fun r hr => (h.within r hr).2
  rw [liveRanges, Word.total_flatMap] at hlive
  refine Nat.le_trans (Word.total_map_le fun p hp => ?_) hlive
  rw [(hfits p hp).total_held]
  exact g.cmxBytes_le_alignedBytes settings p.task

namespace Timetable

/-- Intervals of which no two overlap. -/
theorem overlap?_eq_none {held : List (Nat × Interval)}
    (h : held.Pairwise fun a b => a.2.range.Apart b.2.range) : overlap? held = none := by
  induction held with
  | nil => rfl
  | cons first rest ih =>
    obtain ⟨hfirst, hrest⟩ := List.pairwise_cons.1 h
    have hnone : rest.find? (fun x => first.1 != x.1 && first.2.overlaps x.2) = none := by
      refine List.find?_eq_none.2 fun other hother => ?_
      have hapart := hfirst other hother
      simp only [ByteRange.Apart, Interval.range] at hapart
      simp only [Interval.overlaps, Bool.and_eq_true, bne_iff_ne, ne_eq, decide_eq_true_eq]
      omega
    unfold overlap?
    rw [hnone]
    exact ih hrest

/-- A step that fits passes the check of its memory. -/
theorem checkStepMemory_ok {time : Nat} {ps : List Placement} (h : StepFits settings ps)
    (hfits : ∀ p ∈ ps, p.Fits settings (g.task p.task))
    (hbytes : Word.total (ps.map fun p => g.cmxBytes p.task) < Word.bound) :
    checkStepMemory g settings.cmxSize (time, ps) = .ok () := by
  have hused : ps.mapM (fun p => (g.task p.task).cmxFootprint) =
      .ok (ps.map fun p => g.cmxBytes p.task) :=
    mapM_ok fun p hp => Word.sum_eq_ok_iff.2
      ⟨Nat.lt_of_le_of_lt (Word.le_total (List.mem_map.2 ⟨p, hp, rfl⟩)) hbytes, rfl⟩
  have hsum : Word.sum (ps.map fun p => g.cmxBytes p.task) = .ok _ :=
    Word.sum_eq_ok_iff.2 ⟨hbytes, rfl⟩
  have hlive : (ps.flatMap fun p => p.held.map fun i => (p.task, i)).map (·.2.range) =
      liveRanges ps := by
    simp only [liveRanges, List.map_flatMap, List.map_map]
    rfl
  have hbounds : (ps.flatMap fun p => p.held.map fun i => (p.task, i)).find?
      (fun x => decide (settings.cmxSize < x.2.stop)) = none := by
    refine List.find?_eq_none.2 fun x hx => ?_
    have hwithin := (h.within x.2.range (hlive ▸ List.mem_map_of_mem hx)).2
    simpa [Interval.range] using hwithin
  have hoverlap : overlap? (ps.flatMap fun p => p.held.map fun i => (p.task, i)) = none := by
    refine overlap?_eq_none ?_
    have hapart := h.apart
    rwa [← hlive, List.pairwise_map] at hapart
  unfold checkStepMemory
  simp only [hused, hsum, bind, Except.bind, Nat.not_lt.2 (h.total_cmxBytes_le hfits), if_false,
    hbounds, hoverlap]
  rfl

/-- A feasible timetable passes the check of its memory. -/
theorem checkMemory_ok (h : Feasible g settings placements)
    (hbytes : Word.total (g.ids.map g.cmxBytes) < Word.bound) :
    checkMemory g placements settings.cmxSize = .ok () := by
  refine checkEach_eq_ok_iff.2 fun step hstep => ?_
  have hplaced := (groups_steps placements).eq_placedAt step hstep
  obtain ⟨time, ps⟩ := step
  simp only at hplaced
  subst hplaced
  refine checkStepMemory_ok (h.steps time) (fun p hp => h.fits p (List.mem_filter.1 hp).1) ?_
  refine Nat.lt_of_le_of_lt ?_ hbytes
  rw [← Word.total_perm (h.orders.perm.map g.cmxBytes), List.map_map]
  exact Word.total_sublist (List.filter_sublist.map _)

end Timetable

end TaskLoom
