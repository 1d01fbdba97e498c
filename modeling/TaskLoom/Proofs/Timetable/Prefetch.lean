import TaskLoom.Proofs.Timetable.Memory
import TaskLoom.Timetable.Prefetch

/-!
# Looking for prefetches never fails

The search reads times, interval lengths and footprints.  In a feasible timetable
every task has a time, no interval stops before it starts, and what a task holds fits
a word.

The free memory of a step is what its placements leave, or nothing if they hold more than
there is.

## Main results

* `Searchable.isComputeInCmx_eq`, `Searchable.isTransferInCmx_eq` — the kinds of tasks.
* `judgeTransfer_ok`, `scanAfter_done`, `scanAll_done` — the search.
* `freeMemory_sorted` — what a timetable leaves free in each step.
* `findPrefetches_done` — the search of a feasible timetable comes to its end.
-/

namespace TaskLoom

/-! ## Tasks in scratch memory -/

/-- Whether a task is compute work that holds scratch memory. -/
def TaskGraph.computesInCmx (g : TaskGraph) (id : Nat) : Bool :=
  match (g.task id).kind with
  | .compute _ => 0 < g.cmxBytes id
  | _ => false

/-- Whether a task is a transfer that holds scratch memory. -/
def TaskGraph.transfersInCmx (g : TaskGraph) (id : Nat) : Bool :=
  match (g.task id).kind with
  | .dma => 0 < g.cmxBytes id
  | _ => false

theorem TaskGraph.not_computesInCmx {g : TaskGraph} {id : Nat} (h : g.transfersInCmx id = true) :
    g.computesInCmx id = false := by
  unfold transfersInCmx at h
  unfold computesInCmx
  cases hkind : (g.task id).kind <;> simp [hkind] at h ⊢

variable {g : TaskGraph} {order placements : List Placement} {limits : PrefetchLimits}

/-- Every task has a time and a footprint that fits a word. -/
structure Searchable (g : TaskGraph) (order : List Placement) : Prop where
  timed : ∀ id ∈ g.ids, ∃ time, Timetable.timeOf order id = .ok time
  footprint : ∀ id, (g.task id).cmxFootprint = .ok (g.cmxBytes id)

theorem Searchable.isComputeInCmx_eq (h : Searchable g order) (id : Nat) :
    (g.task id).isComputeInCmx = .ok (g.computesInCmx id) := by
  unfold Task.isComputeInCmx TaskGraph.computesInCmx
  cases (g.task id).kind <;> simp only [h.footprint, bind, Except.bind, pure, Except.pure]

theorem Searchable.isTransferInCmx_eq (h : Searchable g order) (id : Nat) :
    (g.task id).isTransferInCmx = .ok (g.transfersInCmx id) := by
  unfold Task.isTransferInCmx TaskGraph.transfersInCmx
  cases (g.task id).kind <;> simp only [h.footprint, bind, Except.bind, pure, Except.pure]

theorem Searchable.anyNotBefore (h : Searchable g order) (time : Nat) {tasks : List Nat}
    (htasks : ∀ id ∈ tasks, id ∈ g.ids) : ∃ found, anyNotBefore order time tasks = .ok found := by
  induction tasks with
  | nil => exact ⟨false, rfl⟩
  | cons task rest ih =>
    obtain ⟨htask, hrest⟩ := List.forall_mem_cons.1 htasks
    obtain ⟨start, hstart⟩ := h.timed task htask
    obtain ⟨found, hfound⟩ := ih hrest
    unfold TaskLoom.anyNotBefore
    by_cases hle : time ≤ start
    · exact ⟨true, by simp [hstart, hle, bind, Except.bind, pure, Except.pure]⟩
    · exact ⟨found, by simp [hstart, hle, hfound, bind, Except.bind]⟩

/-! ## The search -/

/-- Judging a transfer gives a verdict. -/
theorem judgeTransfer_ok (hg : g.WellFormed) (h : Searchable g order)
    (compute transfer : Placement) (level : Nat) (search : PrefetchSearch) :
    ∃ verdict, judgeTransfer g order limits compute transfer level search = .ok verdict := by
  have hpredecessors : ∀ id ∈ g.predecessors transfer.task, id ∈ g.ids := fun id hid =>
    hg.joins_left (TaskGraph.mem_predecessors.1 hid)
  obtain ⟨found, hfound⟩ := h.anyNotBefore compute.time hpredecessors
  unfold judgeTransfer
  simp only [hfound, h.footprint, bind, Except.bind, pure, Except.pure]
  split_ifs <;> exact ⟨_, rfl⟩

/-- The scan after a compute task comes to its end. -/
theorem scanAfter_done (hg : g.WellFormed) (h : Searchable g order) (compute : Placement)
    (later : List Placement) (level : Nat) (search : PrefetchSearch) :
    ∃ search', scanAfter g order limits compute level later search = .done () search' := by
  induction later generalizing level search with
  | nil => exact ⟨search, rfl⟩
  | cons next rest ih =>
    simp only [scanAfter, h.isComputeInCmx_eq, h.isTransferInCmx_eq]
    cases g.transfersInCmx next.task with
    | false => exact ih _ _
    | true =>
      obtain ⟨verdict, hverdict⟩ := @judgeTransfer_ok g order limits hg h compute next
        (if g.computesInCmx next.task = true then level + 1 else level) search
      simp only [hverdict]
      cases verdict with
      | stop => exact ⟨search, rfl⟩
      | pass => exact ih _ _
      | take size => exact ih _ _

/-- The scan of all compute tasks comes to its end. -/
theorem scanAll_done (hg : g.WellFormed) (h : Searchable g order) (ps : List Placement)
    (search : PrefetchSearch) : ∃ search', scanAll g order limits ps search = .done () search' := by
  induction ps generalizing search with
  | nil => exact ⟨search, rfl⟩
  | cons compute rest ih =>
    simp only [scanAll, h.isComputeInCmx_eq]
    cases g.computesInCmx compute.task with
    | false => exact ih _
    | true =>
      obtain ⟨search', hscan⟩ := @scanAfter_done g order limits hg h compute rest 1 search
      simp only [hscan]
      exact ih search'

/-! ## What the steps leave free -/

/-- The bytes that a placement holds. -/
def Placement.heldBytes (p : Placement) : Nat :=
  Word.total (p.ranges.map fun i => i.range.length)

namespace PrefetchSearch

/-- What a step leaves free. -/
def roomOf (size : Nat) (step : Nat × List Placement) : Nat × Nat :=
  (step.1, size - Word.total (step.2.map Placement.heldBytes))

/-- Taking what a placement holds from its step, and adding the placement to its step. -/
theorem occupy_map_roomOf (size : Nat) (p : Placement) (steps : List (Nat × List Placement)) :
    occupy size p.time p.heldBytes (steps.map (roomOf size)) =
      (Timetable.addToStep p steps).map (roomOf size) := by
  induction steps with
  | nil => simp [occupy, Timetable.addToStep, roomOf]
  | cons step rest ih =>
    rw [List.map_cons, Timetable.addToStep]
    show occupy size p.time p.heldBytes ((step.1, _) :: _) = _
    rw [occupy]
    split
    · simp [roomOf]
    · split
      · simp [roomOf, Nat.sub_sub]
      · rw [ih]
        rfl

/-- The free memory of a timetable, step by step. -/
theorem freeMemory_eq (size : Nat) {ps : List Placement}
    (hranges : ∀ p ∈ ps, ∀ i ∈ p.ranges, i.start ≤ i.stop)
    (hheld : ∀ p ∈ ps, p.heldBytes < Word.bound) (steps : List (Nat × List Placement)) :
    freeMemory size ps (steps.map (roomOf size)) =
      .ok ((ps.foldl (fun steps p => Timetable.addToStep p steps) steps).map (roomOf size)) := by
  induction ps generalizing steps with
  | nil => rfl
  | cons p rest ih =>
    obtain ⟨hp, hranges⟩ := List.forall_mem_cons.1 hranges
    obtain ⟨hbound, hheld⟩ := List.forall_mem_cons.1 hheld
    have hlengths : p.ranges.mapM Interval.length = .ok (p.ranges.map fun i => i.range.length) :=
      mapM_ok fun i hi => Word.sub_eq_ok_iff.2 ⟨hp i hi, rfl⟩
    have hsum : Word.sum (p.ranges.map fun i => i.range.length) = .ok p.heldBytes :=
      Word.sum_eq_ok_iff.2 ⟨hbound, rfl⟩
    simp only [freeMemory, hlengths, hsum, bind, Except.bind]
    rw [occupy_map_roomOf, ih hranges hheld, List.foldl_cons]

/-- What a timetable leaves free in each step. -/
theorem freeMemory_sorted (size : Nat)
    (hranges : ∀ p ∈ placements, ∀ i ∈ p.ranges, i.start ≤ i.stop)
    (hheld : ∀ p ∈ placements, p.heldBytes < Word.bound) :
    freeMemory size (Timetable.sorted placements) [] =
      .ok ((Timetable.steps (Timetable.sorted placements)).map (roomOf size)) := by
  have hperm := Timetable.sorted_perm placements
  exact freeMemory_eq size (fun p hp => hranges p (hperm.mem_iff.1 hp))
    (fun p hp => hheld p (hperm.mem_iff.1 hp)) []

end PrefetchSearch

/-! ## Feasible timetables -/

/-- A timetable has the same times when it is sorted. -/
theorem Timetable.Orders.sorted (h : Timetable.Orders g placements) :
    Timetable.Orders g (Timetable.sorted placements) := by
  have hperm := sorted_perm placements
  refine ⟨(hperm.map _).trans h.perm, fun p hp q hq => ?_⟩
  exact h.forward p (hperm.mem_iff.1 hp) q (hperm.mem_iff.1 hq)

theorem Timetable.Orders.searchable (h : Timetable.Orders g order)
    (hfootprint : ∀ id ∈ g.ids, g.cmxBytes id < Word.bound) : Searchable g order :=
  ⟨fun _ hid => ⟨_, h.timeOf_eq_ok hid⟩, TaskGraph.cmxFootprint_eq_ok hfootprint⟩

/-- The search of a feasible timetable comes to its end. -/
theorem findPrefetches_done {settings : Settings} {placements : List Placement}
    (hg : g.WellFormed) (h : Feasible g settings placements)
    (haligned : ∀ id ∈ g.ids, (g.task id).alignedBytes settings < Word.bound) (size : Nat) :
    ∃ found, findPrefetches g placements size limits = .done () found := by
  have hsearchable := h.orders.sorted.searchable fun id hid =>
    Nat.lt_of_le_of_lt (g.cmxBytes_le_alignedBytes settings id) (haligned id hid)
  have hheld : ∀ p ∈ placements, p.heldBytes < Word.bound := by
    intro p hp
    rw [Placement.heldBytes, Word.total_perm (h.fits p hp).lengths_perm]
    exact haligned p.task (h.orders.task_mem hp)
  have hfree := PrefetchSearch.freeMemory_sorted size
    (fun p hp i hi => (h.fits p hp).start_le hi) hheld
  obtain ⟨search, hscan⟩ := @scanAll_done g _ limits hg hsearchable (Timetable.sorted placements)
    ⟨(Timetable.steps (Timetable.sorted placements)).map (PrefetchSearch.roomOf size), []⟩
  refine ⟨search.found.reverse, ?_⟩
  simp only [findPrefetches, hfree, hscan]

end TaskLoom
