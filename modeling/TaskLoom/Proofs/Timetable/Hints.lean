import TaskLoom.Proofs.Timetable.Prefetch

/-!
# What a prefetch hint promises

A hint says that a transfer may run next to an earlier compute task.  The search decides
this pair by pair, and what it decided before plays a part in two ways: a transfer that is
hinted is not hinted again, and the memory that it will hold is taken from all steps it
moves across.  So the hints can be followed all together: in every step, the transfers that
are moved across it fit into what the timetable leaves free there.

The search walks the timetable in order of time and task.  The compute tasks it counts on
the way are those that stand between the compute task and the transfer, whatever it decided
about the transfers among them.

Memory is taken with a subtraction that stops at zero.  `findPrefetchesChecked` is the same
search in checked arithmetic, which would fail where a difference falls below zero.  It
never does, because a transfer is hinted only if it is smaller than what every step on its
way has left.

## Main results

* `judgeTransfer_take` — when a transfer is hinted.
* `Agrees.take` — what one more hint keeps.
* `Agrees.scanAfter`, `Agrees.scanAll` — the search.
* `pairs_ofPrefetches` — the hints are the pairs that were found.
* `findPrefetches_promises` — what all hints promise.
-/

namespace TaskLoom

/-! ## Promises -/

/-- The placement stands before another in the order of time and task. -/
def Placement.Earlier (p q : Placement) : Prop :=
  p.time < q.time ∨ p.time = q.time ∧ p.task < q.task

instance (p q : Placement) : Decidable (p.Earlier q) :=
  inferInstanceAs (Decidable (_ ∨ _))

/-- What a hint promises about the placements of a compute task `c` and a transfer `d`: the
transfer runs later, but within the window, what it depends on has run before the compute
task, and it passes no more compute tasks than it may. -/
structure Prefetchable (g : TaskGraph) (placements : List Placement) (limits : PrefetchLimits)
    (c d : Placement) : Prop where
  computes : g.computesInCmx c.task = true
  transfers : g.transfersInCmx d.task = true
  later : c.time < d.time
  in_window : d.time ≤ c.time + limits.timeWindow
  ready : ∀ p ∈ placements, g.Joins p.task d.task → p.time < c.time
  passes : 1 + placements.countP (fun p => c.Earlier p ∧ p.Earlier d ∧ g.computesInCmx p.task) ≤
    if (g.predecessors d.task).isEmpty then limits.constLevels else limits.activationLevels

/-- All pairs of a task and a task that is hinted for it. -/
def Hints.pairs (hints : Hints) : List (Nat × Nat) :=
  hints.flatMap fun entry => entry.2.map fun task => (entry.1, task)

/-- The bytes of the transfers that are moved across a step. -/
def movedAcross (g : TaskGraph) (placements : List Placement) (pairs : List (Nat × Nat))
    (time : Nat) : Nat :=
  Word.total ((pairs.filter fun x => PrefetchSearch.within (Timetable.startOf placements x.1)
    (Timetable.startOf placements x.2) time).map fun x => g.cmxBytes x.2)

/-! ## The search in checked arithmetic -/

/-- Takes memory in the steps from `first` up to `last`, in checked arithmetic. -/
def PrefetchSearch.spendChecked (free : List (Nat × Nat)) (first last size : Nat) :
    Except Fault (List (Nat × Nat)) :=
  free.mapM fun x => do
    if within first last x.1 then
      return (x.1, ← Word.sub x.2 size)
    else
      return x

/-- Looks through the placements after a compute task, in checked arithmetic. -/
def scanAfterChecked (g : TaskGraph) (order : List Placement) (limits : PrefetchLimits)
    (compute : Placement) :
    (level : Nat) → List Placement → PrefetchSearch → Except Fault PrefetchSearch
  | _, [], search => .ok search
  | level, later :: rest, search => do
    let level := if ← (g.task later.task).isComputeInCmx then level + 1 else level
    if ← (g.task later.task).isTransferInCmx then
      let distance ← Word.sub later.time compute.time
      match ← judgeTransfer g order limits compute later level search with
      | .stop => return search
      | .pass => scanAfterChecked g order limits compute level rest search
      | .take size =>
        let free ← PrefetchSearch.spendChecked search.free compute.time later.time size
        scanAfterChecked g order limits compute level rest
          { free, found := ⟨compute.task, later.task, distance, level⟩ :: search.found }
    else
      scanAfterChecked g order limits compute level rest search

/-- Looks for transfers next to each compute task in turn, in checked arithmetic. -/
def scanAllChecked (g : TaskGraph) (order : List Placement) (limits : PrefetchLimits) :
    List Placement → PrefetchSearch → Except Fault PrefetchSearch
  | [], search => .ok search
  | compute :: rest, search => do
    if ← (g.task compute.task).isComputeInCmx then
      scanAllChecked g order limits rest (← scanAfterChecked g order limits compute 1 rest search)
    else
      scanAllChecked g order limits rest search

/-- The pairs of a timetable, in checked arithmetic. -/
def findPrefetchesChecked (g : TaskGraph) (placements : List Placement) (cmxSize : Nat)
    (limits : PrefetchLimits) : Except Fault (List Prefetch) := do
  let order := Timetable.sorted placements
  let free ← PrefetchSearch.freeMemory cmxSize order []
  let search ← scanAllChecked g order limits order ⟨free, []⟩
  return search.found.reverse

/-! ## Taking memory -/

namespace PrefetchSearch

/-- Where less than the least room is taken, every step has as much. -/
theorem lt_of_lt_room {free : List (Nat × Nat)} {first last size : Nat}
    (h : size < room free first last) {x : Nat × Nat} (hx : x ∈ free)
    (hwithin : within first last x.1 = true) : size < x.2 := by
  refine Nat.lt_of_lt_of_le h (List.min?_getD_le_of_mem ?_)
  exact List.mem_map.2 ⟨x, List.mem_filter.2 ⟨hx, hwithin⟩, rfl⟩

theorem spendChecked_eq {free : List (Nat × Nat)} {first last size : Nat}
    (h : size < room free first last) :
    spendChecked free first last size = .ok (spend free first last size) := by
  refine mapM_ok fun x hx => ?_
  by_cases hwithin : within first last x.1 = true
  · have hsub : Word.sub x.2 size = .ok (x.2 - size) :=
      Word.sub_eq_ok_iff.2 ⟨Nat.le_of_lt (lt_of_lt_room h hx hwithin), rfl⟩
    simp only [hwithin, if_true, hsub, bind, Except.bind, pure, Except.pure]
  · simp only [hwithin, Bool.false_eq_true, if_false, pure, Except.pure]

end PrefetchSearch

/-! ## One hint -/

variable {g : TaskGraph} {order placements : List Placement} {limits : PrefetchLimits}

/-- If none of the tasks is found not to run before a time, all do. -/
theorem lt_of_anyNotBefore {time : Nat} {tasks : List Nat}
    (h : anyNotBefore order time tasks = .ok false) {id : Nat} (hid : id ∈ tasks) :
    ∃ start, Timetable.timeOf order id = .ok start ∧ start < time := by
  induction tasks with
  | nil => cases hid
  | cons task rest ih =>
    unfold anyNotBefore at h
    cases htime : Timetable.timeOf order task with
    | error fault => simp [htime, bind, Except.bind] at h
    | ok start =>
      simp only [htime, bind, Except.bind, pure, Except.pure] at h
      split at h
      · cases h
      · next hlt =>
        rcases List.mem_cons.1 hid with rfl | hid
        · exact ⟨start, htime, Nat.lt_of_not_le hlt⟩
        · exact ih h hid

/-- When a transfer is hinted. -/
theorem judgeTransfer_take (h : Searchable g order) {compute transfer : Placement}
    {level size : Nat} {search : PrefetchSearch}
    (htake : judgeTransfer g order limits compute transfer level search = .ok (.take size)) :
    level ≤ (if (g.predecessors transfer.task).isEmpty then limits.constLevels
        else limits.activationLevels) ∧
      transfer.time - compute.time ≤ limits.timeWindow ∧ transfer.time ≠ compute.time ∧
      transfer.task ∉ search.found.map (·.transfer) ∧
      anyNotBefore order compute.time (g.predecessors transfer.task) = .ok false ∧
      size = g.cmxBytes transfer.task ∧
      size < PrefetchSearch.room search.free compute.time transfer.time := by
  unfold judgeTransfer at htake
  simp only [h.footprint, bind, Except.bind, pure, Except.pure] at htake
  generalize (if (g.predecessors transfer.task).isEmpty = true then limits.constLevels
    else limits.activationLevels) = limit at htake ⊢
  split at htake
  · cases htake
  next hlimit =>
  split at htake
  · cases htake
  next hnew =>
  split at htake
  · cases htake
  next found hany =>
  split at htake
  · cases htake
  next hbefore =>
  split at htake
  · cases htake
  next hroom =>
  cases htake
  simp only [Bool.or_eq_true, decide_eq_true_eq, beq_iff_eq, not_or, Nat.not_lt,
    List.any_eq_true, not_exists, not_and] at hlimit hnew
  refine ⟨hlimit.1, hlimit.2, hnew.1, ?_, ?_, rfl, Nat.lt_of_not_le hroom⟩
  · rw [List.mem_map]
    rintro ⟨f, hf, heq⟩
    exact hnew.2 f hf heq
  · rw [hany, Bool.eq_false_iff.2 hbefore]

/-- A timetable that can be searched: every task once, in order of time and task. -/
structure Scannable (g : TaskGraph) (order : List Placement) : Prop where
  wellFormed : g.WellFormed
  orders : Timetable.Orders g order
  ascending : order.Pairwise Placement.Earlier
  searchable : Searchable g order

/-- Between two placements of an ordered timetable stand those that are later than one and
earlier than the other. -/
theorem countP_between (h : order.Pairwise Placement.Earlier) {front mid rest : List Placement}
    {c d : Placement} (horder : order = front ++ c :: (mid ++ d :: rest)) (P : Placement → Bool) :
    order.countP (fun p => c.Earlier p ∧ p.Earlier d ∧ P p) = mid.countP P := by
  have hirrefl : ∀ p : Placement, ¬ p.Earlier p := by
    intro p
    unfold Placement.Earlier
    omega
  have hasymm : ∀ p q : Placement, p.Earlier q → ¬ q.Earlier p := by
    intro p q
    unfold Placement.Earlier
    omega
  rw [horder] at h
  obtain ⟨-, hc, hfront⟩ := List.pairwise_append.1 h
  obtain ⟨hafter, hmid⟩ := List.pairwise_cons.1 hc
  obtain ⟨-, hd, hbefore⟩ := List.pairwise_append.1 hmid
  have hnone : ∀ p ∈ front ++ [c] ++ d :: rest,
      ¬ (decide (c.Earlier p ∧ p.Earlier d ∧ P p = true)) = true := by
    intro p hp
    rw [decide_eq_true_eq]
    rintro ⟨hcp, hpd, -⟩
    rw [List.mem_append, List.mem_append, List.mem_singleton, List.mem_cons] at hp
    rcases hp with (hp | rfl) | rfl | hp
    · exact hasymm p c (hfront p hp c List.mem_cons_self) hcp
    · exact hirrefl p hcp
    · exact hirrefl p hpd
    · exact hasymm d p ((List.pairwise_cons.1 hd).1 p hp) hpd
  have hall : mid.countP (fun p => decide (c.Earlier p ∧ p.Earlier d ∧ P p = true)) =
      mid.countP P := by
    refine List.countP_congr fun p hp => ?_
    have hcp := hafter p (List.mem_append_left _ hp)
    have hpd := hbefore p hp d List.mem_cons_self
    simp [hcp, hpd]
  have hzero := List.countP_eq_zero.2 hnone
  rw [horder]
  simp only [List.countP_append, List.countP_cons, List.countP_nil] at hzero ⊢
  omega

/-- The search agrees with what it has found: its hints keep their promises, none repeats a
transfer, and the free memory is what the hints leave of `rooms`. -/
structure Agrees (g : TaskGraph) (order : List Placement) (limits : PrefetchLimits)
    (rooms : List (Nat × Nat)) (search : PrefetchSearch) : Prop where
  promised : ∀ f ∈ search.found, ∃ c ∈ order, ∃ d ∈ order,
    c.task = f.compute ∧ d.task = f.transfer ∧ Prefetchable g order limits c d
  nodup : (search.found.map (·.transfer)).Nodup
  free_eq : search.free = rooms.map fun x =>
    (x.1, x.2 - movedAcross g order (search.found.map fun f => (f.compute, f.transfer)) x.1)
  moved_le : ∀ x ∈ rooms,
    movedAcross g order (search.found.map fun f => (f.compute, f.transfer)) x.1 ≤ x.2

theorem movedAcross_cons (pair : Nat × Nat) (pairs : List (Nat × Nat)) (time : Nat) :
    movedAcross g order (pair :: pairs) time = movedAcross g order pairs time +
      if PrefetchSearch.within (Timetable.startOf order pair.1) (Timetable.startOf order pair.2) time
      then g.cmxBytes pair.2 else 0 := by
  unfold movedAcross
  rw [List.filter_cons]
  split
  · rw [List.map_cons, Word.total_cons, Nat.add_comm]
  · rw [Nat.add_zero]

namespace Agrees

variable {rooms : List (Nat × Nat)} {search : PrefetchSearch}

/-- One more hint. -/
theorem take (h : Agrees g order limits rooms search) (hs : Scannable g order)
    {front mid rest : List Placement} {compute later : Placement}
    (horder : order = front ++ compute :: (mid ++ later :: rest))
    (hcomputes : g.computesInCmx compute.task = true)
    (htransfers : g.transfersInCmx later.task = true) {size level : Nat}
    (hlevel : level = 1 + mid.countP (g.computesInCmx ·.task))
    (htake : judgeTransfer g order limits compute later level search = .ok (.take size))
    (distance : Nat) :
    Agrees g order limits rooms {
      free := PrefetchSearch.spend search.free compute.time later.time size
      found := ⟨compute.task, later.task, distance, level⟩ :: search.found } := by
  obtain ⟨hlimit, hwindow, hne, hnew, hbefore, rfl, hroom⟩ := judgeTransfer_take hs.searchable htake
  have hcompute : compute ∈ order := by simp [horder]
  have hlater : later ∈ order := by simp [horder]
  have hearlier : compute.Earlier later := by
    have hascending := hs.ascending
    rw [horder] at hascending
    exact (List.pairwise_cons.1 (List.pairwise_append.1 hascending).2.1).1 later (by simp)
  have hlt : compute.time < later.time := by
    unfold Placement.Earlier at hearlier
    omega
  have hstart := Timetable.startOf_of_mem hs.orders.nodup hcompute
  have hstop := Timetable.startOf_of_mem hs.orders.nodup hlater
  have hmoved : ∀ time, movedAcross g order ((⟨compute.task, later.task, distance, level⟩ ::
        search.found).map fun f => (f.compute, f.transfer)) time =
      movedAcross g order (search.found.map fun f => (f.compute, f.transfer)) time +
        if PrefetchSearch.within compute.time later.time time then g.cmxBytes later.task else 0 := by
    intro time
    rw [List.map_cons, movedAcross_cons, hstart, hstop]
  constructor
  case promised =>
    refine List.forall_mem_cons.2 ⟨?_, h.promised⟩
    refine ⟨compute, hcompute, later, hlater, rfl, rfl, hcomputes, htransfers, hlt, by omega, ?_, ?_⟩
    · intro p hp hjoins
      obtain ⟨start, htime, hstart⟩ :=
        lt_of_anyNotBefore hbefore (TaskGraph.mem_predecessors.2 hjoins)
      rw [Timetable.timeOf_eq_ok (List.mem_map_of_mem hp),
        Timetable.startOf_of_mem hs.orders.nodup hp] at htime
      rw [Except.ok.inj htime]
      exact hstart
    · rw [countP_between hs.ascending horder (g.computesInCmx ·.task), ← hlevel]
      exact hlimit
  case nodup => exact List.nodup_cons.2 ⟨hnew, h.nodup⟩
  case free_eq =>
    show PrefetchSearch.spend search.free compute.time later.time (g.cmxBytes later.task) = _
    rw [h.free_eq, PrefetchSearch.spend, List.map_map]
    refine List.map_congr_left fun x _ => ?_
    rw [hmoved]
    simp only [Function.comp_apply]
    split
    · rw [Nat.sub_sub]
    · rw [Nat.add_zero]
  case moved_le =>
    intro x hx
    have hle := h.moved_le x hx
    rw [hmoved]
    split
    · next hwithin =>
      -- the transfer is smaller than what is left of the step
      have hmem : (x.1, x.2 - movedAcross g order
          (search.found.map fun f => (f.compute, f.transfer)) x.1) ∈ search.free := by
        rw [h.free_eq]
        exact List.mem_map.2 ⟨x, hx, rfl⟩
      have hleft := PrefetchSearch.lt_of_lt_room hroom hmem hwithin
      simp only at hleft
      omega
    · exact hle

/-! ## The search -/

/-- The scan after a compute task, also in checked arithmetic. -/
theorem scanAfter (hs : Scannable g order) {front : List Placement} {compute : Placement}
    (hcomputes : g.computesInCmx compute.task = true) (later mid : List Placement)
    (horder : order = front ++ compute :: (mid ++ later))
    (h : Agrees g order limits rooms search) :
    ∃ search', TaskLoom.scanAfter g order limits compute
          (1 + mid.countP (g.computesInCmx ·.task)) later search = .done () search' ∧
      scanAfterChecked g order limits compute
          (1 + mid.countP (g.computesInCmx ·.task)) later search = .ok search' ∧
      Agrees g order limits rooms search' := by
  induction later generalizing mid search with
  | nil => exact ⟨search, rfl, rfl, h⟩
  | cons next rest ih =>
    have hnext : order = front ++ compute :: ((mid ++ [next]) ++ rest) := by
      rw [horder, List.append_assoc mid, List.singleton_append]
    have hlevel : (if g.computesInCmx next.task = true
        then 1 + mid.countP (g.computesInCmx ·.task) + 1
        else 1 + mid.countP (g.computesInCmx ·.task)) =
        1 + (mid ++ [next]).countP (g.computesInCmx ·.task) := by
      rw [List.countP_append, List.countP_singleton]
      split <;> omega
    unfold TaskLoom.scanAfter scanAfterChecked
    simp only [hs.searchable.isComputeInCmx_eq, hs.searchable.isTransferInCmx_eq, hlevel, bind,
      Except.bind]
    cases htransfers : g.transfersInCmx next.task with
    | false => exact ih (mid ++ [next]) hnext h
    | true =>
      have hle : compute.time ≤ next.time := by
        have hascending := hs.ascending
        rw [horder] at hascending
        have hearlier := (List.pairwise_cons.1 (List.pairwise_append.1 hascending).2.1).1 next
          (by simp)
        unfold Placement.Earlier at hearlier
        omega
      have hdistance : Word.sub next.time compute.time = .ok (next.time - compute.time) :=
        Word.sub_eq_ok_iff.2 ⟨hle, rfl⟩
      obtain ⟨verdict, hverdict⟩ := @judgeTransfer_ok g order limits hs.wellFormed hs.searchable
        compute next (1 + (mid ++ [next]).countP (g.computesInCmx ·.task)) search
      simp only [hdistance, hverdict, if_true]
      cases verdict with
      | stop => exact ⟨search, rfl, rfl, h⟩
      | pass => exact ih (mid ++ [next]) hnext h
      | take size =>
        have hroom := (judgeTransfer_take hs.searchable hverdict).2.2.2.2.2.2
        have hpasses : 1 + (mid ++ [next]).countP (g.computesInCmx ·.task) =
            1 + mid.countP (g.computesInCmx ·.task) := by
          simp [List.countP_append, TaskGraph.not_computesInCmx htransfers]
        have htake := h.take hs horder hcomputes htransfers hpasses hverdict
          (next.time - compute.time)
        simp only [PrefetchSearch.spendChecked_eq hroom]
        exact ih (mid ++ [next]) hnext htake

/-- The scan of all compute tasks, also in checked arithmetic. -/
theorem scanAll (hs : Scannable g order) (ps front : List Placement) (horder : order = front ++ ps)
    (h : Agrees g order limits rooms search) :
    ∃ search', TaskLoom.scanAll g order limits ps search = .done () search' ∧
      scanAllChecked g order limits ps search = .ok search' ∧
      Agrees g order limits rooms search' := by
  induction ps generalizing front search with
  | nil => exact ⟨search, rfl, rfl, h⟩
  | cons compute rest ih =>
    have hrest : order = (front ++ [compute]) ++ rest := by
      rw [horder, List.append_assoc, List.singleton_append]
    unfold TaskLoom.scanAll scanAllChecked
    simp only [hs.searchable.isComputeInCmx_eq, bind, Except.bind]
    cases hcomputes : g.computesInCmx compute.task with
    | false => exact ih (front ++ [compute]) hrest h
    | true =>
      obtain ⟨search', hscan, hchecked, h'⟩ := h.scanAfter hs hcomputes rest [] horder
      simp only [List.countP_nil, Nat.add_zero] at hscan hchecked
      simp only [hscan, hchecked, if_true]
      exact ih (front ++ [compute]) hrest h'

end Agrees

/-! ## All hints -/

/-- Grouped by distinct keys, no element is lost and none repeated. -/
theorem flatMap_filter_perm {α : Type} {key : α → Nat} {keys : List Nat} (hkeys : keys.Nodup)
    {xs : List α} (hxs : ∀ x ∈ xs, key x ∈ keys) :
    (keys.flatMap fun k => xs.filter (key · == k)).Perm xs := by
  induction keys generalizing xs with
  | nil =>
    have hnil : xs = [] := List.eq_nil_iff_forall_not_mem.2 fun x hx => by simpa using hxs x hx
    rw [hnil]
    exact List.Perm.nil
  | cons k keys ih =>
    obtain ⟨hk, hkeys⟩ := List.nodup_cons.1 hkeys
    have hothers : (keys.flatMap fun k' => xs.filter (key · == k')) =
        keys.flatMap fun k' => (xs.filter (!key · == k)).filter (key · == k') := by
      refine List.flatMap_congr fun k' hk' => ?_
      rw [List.filter_filter]
      refine List.filter_congr fun x _ => ?_
      have hne : k' ≠ k := fun heq => hk (heq ▸ hk')
      by_cases hx : key x = k' <;> simp [hx, hne]
    have hleft : ∀ x ∈ xs.filter (!key · == k), key x ∈ keys := by
      intro x hx
      obtain ⟨hmem, hne⟩ := List.mem_filter.1 hx
      have hnot : key x ≠ k := by simpa using hne
      exact (List.mem_cons.1 (hxs x hmem)).resolve_left hnot
    rw [List.flatMap_cons, hothers]
    exact ((ih hkeys hleft).append_left _).trans (List.filter_append_perm (key · == k) xs)

/-- The hints are the pairs that were found, grouped by compute task. -/
theorem pairs_ofPrefetches (found : List Prefetch) :
    (Hints.ofPrefetches found).pairs.Perm (found.map fun f => (f.compute, f.transfer)) := by
  have hgrouped : (Hints.ofPrefetches found).pairs =
      ((IdSet.ofList (found.map (·.compute))).flatMap fun k =>
        found.filter (·.compute == k)).map fun f => (f.compute, f.transfer) := by
    unfold Hints.pairs Hints.ofPrefetches
    rw [List.flatMap_map, List.map_flatMap]
    refine List.flatMap_congr fun k _ => ?_
    rw [List.map_map]
    refine List.map_congr_left fun f hf => ?_
    have hcompute : f.compute = k := by simpa using (List.mem_filter.1 hf).2
    rw [Function.comp_apply, hcompute]
  rw [hgrouped]
  refine (flatMap_filter_perm ((IdSet.pairwise_ofList _).imp Nat.ne_of_lt) fun f hf => ?_).map _
  exact IdSet.mem_ofList.2 (List.mem_map_of_mem hf)

/-! ## The order of the list plays no part -/

theorem Timetable.startOf_perm (hnodup : (placements.map (·.task)).Nodup)
    (hperm : order.Perm placements) : startOf order = startOf placements := by
  funext id
  by_cases hid : id ∈ placements.map (·.task)
  · obtain ⟨p, hp, rfl⟩ := List.mem_map.1 hid
    rw [startOf_of_mem hnodup hp,
      startOf_of_mem ((hperm.map _).nodup_iff.2 hnodup) (hperm.mem_iff.2 hp)]
  · have hnone : ∀ qs : List Placement, id ∉ qs.map (·.task) → startOf qs id = 0 := by
      intro qs hnot
      have hfind : qs.reverse.find? (·.task == id) = none := by
        rw [List.find?_eq_none]
        intro q hq heq
        exact hnot (List.mem_map.2 ⟨q, List.mem_reverse.1 hq, by simpa using heq⟩)
      simp [startOf, timeOf?, hfind]
    rw [hnone placements hid, hnone order fun hmem => hid ((hperm.map _).mem_iff.1 hmem)]

theorem Prefetchable.perm {c d : Placement} (h : Prefetchable g order limits c d)
    (hperm : order.Perm placements) : Prefetchable g placements limits c d where
  computes := h.computes
  transfers := h.transfers
  later := h.later
  in_window := h.in_window
  ready p hp := h.ready p (hperm.mem_iff.2 hp)
  passes := by
    rw [← hperm.countP_eq]
    exact h.passes

theorem movedAcross_perm {pairs pairs' : List (Nat × Nat)} (hpairs : pairs.Perm pairs')
    (time : Nat) : movedAcross g placements pairs time = movedAcross g placements pairs' time :=
  Word.total_perm ((hpairs.filter _).map _)

/-- No two placements of a sorted timetable are level. -/
theorem Timetable.Orders.ascending (h : Timetable.Orders g placements) :
    (Timetable.sorted placements).Pairwise Placement.Earlier := by
  have hapart := List.pairwise_map.1 h.sorted.nodup
  refine ((Timetable.pairwise_sorted_before placements).and hapart).imp ?_
  rintro p q ⟨hbefore, hne⟩
  simp only [Placement.before, Bool.or_eq_true, Bool.and_eq_true, decide_eq_true_eq,
    beq_iff_eq] at hbefore
  unfold Placement.Earlier
  omega

/-- A timetable can be searched when it is sorted. -/
theorem Timetable.Orders.scannable (h : Timetable.Orders g placements) (hg : g.WellFormed)
    (hfootprint : ∀ id ∈ g.ids, g.cmxBytes id < Word.bound) :
    Scannable g (Timetable.sorted placements) :=
  ⟨hg, h.sorted, h.ascending, h.sorted.searchable hfootprint⟩

/-- The search of a timetable comes to its end, also in checked arithmetic.  Every hint keeps
its promises, no transfer is hinted twice, and in every step the transfers that are moved
across it fit into what the timetable leaves free. -/
theorem findPrefetches_promises (hg : g.WellFormed) (h : Timetable.Orders g placements)
    (hranges : ∀ p ∈ placements, ∀ i ∈ p.ranges, i.start ≤ i.stop)
    (hheld : ∀ p ∈ placements, p.heldBytes < Word.bound)
    (hfootprint : ∀ id ∈ g.ids, g.cmxBytes id < Word.bound) (cmxSize : Nat)
    (limits : PrefetchLimits) :
    ∃ found, findPrefetches g placements cmxSize limits = .done () found ∧
      findPrefetchesChecked g placements cmxSize limits = .ok found ∧
      (∀ x ∈ (Hints.ofPrefetches found).pairs, ∃ c ∈ placements, ∃ d ∈ placements,
        c.task = x.1 ∧ d.task = x.2 ∧ Prefetchable g placements limits c d) ∧
      ((Hints.ofPrefetches found).pairs.map (·.2)).Nodup ∧
      ∀ time, (∃ p ∈ placements, p.time = time) →
        movedAcross g placements (Hints.ofPrefetches found).pairs time ≤
          cmxSize - Word.total ((Timetable.placedAt placements time).map Placement.heldBytes) := by
  have hperm := Timetable.sorted_perm placements
  have hs := h.scannable hg hfootprint
  have hfree := PrefetchSearch.freeMemory_sorted cmxSize hranges hheld
  have hstart : Agrees g (Timetable.sorted placements) limits
      ((Timetable.steps (Timetable.sorted placements)).map (PrefetchSearch.roomOf cmxSize))
      ⟨(Timetable.steps (Timetable.sorted placements)).map (PrefetchSearch.roomOf cmxSize), []⟩ := by
    constructor <;> simp [movedAcross]
  obtain ⟨search, hscan, hchecked, hagrees⟩ := hstart.scanAll hs (Timetable.sorted placements) [] rfl
  have hpairs := (pairs_ofPrefetches search.found.reverse).trans
    ((List.reverse_perm search.found).map _)
  refine ⟨search.found.reverse, ?_, ?_, ?_, ?_, ?_⟩
  · simp only [findPrefetches, hfree, hscan]
  · simp only [findPrefetchesChecked, hfree, hchecked, bind, Except.bind, pure, Except.pure]
  · intro x hx
    obtain ⟨f, hf, rfl⟩ := List.mem_map.1 (hpairs.mem_iff.1 hx)
    obtain ⟨c, hc, d, hd, hcompute, htransfer, hpromise⟩ := hagrees.promised f hf
    exact ⟨c, hperm.mem_iff.1 hc, d, hperm.mem_iff.1 hd, hcompute, htransfer, hpromise.perm hperm⟩
  · rw [(hpairs.map _).nodup_iff, List.map_map]
    exact hagrees.nodup
  · intro time hoccupied
    have hgroups := Timetable.groups_steps (Timetable.sorted placements)
    have hmem : time ∈ (Timetable.steps (Timetable.sorted placements)).map (·.1) := by
      rw [hgroups.occupied]
      simpa only [hperm.mem_iff] using hoccupied
    obtain ⟨step, hstep, rfl⟩ := List.mem_map.1 hmem
    have hle := hagrees.moved_le _ (List.mem_map_of_mem hstep)
    have hplaced : (Timetable.placedAt (Timetable.sorted placements) step.1).Perm
        (Timetable.placedAt placements step.1) := hperm.filter _
    simp only [PrefetchSearch.roomOf, hgroups.eq_placedAt step hstep] at hle
    rw [Word.total_perm (hplaced.map _), ← movedAcross_perm hpairs] at hle
    unfold movedAcross at hle ⊢
    rw [Timetable.startOf_perm h.nodup hperm] at hle
    exact hle

/-- A compute task that leaves 192 bytes free, and after it two loads of 100 and 92 bytes. -/
def TaskGraph.twoLoads : TaskGraph where
  tasks := #[
    some { name := "first", kind := .dma, buffers := [⟨"a", 100, .cmx, none⟩] },
    some { name := "conv", kind := .compute 1, buffers := [⟨"c", 64, .cmx, none⟩] },
    some { name := "second", kind := .dma, buffers := [⟨"b", 92, .cmx, none⟩] }]

/-- The first load may run beside the compute task.  Then 92 bytes are left, which is not
more than the second one needs. -/
theorem findPrefetches_promises_twoLoads :
    let placements : List Placement := [⟨1, 0, some ⟨1⟩, 1, [⟨0, 0, 64⟩]⟩,
      ⟨0, 1, some ⟨1⟩, 1, [⟨0, 0, 128⟩]⟩, ⟨2, 1, some ⟨1⟩, 1, [⟨0, 128, 256⟩]⟩]
    TaskGraph.twoLoads.WellFormed ∧ Timetable.Orders .twoLoads placements ∧
      ∃ found, findPrefetches .twoLoads placements 256 {} = .done () found ∧
        findPrefetchesChecked .twoLoads placements 256 {} = .ok found ∧
        (Hints.ofPrefetches found).pairs = [(1, 0)] ∧
        movedAcross .twoLoads placements [(1, 0)] 0 ≤ 256 - 64 := by
  intro placements
  have hg : TaskGraph.twoLoads.WellFormed := by constructor <;> decide
  have horders : Timetable.Orders .twoLoads placements := ⟨by decide, by decide⟩
  obtain ⟨found, hdone, hchecked, -, -, hmoved⟩ := findPrefetches_promises hg horders
    (by decide) (by decide) (by decide) 256 {}
  have hsorted : Timetable.sorted placements = placements :=
    List.mergeSort_of_pairwise (by decide)
  have hfound : (findPrefetches .twoLoads placements 256 {}).state = [⟨1, 0, 1, 1⟩] := by
    unfold findPrefetches
    rw [hsorted]
    rfl
  rw [hdone] at hfound
  obtain rfl : found = [⟨1, 0, 1, 1⟩] := hfound
  exact ⟨hg, horders, _, hdone, hchecked, rfl, hmoved 0 (by decide)⟩

end TaskLoom
