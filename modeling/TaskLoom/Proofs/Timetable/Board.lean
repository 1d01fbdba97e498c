import Mathlib.Data.Prod.Lex
import TaskLoom.Proofs.Graph.Counting
import TaskLoom.Proofs.Memory.LookAhead
import TaskLoom.Proofs.Timetable.States

/-!
# A run with tables

A run works out which tasks are ready: at the end of each step it looks at the predecessors of
every waiting task, and sorts what is ready anew.  The same run comes out when all of this is
kept in tables.  A board has a count of the edges that hold back each task, the ready tasks and
those set aside in order of rank, the running tasks in the order in which they end, and the
scratch ranges of each of them.  One turn of its loop places the first ready task that fits,
with what is hinted for it, or ends what ends next.  Memory is reserved, and looked ahead for,
in checked arithmetic.

A board tracks a run, and a task that is considered changes both in the same way.

## Main results

* `Tracks.consider` — a task that is considered.
* `Tracks.prefetch` — the tasks that are hinted for a placed one.
-/

namespace TaskLoom.ListScheduler

/-! ## The board -/

/-- A rank or a time, and a task; keys are in order of both. -/
abbrev Key := Nat ×ₗ Nat

/-- The task of a key. -/
def Key.task (k : Key) : Nat :=
  (ofLex k).2

/-- The time of a key. -/
def Key.time (k : Key) : Nat :=
  (ofLex k).1

/-- Adds a key to an ascending list that may have it. -/
def Key.join (k : Key) (ks : List Key) : List Key :=
  if k ∈ ks then ks else ks.orderedInsert (· ≤ ·) k

/-- Adds keys to an ascending list. -/
def Key.joinAll (new ks : List Key) : List Key :=
  new.foldr join ks

/-- The key of a ready task. -/
def key (s : ListScheduler) (task : Nat) : Key :=
  toLex (s.rank task, task)

/-- A run under way, with tables. -/
structure Board where
  memory : FirstFit
  barriers : Holdings
  /-- The edges from unfinished tasks, by id. -/
  counts : Array Nat
  /-- Ready tasks by rank, ascending. -/
  ready : List Key
  /-- Ready tasks that did not fit the current step, ascending. -/
  deferred : List Key
  /-- Running tasks by the time at which they end, ascending. -/
  inFlight : List Key
  /-- The scratch ranges of a running task. -/
  live : Nat → List Interval
  /-- All placements, the last one first. -/
  placements : List Placement
  time : Nat
  states : Array TaskState
  checks : Nat
  /-- What happened, the last event first. -/
  events : List ListingEvent

namespace Board

/-- Records an event. -/
def record (b : Board) (event : ListingEvent) : Board :=
  { b with events := event :: b.events }

/-- Moves a task to another state. -/
def enter (b : Board) (task : Nat) (state : TaskState) : Board :=
  let before := b.states.getD task .unscheduled
  { b.record (.stateChange task before state) with states := b.states.setIfInBounds task state }

/-- The board after a check. -/
def checked (b : Board) (task : Nat) : Board :=
  { b.enter task .pending with checks := b.checks + 1 }

/-- Checks whether a task fits what is free. -/
def check (s : ListScheduler) (task : Nat) (b : Board) : Outcome Board Bool :=
  let t := s.graph.task task
  if t.demand = 0 || b.barriers.hasRoom t.demand then
    match b.memory.replay [] (t.requests.map (·.2)) with
    | .ok fits => .done fits (b.checked task)
    | .error fault => .failed fault (b.checked task)
  else
    .done false (b.checked task)

/-- Reserves scratch memory for requests in order. -/
def reserve (memory : FirstFit) (requests : List (Nat × Nat)) :
    Except Fault (List Interval × FirstFit) := do
  match ← FirstFit.inTurn FirstFit.reserveChecked memory (requests.map (·.2)) with
  | none => .error (.broken .scratchVanished)
  | some (ranges, memory) =>
    return (requests.zipWith (fun (buffer, _) r => ⟨buffer, r.start, r.stop⟩) ranges, memory)

/-- Places a task in the current step. -/
def commit (s : ListScheduler) (task : Nat) (b : Board) : Outcome Board Unit :=
  let t := s.graph.task task
  match reserve b.memory t.requests with
  | .error fault => .failed fault b
  | .ok (ranges, memory) =>
    match Run.takeSlots b.barriers task t.demand with
    | .error fault => .failed fault b
    | .ok (barrier, barriers) =>
      let b := b.record (.placed task b.time barrier memory.used)
      let b := b.enter task .scheduled
      .done () { b with
        memory
        barriers
        inFlight := b.inFlight.orderedInsert (· ≤ ·) (toLex (b.time + 1, task))
        live := Function.update b.live task ranges
        placements := ⟨task, b.time, barrier, t.demand, ranges⟩ :: b.placements }

/-- Sets a ready task aside. -/
def park (s : ListScheduler) (task : Nat) (b : Board) : Board :=
  { b.enter task .deferred with
    ready := b.ready.erase (s.key task)
    deferred := (s.key task).join b.deferred }

/-- Takes a task out of the ready ones, and notes for which task it was hinted, if any. -/
def pick (s : ListScheduler) (task : Nat) (beside : Option Nat) (b : Board) : Board :=
  let b := { b with ready := b.ready.erase (s.key task) }
  match beside with
  | some other => b.record (.prefetched task other)
  | none => b

/-- Places a ready task if it fits, sets it aside if not, and tells which. -/
def consider (s : ListScheduler) (task : Nat) (beside : Option Nat) (b : Board) :
    Outcome Board Bool :=
  match b.check s task with
  | .failed fault b => .failed fault b
  | .done false b => .done false (b.park s task)
  | .done true b =>
    match (b.pick s task beside).commit s task with
    | .failed fault b => .failed fault b
    | .done () b => .done true b

/-- Places the first ready task that fits and tells which, if there is one. -/
def placeFirst (s : ListScheduler) : List Key → Board → Outcome Board (Option Nat)
  | [], b => .done none b
  | k :: ks, b =>
    match b.consider s k.task none with
    | .failed fault b => .failed fault b
    | .done true b => .done (some k.task) b
    | .done false b => placeFirst s ks b

/-- Considers the hinted tasks that are ready. -/
def prefetch (s : ListScheduler) (task : Nat) : List Nat → Board → Outcome Board Unit
  | [], b => .done () b
  | hinted :: rest, b =>
    if s.key hinted ∈ b.ready then
      match b.consider s hinted (some task) with
      | .failed fault b => .failed fault b
      | .done _ b => prefetch s task rest b
    else
      prefetch s task rest b

/-- Ends a task: it returns what it holds, and its edges no longer hold back their targets. -/
def retire (s : ListScheduler) (task : Nat) (b : Board) : Outcome Board Unit :=
  match Run.giveBack b.memory (b.live task) with
  | .error fault => .failed fault b
  | .ok memory =>
    match b.barriers.release task with
    | .error fault => .failed fault b
    | .ok (_, barriers) =>
      let b := b.enter task .retired
      match TaskGraph.Tally.crossAll ⟨b.counts, []⟩ (s.graph.targets task) with
      | .error fault => .failed fault b
      | .ok tally => .done () { b with
          memory
          barriers
          counts := tally.counts
          ready := Key.joinAll (tally.ready.map s.key) b.ready
          live := Function.update b.live task [] }

/-- Ends the running tasks whose time has come. -/
def retireDue (s : ListScheduler) (time : Nat) : List Key → Board → Outcome Board Unit
  | [], b => .done () { b with inFlight := [] }
  | k :: ks, b =>
    if k.time = time then
      match b.retire s k.task with
      | .failed fault b => .failed fault b
      | .done () b => retireDue s time ks b
    else
      .done () { b with inFlight := k :: ks }

/-- Moves to the time at which a task ends next, and ends all tasks that end then.  What was
set aside is ready again. -/
def retireNext (s : ListScheduler) (b : Board) : Outcome Board Unit :=
  match b.inFlight with
  | [] => .done () b
  | k :: ks =>
    match retireDue s k.time (k :: ks) { b with time := k.time } with
    | .failed fault b => .failed fault b
    | .done () b => .done () { b with ready := Key.joinAll b.deferred b.ready, deferred := [] }

/-- The fault of a run in which nothing runs and nothing fits. -/
def stuck (s : ListScheduler) (b : Board) : Fault :=
  match Key.joinAll b.deferred b.ready with
  | k :: _ =>
    match s.shortage k.task b.memory with
    | .ok error => .refused error
    | .error fault => fault
  | [] =>
    let left := s.graph.ids.find? (b.states.getD · .unscheduled = .unscheduled)
    .refused (.cyclic (left.elim "" s.graph.name))

/-- One turn: a task is placed with what is hinted for it, or tasks end. -/
def turn (s : ListScheduler) (b : Board) : Outcome Board Unit :=
  match b.placeFirst s b.ready with
  | .failed fault b => .failed fault b
  | .done (some task) b => b.prefetch s task (s.hints.beside task)
  | .done none b => if b.inFlight.isEmpty then .failed (b.stuck s) b else b.retireNext s

/-- Whether a task is not placed, or runs. -/
def goesOn (s : ListScheduler) (b : Board) : Bool :=
  b.placements.length < s.graph.size || !b.inFlight.isEmpty

/-- Takes turns until all tasks have ended, but at most `limit`. -/
def loop (s : ListScheduler) : (limit : Nat) → Board → Option (Outcome Board Unit)
  | 0, b => if b.goesOn s then none else some (.done () b)
  | limit + 1, b =>
    if b.goesOn s then
      match b.turn s with
      | .failed fault b => some (.failed fault b)
      | .done () b => loop s limit b
    else
      some (.done () b)

/-- The board before the first turn. -/
def start (s : ListScheduler) (barriers : Holdings) : Board where
  memory := FirstFit.create s.settings.cmxSize s.settings.alignment
  barriers
  counts := s.graph.tally.counts
  ready := Key.joinAll (s.graph.tally.ready.map s.key) []
  deferred := []
  inFlight := []
  live _ := []
  placements := []
  time := 0
  states := s.states
  checks := s.checks
  events := []

/-- The scheduler as a board leaves it. -/
def keep (s : ListScheduler) (b : Board) : ListScheduler :=
  { s with states := b.states, checks := b.checks }

/-- The listing that is made of a board. -/
def conclude (s : ListScheduler) : Outcome Board Unit → Listing
  | .failed fault b => ⟨.error fault, b.keep s, b.events.reverse⟩
  | .done () b =>
    let finished := .finished b.placements.length b.time b.memory.peak b.checks
    ⟨.ok b.placements.reverse, b.keep s, (b.record finished).events.reverse⟩

/-- Places every task, in at most `limit` turns. -/
def listing (s : ListScheduler) (limit : Nat) : Option Listing :=
  match Holdings.create s.settings.barrierCount s.settings.slotsPerBarrier with
  | .error fault => some ⟨.error fault, s, []⟩
  | .ok barriers => ((start s barriers).loop s limit).map (conclude s)

end Board

variable {s : ListScheduler} {r r' : Run} {ready : List Nat} {b b' : Board} {task : Nat}

/-! ## Ascending keys -/

theorem key_injective (s : ListScheduler) : Function.Injective s.key := fun _ _ h =>
  congrArg Key.task h

@[simp]
theorem task_key (s : ListScheduler) (task : Nat) : (s.key task).task = task :=
  rfl

/-- Keys are in the order of ranks. -/
theorem pairwise_map_key {tasks : List Nat} (h : tasks.Pairwise (s.rank · < s.rank ·)) :
    (tasks.map s.key).Pairwise (· < ·) :=
  List.pairwise_map.2 (h.imp fun hlt => Prod.Lex.toLex_lt_toLex.2 (Or.inl hlt))

namespace Key

theorem mem_join {k x : Key} {ks : List Key} : x ∈ k.join ks ↔ x = k ∨ x ∈ ks := by
  unfold join
  split
  · next hmem => exact ⟨Or.inr, fun h => h.elim (fun heq => heq ▸ hmem) id⟩
  · exact List.mem_orderedInsert _

theorem pairwise_join (k : Key) {ks : List Key} (h : ks.Pairwise (· < ·)) :
    (k.join ks).Pairwise (· < ·) := by
  unfold join
  split
  · exact h
  · next hmem => exact TaskGraph.pairwise_orderedInsert h hmem

theorem mem_joinAll {new ks : List Key} {x : Key} : x ∈ joinAll new ks ↔ x ∈ new ∨ x ∈ ks := by
  induction new with
  | nil => simp [joinAll]
  | cons k new ih =>
    show x ∈ k.join (joinAll new ks) ↔ _
    rw [mem_join, ih, List.mem_cons, or_assoc]

theorem pairwise_joinAll (new : List Key) {ks : List Key} (h : ks.Pairwise (· < ·)) :
    (joinAll new ks).Pairwise (· < ·) := by
  induction new with
  | nil => exact h
  | cons k new ih => exact pairwise_join k ih

/-- An ascending list is known by its keys. -/
theorem joinAll_eq {new ks sorted : List Key} (h : ks.Pairwise (· < ·))
    (hsorted : sorted.Pairwise (· < ·)) (hmem : ∀ x, x ∈ new ∨ x ∈ ks ↔ x ∈ sorted) :
    joinAll new ks = sorted :=
  (pairwise_joinAll new h).eq_of_mem_iff hsorted fun x => mem_joinAll.trans (hmem x)

end Key

/-! ## Unfinished tasks -/

/-- The tasks that have not finished. -/
def unfinished (s : ListScheduler) (r : Run) : List Nat :=
  s.graph.ids.filter (!r.retired.getD · false)

theorem nodup_unfinished (s : ListScheduler) (r : Run) : (s.unfinished r).Nodup :=
  s.graph.nodup_ids.filter _

/-- A task that finishes is no longer among them. -/
theorem unfinished_retire (hr' : r'.retired = r.retired.setIfInBounds task true)
    (hsize : task < r.retired.size) : s.unfinished r' = (s.unfinished r).erase task := by
  rw [(nodup_unfinished s r).erase_eq_filter]
  unfold unfinished
  rw [List.filter_filter, hr']
  refine List.filter_congr fun id _ => ?_
  by_cases heq : id = task
  · subst heq
    simp [hsize]
  · simp [heq, Ne.symm heq]

/-- The tasks without an edge from an unfinished one that are not placed are the ready ones. -/
theorem mem_ready_iff (hg : s.graph.WellFormed) (h : Sound s r) {v : Nat} :
    v ∈ Plain.ready s r ↔ (v ∈ s.graph.ids ∧ v ∉ r.placements.map (·.task)) ∧
      s.graph.incoming (s.unfinished r) v = 0 := by
  rw [Plain.mem_ready, TaskGraph.incoming_eq_zero_iff]
  refine and_congr_right fun _ => ⟨fun hall u hu hjoins => ?_, fun hall u hjoins => ?_⟩
  · have hretired := (h.retired_iff u).2 (hall u hjoins)
    have hnot := (List.mem_filter.1 hu).2
    rw [hretired] at hnot
    cases hnot
  · by_contra hnone
    refine hall u (List.mem_filter.2 ⟨hg.joins_left hjoins, ?_⟩) hjoins
    rw [Bool.not_eq_true', Bool.eq_false_iff]
    exact fun hretired => hnone ((h.retired_iff u).1 hretired)

namespace Board

/-! ## Boards that track a run -/

/-- The board agrees with a run on what both keep. -/
structure Agrees (r : Run) (b : Board) : Prop where
  memory_eq : b.memory = r.memory
  barriers_eq : b.barriers = r.barriers
  placements_eq : b.placements = r.placements
  time_eq : b.time = r.time
  states_eq : b.states = r.states
  checks_eq : b.checks = r.checks
  events_eq : b.events = r.events

theorem Agrees.enter (h : Agrees r b) (task : Nat) (state : TaskState) :
    Agrees (r.enter task state) (b.enter task state) where
  memory_eq := h.memory_eq
  barriers_eq := h.barriers_eq
  placements_eq := h.placements_eq
  time_eq := h.time_eq
  states_eq := by simp only [Board.enter, Run.enter, h.states_eq]
  checks_eq := h.checks_eq
  events_eq := by
    simp only [Board.enter, Board.record, Run.enter, Run.record, h.states_eq, h.events_eq]

theorem Agrees.record (h : Agrees r b) (event : ListingEvent) :
    Agrees (r.record event) (b.record event) :=
  { h with events_eq := congrArg (event :: ·) h.events_eq }

theorem Agrees.checked (h : Agrees r b) (task : Nat) :
    Agrees (ListScheduler.checked task r) (b.checked task) :=
  { h.enter task .pending with checks_eq := congrArg (· + 1) h.checks_eq }

/-- The board tracks a run in which `ready` are still to be considered. -/
structure Tracks (s : ListScheduler) (ready : List Nat) (r : Run) (b : Board) : Prop where
  agrees : Agrees r b
  ready_eq : b.ready = ready.map s.key
  deferred_sorted : b.deferred.Pairwise (· < ·)
  mem_deferred : ∀ k, k ∈ b.deferred ↔ k ∈ r.deferred.map s.key
  inFlight_sorted : b.inFlight.Pairwise (· ≤ ·)
  inFlight_perm : b.inFlight.Perm (r.running.map fun p => toLex (r.time + 1, p.task))
  live_eq : ∀ p ∈ r.running, b.live p.task = p.ranges
  counts_size : b.counts.size = s.graph.tasks.size
  count_eq : ∀ v, b.counts.getD v 0 = s.graph.incoming (s.unfinished r) v

/-- A computation on a board ends as one on a run does: with the same value and `P`, or with
the same fault. -/
def Mirrors {α : Type} (P : α → Run → Board → Prop) : Outcome Run α → Outcome Board α → Prop
  | .done a r, .done a' b => a' = a ∧ P a r b
  | .failed fault r, .failed fault' b => fault' = fault ∧ Agrees r b
  | _, _ => False

section Mirrors

variable {α : Type} {P : α → Run → Board → Prop} {o : Outcome Board α}

theorem Mirrors.exists_done {a : α} (h : Mirrors P (.done a r) o) :
    ∃ b, o = .done a b ∧ P a r b := by
  cases o with
  | failed fault b => exact h.elim
  | done a' b =>
    obtain ⟨rfl, hP⟩ := h
    exact ⟨b, rfl, hP⟩

theorem Mirrors.exists_failed {fault : Fault} (h : Mirrors P (.failed fault r) o) :
    ∃ b, o = .failed fault b ∧ Agrees r b := by
  cases o with
  | failed fault' b =>
    obtain ⟨rfl, hagrees⟩ := h
    exact ⟨b, rfl, hagrees⟩
  | done a b => exact h.elim

end Mirrors

/-! ## One task -/

theorem Tracks.checked (h : Tracks s ready r b) (task : Nat) :
    Tracks s ready (ListScheduler.checked task r) (b.checked task) :=
  { h with agrees := h.agrees.checked task }

/-- Looking ahead in checked arithmetic finds out what fits. -/
theorem Tracks.check_eq (h : Tracks s ready r b) (hsound : Sound s r)
    (hcmx : s.settings.cmxSize < Word.bound) (task : Nat) :
    b.check s task = match s.fits r task with
      | .ok fits => .done fits (b.checked task)
      | .error fault => .failed fault (b.checked task) := by
  have hahead : b.memory.replay [] = r.memory.canReserve := by
    funext sizes
    rw [h.agrees.memory_eq]
    exact hsound.memory.replay_eq (hsound.capacity_eq ▸ hcmx) sizes
  unfold check fits
  simp only [hahead, h.agrees.barriers_eq]
  split <;> rfl

/-- Setting a task aside. -/
theorem Tracks.park (h : Tracks s ready r b) (task : Nat) :
    Tracks s (ready.erase task) (setAside task r) (b.park s task) where
  agrees := { h.agrees.enter task .deferred with }
  ready_eq := by
    show b.ready.erase (s.key task) = _
    rw [h.ready_eq, List.map_erase s.key_injective]
  deferred_sorted := Key.pairwise_join _ h.deferred_sorted
  mem_deferred k := by
    show k ∈ (s.key task).join b.deferred ↔ k ∈ (task :: r.deferred).map s.key
    rw [Key.mem_join, h.mem_deferred, List.map_cons, List.mem_cons]
  inFlight_sorted := h.inFlight_sorted
  inFlight_perm := h.inFlight_perm
  live_eq := h.live_eq
  counts_size := h.counts_size
  count_eq := h.count_eq

theorem Tracks.pick (h : Tracks s ready r b) (task : Nat) (beside : Option Nat) :
    Tracks s (ready.erase task) (noted task beside r) (b.pick s task beside) := by
  have hready : b.ready.erase (s.key task) = (ready.erase task).map s.key := by
    rw [h.ready_eq, List.map_erase s.key_injective]
  cases beside with
  | none => exact { h with agrees := { h.agrees with }, ready_eq := hready }
  | some other =>
    exact { h with agrees := { h.agrees.record _ with }, ready_eq := hready }

/-- Reserving in turn and in checked arithmetic gives the ranges of the run. -/
theorem reserve_eq {m : FirstFit} {ranges : List ByteRange} (h : m.Holds ranges)
    (hcapacity : m.capacity < Word.bound) (requests : List (Nat × Nat)) :
    reserve m requests = Run.reserveAll m requests := by
  unfold reserve
  rw [h.inTurn_checked_eq hcapacity]
  clear h hcapacity
  induction requests generalizing m with
  | nil => rfl
  | cons request requests ih =>
    obtain ⟨buffer, size⟩ := request
    rw [List.map_cons, Run.reserveAll]
    cases hreserve : m.reserve size with
    | error fault =>
      rw [FirstFit.inTurn_of_error hreserve]
      rfl
    | ok answer =>
      cases answer with
      | none =>
        rw [FirstFit.inTurn_of_none hreserve]
        rfl
      | some served =>
        obtain ⟨range, m'⟩ := served
        rw [FirstFit.inTurn_of_some hreserve]
        simp only [bind, Except.bind]
        rw [← @ih m']
        cases FirstFit.inTurn FirstFit.reserve m' (requests.map (·.2)) with
        | error fault => rfl
        | ok answer => cases answer <;> rfl

/-- Placing a task that does not run. -/
theorem Tracks.commit (h : Tracks s ready r b) (hsound : Sound s r)
    (hcmx : s.settings.cmxSize < Word.bound) (hother : task ∉ r.running.map (·.task))
    (hplace : s.place task r = .done () r') :
    ∃ b', b.commit s task = .done () b' ∧ Tracks s ready r' b' := by
  have hreserve : reserve b.memory = Run.reserveAll r.memory := by
    funext requests
    rw [h.agrees.memory_eq]
    exact reserve_eq hsound.memory (hsound.capacity_eq ▸ hcmx) requests
  unfold place at hplace
  simp only at hplace
  split at hplace
  · cases hplace
  · next ranges memory hranges =>
    split at hplace
    · cases hplace
    · next barrier barriers hslots =>
      cases hplace
      have hagrees := (h.agrees.record (.placed task b.time barrier memory.used)).enter task
        .scheduled
      have htime := h.agrees.time_eq
      refine ⟨_, by simp only [Board.commit, hreserve, h.agrees.barriers_eq, hranges, hslots]; rfl,
        ?_⟩
      constructor
      case agrees =>
        rw [htime] at hagrees ⊢
        exact { hagrees with
          memory_eq := rfl
          barriers_eq := rfl
          placements_eq := by
            simp only [Board.enter, Board.record, Run.enter, Run.record, htime,
              h.agrees.placements_eq] }
      case ready_eq => exact h.ready_eq
      case deferred_sorted => exact h.deferred_sorted
      case mem_deferred => exact h.mem_deferred
      case inFlight_sorted => exact h.inFlight_sorted.orderedInsert _
      case inFlight_perm =>
        show (b.inFlight.orderedInsert (· ≤ ·) (toLex (b.time + 1, task))).Perm _
        rw [htime]
        exact (List.perm_orderedInsert _ _ _).trans (h.inFlight_perm.cons _)
      case live_eq =>
        refine List.forall_mem_cons.2 ⟨Function.update_self _ _ _, fun p hp => ?_⟩
        have hne : p.task ≠ task := fun heq => hother (heq ▸ List.mem_map_of_mem hp)
        exact (Function.update_of_ne hne _ _).trans (h.live_eq p hp)
      case counts_size => exact h.counts_size
      case count_eq => exact h.count_eq

/-- What considering a task makes of a run and its board. -/
structure Considered (s : ListScheduler) (r : Run) (rest : List Nat) (placed : Bool) (r' : Run)
    (b' : Board) : Prop where
  tracks : Tracks s rest r' b'
  filling : Filling s rest r'
  of_placed : placed = true → r'.running ≠ [] ∧ r'.placements.length = r.placements.length + 1
  of_parked : placed = false → r'.running = r.running ∧ r'.placements = r.placements

/-- A ready task is considered on the board as in the run. -/
theorem Tracks.consider (h : Tracks s ready r b) (hg : s.graph.WellFormed)
    (hvalid : s.settings.validate = .ok ()) (hcmx : s.settings.cmxSize < Word.bound)
    (hfilling : Filling s ready r) (htask : task ∈ ready) (beside : Option Nat) :
    Mirrors (Considered s r (ready.erase task)) (s.consider task beside r)
      (b.consider s task beside) := by
  have hperm : ready.Perm (task :: ready.erase task) := List.perm_cons_erase htask
  have hend := hfilling.consider hg hvalid hperm List.erase_sublist beside
  have hcheck := h.check_eq hfilling.sound hcmx task
  have hchecked := h.checked task
  unfold Board.consider
  rw [consider_eq] at hend ⊢
  cases hfits : s.fits r task with
  | error fault =>
    simp only [hcheck, hfits]
    exact ⟨rfl, hchecked.agrees⟩
  | ok fits =>
    simp only [hcheck, hfits] at hend ⊢
    cases fits with
    | false =>
      rcases hend with ⟨_, hfault, -⟩ | ⟨r', -, hdone, hview, hrest, -⟩ | ⟨-, -, htrue, -⟩
      · cases hfault
      · obtain ⟨-, -, hrunning, hplacements, -⟩ := Plain.view_eq_iff.1 hview
        obtain rfl := (Outcome.done.inj hdone).2
        refine ⟨rfl, hchecked.park task, hrest, fun htrue => ?_, fun _ => ⟨hrunning, hplacements⟩⟩
        cases htrue
      · cases htrue
    | true =>
      rcases hend with ⟨_, hfault, -⟩ | ⟨r', hfalse, -⟩ | ⟨-, r', -, hdone, -, -, hrest, -⟩
      · cases hfault
      · cases hfalse
      · -- recording the hint changes nothing that placing looks at
        have hcore : core (noted task beside (ListScheduler.checked task r)) = core r := by
          cases beside <;> rfl
        have hsound := hfilling.sound.of_core hcore
        have hother : task ∉ r.running.map (·.task) := by
          intro hruns
          obtain ⟨p, hp, heq⟩ := List.mem_map.1 hruns
          rw [hfilling.sound.running_eq] at hp
          exact (hfilling.awaits.perm hperm).not_placed
            (heq ▸ List.mem_map_of_mem (List.mem_filter.1 hp).1)
        cases hplace : s.place task (noted task beside (ListScheduler.checked task r)) with
        | failed fault r'' =>
          rw [hplace] at hdone
          cases hdone
        | done value r'' =>
          simp only [hplace] at hdone
          obtain rfl := (Outcome.done.inj hdone).2
          obtain ⟨-, -, hrunning, -, hplacements, -⟩ := core_eq_iff.1 hcore
          obtain ⟨b', hcommit, htracks⟩ :=
            (hchecked.pick task beside).commit hsound hcmx (hrunning ▸ hother) hplace
          obtain ⟨p, -, -, -, hruns, hplaced, -⟩ := place_done hplace
          simp only [hcommit]
          refine ⟨rfl, htracks, hrest, fun _ => ⟨by simp [hruns], ?_⟩, fun hfalse => ?_⟩
          · rw [hplaced, hplacements, List.length_cons]
          · cases hfalse

/-! ## Hinted tasks -/

theorem Tracks.mem_ready_iff (h : Tracks s ready r b) : s.key task ∈ b.ready ↔ task ∈ ready := by
  rw [h.ready_eq, List.mem_map_of_injective s.key_injective]

/-- What considering hinted tasks makes of a run and its board. -/
structure Prefetched (s : ListScheduler) (r : Run) (rest : List Nat) (r' : Run) (b' : Board) :
    Prop where
  tracks : Tracks s rest r' b'
  filling : Filling s rest r'
  runs : r.running ≠ [] → r'.running ≠ []
  length_le : r.placements.length ≤ r'.placements.length

/-- One of the hinted tasks, and then the others. -/
theorem Prefetched.cons {rest rest' : List Nat} {r₁ : Run} {b₁ : Board} {placed : Bool}
    (h : Considered s r rest placed r₁ b₁) (h' : Prefetched s r₁ rest' r' b') :
    Prefetched s r rest' r' b' := by
  refine ⟨h'.tracks, h'.filling, fun hruns => h'.runs ?_, Nat.le_trans ?_ h'.length_le⟩
  · cases placed with
    | true => exact (h.of_placed rfl).1
    | false => rwa [(h.of_parked rfl).1]
  · cases placed with
    | true => exact Nat.le.intro (h.of_placed rfl).2.symm
    | false => rw [(h.of_parked rfl).2]

/-- The hinted tasks that are ready are considered on the board as in the run. -/
theorem Tracks.prefetch (hg : s.graph.WellFormed) (hvalid : s.settings.validate = .ok ())
    (hcmx : s.settings.cmxSize < Word.bound) (beside : Nat) (hints : List Nat)
    (h : Tracks s ready r b) (hfilling : Filling s ready r) :
    Mirrors (fun _ => Prefetched s r (leftOver (hints.filter ready.contains).eraseDups ready))
      (s.considerBeside beside (hints.filter ready.contains).eraseDups r)
      (b.prefetch s beside hints) := by
  induction hints generalizing ready r b with
  | nil =>
    refine ⟨rfl, ?_, ?_, id, Nat.le_refl _⟩
    · exact (leftOver_nil ready).symm ▸ h
    · exact (leftOver_nil ready).symm ▸ hfilling
  | cons hinted hints ih =>
    have hnodup : ready.Nodup := (List.nodup_append.1 hfilling.awaits.nodup).2.1
    unfold Board.prefetch
    by_cases hmem : hinted ∈ ready
    · have hend := h.consider hg hvalid hcmx hfilling hmem (some beside)
      rw [if_pos (h.mem_ready_iff.2 hmem), filter_eraseDups_cons hnodup hmem, leftOver_cons hnodup,
        considerBeside]
      cases hconsider : s.consider hinted (some beside) r with
      | failed fault r₁ =>
        rw [hconsider] at hend
        obtain ⟨b₁, hboard, hagrees⟩ := hend.exists_failed
        simp only [hboard]
        exact ⟨rfl, hagrees⟩
      | done placed r₁ =>
        rw [hconsider] at hend
        obtain ⟨b₁, hboard, hconsidered⟩ := hend.exists_done
        simp only [hboard]
        have hrest := ih hconsidered.tracks hconsidered.filling
        cases hdone : s.considerBeside beside
            (hints.filter (ready.erase hinted).contains).eraseDups r₁ with
        | failed fault r₂ =>
          rw [hdone] at hrest
          obtain ⟨b₂, hboard₂, hagrees⟩ := hrest.exists_failed
          rw [hboard₂]
          exact ⟨rfl, hagrees⟩
        | done value r₂ =>
          rw [hdone] at hrest
          obtain ⟨b₂, hboard₂, hprefetched⟩ := hrest.exists_done
          rw [hboard₂]
          exact ⟨rfl, .cons hconsidered hprefetched⟩
    · rw [if_neg fun hkey => hmem (h.mem_ready_iff.1 hkey),
        List.filter_cons_of_neg (by simpa using hmem)]
      exact ih h hfilling

end Board

end TaskLoom.ListScheduler
