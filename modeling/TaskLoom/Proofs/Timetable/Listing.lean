import TaskLoom.Proofs.Timetable.Placing
import TaskLoom.Proofs.Timetable.Times

/-!
# Filling a step of a timetable

A run of the list scheduler is *sound* if the memory and the slots that are taken
are exactly what the tasks of the current step hold, every step so far fits the
hardware, and every task placed so far comes after its predecessors.  Considering a
task keeps a run sound, whether the task is placed or set aside.  Ranks, hints and
the states of tasks play no part in this.

As long as nothing runs, the hardware is empty.  So a task that is set aside then
does not fit the hardware even alone.

## Main results

* `stepFits_of_holds` — a step fits the hardware if allocator and barriers hold it.
* `check_spec`, `place_spec`, `consider_spec` — what becomes of one task.
* `fill_spec` — filling a step places every ready task or sets it aside.
-/

namespace TaskLoom

/-! ## Steps that fit the hardware -/

/-- The scratch ranges that placements hold. -/
def liveRanges (placements : List Placement) : List ByteRange :=
  placements.flatMap fun p => p.held.map Interval.range

/-- The placements of one step share no scratch memory, stay within it, and take no
more slots of a barrier than it has. -/
structure StepFits (settings : Settings) (placements : List Placement) : Prop where
  apart : (liveRanges placements).Pairwise ByteRange.Apart
  within : ∀ r ∈ liveRanges placements, r.Solid ∧ r.stop ≤ settings.cmxSize
  slots_le : ∀ b, Word.total ((placements.filter (·.barrier == some b)).map (·.slots)) ≤
    settings.slotsPerBarrier

theorem stepFits_nil (settings : Settings) : StepFits settings [] :=
  ⟨.nil, by simp [liveRanges], by simp⟩

theorem StepFits.perm {settings : Settings} {ps qs : List Placement} (h : StepFits settings ps)
    (hperm : ps.Perm qs) : StepFits settings qs := by
  have hlive : (liveRanges ps).Perm (liveRanges qs) := hperm.flatMap_right _
  refine ⟨?_, ?_, ?_⟩
  · exact (hlive.pairwise_iff fun hab => ByteRange.Apart.symm hab).1 h.apart
  · intro r hr
    exact h.within r (hlive.mem_iff.2 hr)
  · intro b
    rw [← Word.total_perm ((hperm.filter (·.barrier == some b)).map (·.slots))]
    exact h.slots_le b

/-- The slots that placements hold on one barrier. -/
theorem slotsOn_filterMap_holding (ps : List Placement) (b : BarrierId) :
    Holdings.slotsOn (ps.filterMap Placement.holding?) b.number =
      Word.total ((ps.filter (·.barrier == some b)).map (·.slots)) := by
  induction ps with
  | nil => rfl
  | cons p ps ih =>
    cases hbarrier : p.barrier with
    | none =>
      have hholding : p.holding? = none := by
        simp [Placement.holding?, ListScheduler.Run.holding, hbarrier]
      rw [List.filterMap_cons_none hholding, ih, List.filter_cons_of_neg (by simp [hbarrier])]
    | some c =>
      have hholding : p.holding? = some (p.task, ⟨c, p.slots⟩) := by
        simp [Placement.holding?, ListScheduler.Run.holding, hbarrier]
      rw [List.filterMap_cons_some hholding, Holdings.slotsOn_cons, ih]
      by_cases heq : c = b
      · subst heq
        simp [hbarrier]
      · have hne : c.number ≠ b.number := by
          intro hnumber
          exact heq (by cases c; cases b; simpa using hnumber)
        simp [hbarrier, heq, hne]

/-- A step fits if the allocator and the barriers hold it. -/
theorem stepFits_of_holds {settings : Settings} {ps : List Placement} {m : FirstFit}
    {h : Holdings} {limit : Nat} (hm : m.Holds (liveRanges ps))
    (hcapacity : m.capacity = settings.cmxSize) (hb : h.Balanced limit)
    (hheld : h.held.Perm (ps.filterMap Placement.holding?))
    (hslots : h.pool.maxSlots = settings.slotsPerBarrier) : StepFits settings ps := by
  refine ⟨hm.apart, ?_, ?_⟩
  · intro r hr
    exact ⟨hm.solid r hr, hcapacity ▸ hm.stop_le hr⟩
  · intro b
    rw [← slotsOn_filterMap_holding, ← Holdings.slotsOn_perm hheld, ← hslots]
    exact hb.slots_le b.number

/-! ## Settings -/

theorem Settings.validate_eq_ok_iff {settings : Settings} :
    settings.validate = .ok () ↔ 0 < settings.cmxSize ∧ 0 < settings.barrierCount ∧
      0 < settings.slotsPerBarrier ∧ isPowerOfTwo settings.alignment = true := by
  unfold Settings.validate Settings.defect?
  by_cases hcmx : settings.cmxSize = 0
  · simp [hcmx]
  by_cases hbarriers : settings.barrierCount = 0
  · simp [hcmx, hbarriers]
  by_cases hslots : settings.slotsPerBarrier = 0
  · simp [hcmx, hbarriers, hslots]
  by_cases halignment : isPowerOfTwo settings.alignment = true
  · simp [hcmx, hbarriers, hslots, halignment, Nat.pos_of_ne_zero]
  · simp [hcmx, hbarriers, hslots, halignment]

theorem isPowerOfTwo_pos {n : Nat} (h : isPowerOfTwo n = true) : 0 < n := by
  unfold isPowerOfTwo at h
  simp only [Bool.and_eq_true, bne_iff_ne, ne_eq] at h
  omega

/-- The bytes of scratch memory that a task is given. -/
def Task.alignedBytes (settings : Settings) (t : Task) : Nat :=
  Word.total ((t.sizesIn .cmx).map (Word.alignUp · settings.alignment))

theorem Task.alignUp_le_alignedBytes {t : Task} {size : Nat} (hsize : size ∈ t.sizesIn .cmx)
    (settings : Settings) : Word.alignUp size settings.alignment ≤ t.alignedBytes settings :=
  Word.le_total (List.mem_map.2 ⟨size, hsize, rfl⟩)

/-- The task fits the hardware when nothing else runs. -/
def Task.FitsAlone (settings : Settings) (t : Task) : Prop :=
  t.alignedBytes settings ≤ settings.cmxSize ∧ t.demand ≤ settings.slotsPerBarrier

instance (settings : Settings) (t : Task) : Decidable (t.FitsAlone settings) :=
  inferInstanceAs (Decidable (_ ∧ _))

namespace ListScheduler

open Timetable (placedAt)

/-- What the input of a scheduler promises: a graph whose edges join its tasks, valid
settings, and sizes that still fit a word when they are rounded up. -/
structure Prepared (s : ListScheduler) : Prop where
  wellFormed : s.graph.WellFormed
  valid : s.settings.validate = .ok ()
  slots_lt : s.settings.slotsPerBarrier < Word.bound
  sizes_lt : ∀ id ∈ s.graph.ids, ∀ size ∈ (s.graph.task id).sizesIn .cmx,
    Word.alignUp size s.settings.alignment < Word.bound

variable {s : ListScheduler} {r r' : Run}

theorem Prepared.requests_lt (hs : s.Prepared) {task : Nat} (htask : task ∈ s.graph.ids) :
    ∀ size ∈ (s.graph.task task).requests.map (·.2),
      Word.alignUp size s.settings.alignment < Word.bound := fun size hsize =>
  hs.sizes_lt task htask size ((Task.sizes_requests _).mem_iff.1 hsize)

/-! ## Sound runs -/

/-- What is taken is what the current step holds, every step fits, and every task
comes after its predecessors. -/
structure Sound (s : ListScheduler) (r : Run) : Prop where
  memory : r.memory.Holds (liveRanges r.running)
  capacity_eq : r.memory.capacity = s.settings.cmxSize
  alignment_eq : r.memory.alignment = s.settings.alignment
  barriers : r.barriers.Balanced s.graph.posters.length
  held_perm : r.barriers.held.Perm (r.running.filterMap Placement.holding?)
  count_eq : r.barriers.pool.count = s.settings.barrierCount
  slots_eq : r.barriers.pool.maxSlots = s.settings.slotsPerBarrier
  running_eq : r.running = placedAt r.placements r.time
  time_le : ∀ p ∈ r.placements, p.time ≤ r.time
  task_mem : ∀ p ∈ r.placements, p.task ∈ s.graph.ids
  retired_size : r.retired.size = s.graph.tasks.size
  retired_iff : ∀ id, r.retired.getD id false = true ↔
    ∃ p ∈ r.placements, p.task = id ∧ p.time < r.time
  fits : ∀ p ∈ r.placements, p.Fits s.settings (s.graph.task p.task)
  steps : ∀ time, StepFits s.settings (placedAt r.placements time)
  predecessors : ∀ p ∈ r.placements, ∀ u, s.graph.Joins u p.task →
    ∃ q ∈ r.placements, q.task = u ∧ q.time < p.time

/-- The part of a run that soundness looks at. -/
def core (r : Run) : FirstFit × Holdings × List Placement × Array Bool × List Placement × Nat :=
  (r.memory, r.barriers, r.running, r.retired, r.placements, r.time)

theorem core_eq_iff : core r' = core r ↔ r'.memory = r.memory ∧ r'.barriers = r.barriers ∧
    r'.running = r.running ∧ r'.retired = r.retired ∧ r'.placements = r.placements ∧
    r'.time = r.time := by
  simp only [core, Prod.mk.injEq]

/-- The states of tasks, the checks and the events play no part. -/
theorem Sound.of_core (h : Sound s r) (hcore : core r' = core r) : Sound s r' := by
  obtain ⟨memory, barriers, running, deferred, retired, placements, time, states, checks,
    events⟩ := r
  obtain ⟨memory', barriers', running', deferred', retired', placements', time', states', checks',
    events'⟩ := r'
  obtain ⟨rfl, rfl, rfl, rfl, rfl, rfl⟩ := core_eq_iff.1 hcore
  exact ⟨h.memory, h.capacity_eq, h.alignment_eq, h.barriers, h.held_perm, h.count_eq, h.slots_eq,
    h.running_eq, h.time_le, h.task_mem, h.retired_size, h.retired_iff, h.fits, h.steps,
    h.predecessors⟩

/-- Tasks that wait to be considered: none is placed or set aside yet, and all their
predecessors have finished. -/
structure Awaits (s : ListScheduler) (r : Run) (tasks : List Nat) : Prop where
  nodup : (r.placements.map (·.task) ++ r.deferred ++ tasks).Nodup
  mem_ids : ∀ task ∈ tasks, task ∈ s.graph.ids
  ready : ∀ task ∈ tasks, ∀ u, s.graph.Joins u task →
    ∃ q ∈ r.placements, q.task = u ∧ q.time < r.time

theorem Awaits.perm {tasks tasks' : List Nat} (h : Awaits s r tasks) (hperm : tasks.Perm tasks') :
    Awaits s r tasks' :=
  ⟨(hperm.append_left _).nodup_iff.1 h.nodup,
    fun task htask => h.mem_ids task (hperm.mem_iff.2 htask),
    fun task htask => h.ready task (hperm.mem_iff.2 htask)⟩

theorem Awaits.of_core {tasks : List Nat} (h : Awaits s r tasks) (hcore : core r' = core r)
    (hdeferred : r'.deferred = r.deferred) : Awaits s r' tasks := by
  obtain ⟨-, -, -, -, hplacements, htime⟩ := core_eq_iff.1 hcore
  refine ⟨?_, h.mem_ids, ?_⟩
  · rw [hplacements, hdeferred]
    exact h.nodup
  · rw [hplacements, htime]
    exact h.ready

theorem Awaits.nodup_placements {tasks : List Nat} (h : Awaits s r tasks) :
    (r.placements.map (·.task)).Nodup :=
  (List.nodup_append.1 (List.nodup_append.1 h.nodup).1).1

theorem Awaits.not_placed {task : Nat} {rest : List Nat} (h : Awaits s r (task :: rest)) :
    task ∉ r.placements.map (·.task) := by
  intro hmem
  have hdisjoint := (List.nodup_append.1 h.nodup).2.2
  exact hdisjoint task (List.mem_append_left _ hmem) task List.mem_cons_self rfl

/-- Who holds slots was placed, and posts a barrier. -/
theorem Sound.exists_of_held (h : Sound s r) {x : Nat × Holding} (hx : x ∈ r.barriers.held) :
    ∃ p ∈ r.placements, p.task = x.1 ∧ 0 < (s.graph.task x.1).demand := by
  obtain ⟨p, hp, hholding⟩ := List.mem_filterMap.1 (h.held_perm.mem_iff.1 hx)
  obtain ⟨b, hbarrier, rfl⟩ := Option.map_eq_some_iff.1 hholding
  rw [h.running_eq] at hp
  have hplaced : p ∈ r.placements := (List.mem_filter.1 hp).1
  refine ⟨p, hplaced, rfl, (h.fits p hplaced).barrier_iff.1 ?_⟩
  rw [hbarrier]
  rfl

/-- A task that is not placed holds no slots. -/
theorem Sound.not_held (h : Sound s r) {task : Nat} (htask : task ∉ r.placements.map (·.task)) :
    task ∉ r.barriers.held.map (·.1) := by
  intro hmem
  obtain ⟨x, hx, rfl⟩ := List.mem_map.1 hmem
  obtain ⟨p, hp, heq, -⟩ := h.exists_of_held hx
  exact htask (heq ▸ List.mem_map_of_mem hp)

/-- As long as a task that posts is not placed, fewer tasks hold slots than post. -/
theorem Sound.held_length_lt (h : Sound s r) {task : Nat} {rest : List Nat}
    (hawaits : Awaits s r (task :: rest)) (hposts : 0 < (s.graph.task task).demand) :
    r.barriers.held.length < s.graph.posters.length := by
  have hnodup : (task :: r.barriers.held.map (·.1)).Nodup :=
    List.nodup_cons.2 ⟨h.not_held hawaits.not_placed, h.barriers.nodup⟩
  have hsub : task :: r.barriers.held.map (·.1) ⊆ s.graph.posters := by
    intro id hid
    rw [TaskGraph.posters, List.mem_filter, decide_eq_true_eq]
    rcases List.mem_cons.1 hid with rfl | hid
    · exact ⟨hawaits.mem_ids _ List.mem_cons_self, hposts⟩
    · obtain ⟨x, hx, rfl⟩ := List.mem_map.1 hid
      obtain ⟨p, hp, heq, hdemand⟩ := h.exists_of_held hx
      exact ⟨heq ▸ h.task_mem p hp, hdemand⟩
  have hle := (hnodup.subperm hsub).length_le
  rw [List.length_cons, List.length_map] at hle
  exact hle

/-! ## One task -/

/-- A task joins the current step. -/
theorem Sound.add (h : Sound s r) {p : Placement} {memory : FirstFit} {barriers : Holdings}
    (htime : p.time = r.time) (htask : p.task ∈ s.graph.ids)
    (hfits : p.Fits s.settings (s.graph.task p.task))
    (hready : ∀ u, s.graph.Joins u p.task → ∃ q ∈ r.placements, q.task = u ∧ q.time < r.time)
    (hmemory : memory.Holds (liveRanges (p :: r.running)))
    (hcapacity : memory.capacity = s.settings.cmxSize)
    (halignment : memory.alignment = s.settings.alignment)
    (hbarriers : barriers.Balanced s.graph.posters.length)
    (hheld : barriers.held.Perm ((p :: r.running).filterMap Placement.holding?))
    (hcount : barriers.pool.count = s.settings.barrierCount)
    (hslots : barriers.pool.maxSlots = s.settings.slotsPerBarrier) :
    Sound s { r with
      memory, barriers, running := p :: r.running, placements := p :: r.placements } := by
  have hplaced : ∀ time, placedAt (p :: r.placements) time =
      if p.time = time then p :: placedAt r.placements time else placedAt r.placements time := by
    intro time
    unfold placedAt
    by_cases heq : p.time = time <;> simp [heq]
  refine ⟨hmemory, hcapacity, halignment, hbarriers, hheld, hcount, hslots, ?_, ?_, ?_,
    h.retired_size, ?_, ?_, ?_, ?_⟩
  · rw [hplaced, if_pos htime, h.running_eq]
  · exact List.forall_mem_cons.2 ⟨Nat.le_of_eq htime, h.time_le⟩
  · exact List.forall_mem_cons.2 ⟨htask, h.task_mem⟩
  · intro id
    rw [h.retired_iff id, List.exists_mem_cons_iff]
    have hnow : ¬ (p.task = id ∧ p.time < r.time) := by omega
    simp only [hnow, false_or]
  · exact List.forall_mem_cons.2 ⟨hfits, h.fits⟩
  · intro time
    show StepFits s.settings (placedAt (p :: r.placements) time)
    rw [hplaced]
    split
    · next heq =>
      rw [show time = r.time by omega, ← h.running_eq]
      exact stepFits_of_holds hmemory hcapacity hbarriers hheld hslots
    · exact h.steps time
  · refine List.forall_mem_cons.2 ⟨?_, ?_⟩
    · intro u hu
      obtain ⟨q, hq, hqu, hlt⟩ := hready u hu
      exact ⟨q, List.mem_cons_of_mem p hq, hqu, by omega⟩
    · intro q hq u hu
      obtain ⟨x, hx, hxu⟩ := h.predecessors q hq u hu
      exact ⟨x, List.mem_cons_of_mem p hx, hxu⟩

/-- What a task needs is free. -/
def HasRoom (s : ListScheduler) (r : Run) (task : Nat) : Prop :=
  ((s.graph.task task).demand = 0 ∨ r.barriers.hasRoom (s.graph.task task).demand = true) ∧
    r.memory.canReserve ((s.graph.task task).requests.map (·.2)) = .ok true

theorem HasRoom.of_core {task : Nat} (h : HasRoom s r task) (hcore : core r' = core r) :
    HasRoom s r' task := by
  obtain ⟨hmemory, hbarriers, -⟩ := core_eq_iff.1 hcore
  unfold HasRoom
  rw [hmemory, hbarriers]
  exact h

/-- The check finds out whether what a task needs is free. -/
theorem check_spec (hs : s.Prepared) (h : Sound s r) {task : Nat} (htask : task ∈ s.graph.ids) :
    ∃ fits r', s.check task r = .done fits r' ∧ core r' = core r ∧ r'.deferred = r.deferred ∧
      (fits = true ↔ HasRoom s r task) := by
  obtain ⟨served, hserved⟩ := FirstFit.serveAll_ok r.memory
    (h.alignment_eq ▸ hs.requests_lt htask) (r.memory.free.map ByteRange.length)
  have hcan : r.memory.canReserve ((s.graph.task task).requests.map (·.2)) = .ok served := hserved
  unfold check HasRoom
  by_cases hroom : (s.graph.task task).demand = 0 ∨
      r.barriers.hasRoom (s.graph.task task).demand = true
  · refine ⟨served, { r.enter task .pending with checks := r.checks + 1 }, ?_, rfl, rfl, ?_⟩
    · have hcond : ((s.graph.task task).demand = 0 || r.barriers.hasRoom
          (s.graph.task task).demand) = true := by simpa using hroom
      simp only [Run.enter, Run.record, hcond, if_true, hcan]
    · simp [hroom, hcan]
  · refine ⟨false, { r.enter task .pending with checks := r.checks + 1 }, ?_, rfl, rfl, ?_⟩
    · have hcond : ((s.graph.task task).demand = 0 || r.barriers.hasRoom
          (s.graph.task task).demand) = false := by simpa using hroom
      simp only [Run.enter, Run.record, hcond, Bool.false_eq_true, if_false]
    · simp [hroom]

/-- A task for which there is room joins the tasks that run. -/
theorem place_spec (hg : s.graph.WellFormed) (h : Sound s r) {task : Nat} {rest : List Nat}
    (hawaits : Awaits s r (task :: rest)) (hroom : HasRoom s r task) :
    ∃ p r', s.place task r = .done () r' ∧ Sound s r' ∧ p.task = task ∧
      r'.placements = p :: r.placements ∧ r'.running = p :: r.running ∧
      r'.deferred = r.deferred ∧ r'.time = r.time := by
  have htask := hawaits.mem_ids task List.mem_cons_self
  obtain ⟨ranges, memory, hreserve, hserves, hholds, hcapacity, halignment⟩ :=
    Run.reserveAll_spec h.memory (FirstFit.filter_map_length h.memory.canonical) hroom.2
  obtain ⟨barrier, barriers, htake, hbalanced, hbarrier, hheld, hmax, hcount⟩ :=
    Run.takeSlots_spec h.barriers (h.not_held hawaits.not_placed) hroom.1
      (h.held_length_lt hawaits) hg.posters_lt
  let p : Placement := ⟨task, r.time, barrier, (s.graph.task task).demand, ranges⟩
  have hnumber : ∀ b, barrier = some b → 1 ≤ b.number ∧ b.number ≤ s.settings.barrierCount := by
    rintro b rfl
    have hmem : (task, (⟨b, (s.graph.task task).demand⟩ : Holding)) ∈ barriers.held := by
      rw [hheld]
      exact List.mem_append_left _ List.mem_cons_self
    rw [← h.count_eq, ← hcount]
    exact hbalanced.number_mem hmem
  have hfits : p.Fits s.settings (s.graph.task p.task) :=
    .of_serves rfl hbarrier hnumber (h.alignment_eq ▸ hserves)
  have hperm : barriers.held.Perm ((p :: r.running).filterMap Placement.holding?) := by
    have hcons : (p :: r.running).filterMap Placement.holding? =
        (Run.holding task (s.graph.task task).demand barrier).toList ++
          r.running.filterMap Placement.holding? := by
      cases barrier <;> rfl
    rw [hheld, hcons]
    exact h.held_perm.append_left _
  have hsound := h.add rfl htask hfits (hawaits.ready task List.mem_cons_self) hholds
    (hcapacity.trans h.capacity_eq) (halignment.trans h.alignment_eq) hbalanced hperm
    (hcount.trans h.count_eq) (hmax.trans h.slots_eq)
  refine ⟨p, { (r.record (.placed task r.time barrier memory.used)).enter task .scheduled with
    memory, barriers, running := p :: r.running, placements := p :: r.placements },
    ?_, hsound.of_core rfl, rfl, rfl, rfl, rfl, rfl⟩
  simp only [place, hreserve, htake]
  rfl

/-- With nothing running, there is room for what fits the hardware alone. -/
theorem Sound.hasRoom_of_fitsAlone (h : Sound s r) (hs : s.Prepared) {task : Nat}
    (htask : task ∈ s.graph.ids) (hidle : r.running = [])
    (hfits : (s.graph.task task).FitsAlone s.settings) :
    HasRoom s r task := by
  obtain ⟨hcmx, hbarriers, -, -⟩ := Settings.validate_eq_ok_iff.1 hs.valid
  have hempty : r.memory.Holds [] := by
    have hholds := h.memory
    rwa [hidle] at hholds
  have hnone : r.barriers.held = [] := by
    have hperm := h.held_perm
    rw [hidle] at hperm
    exact hperm.eq_nil
  refine ⟨Or.inr ?_, ?_⟩
  · rw [h.barriers.hasRoom_empty hnone (by rw [h.count_eq]; exact hbarriers), h.slots_eq]
    exact hfits.2
  · rw [hempty.canReserve_empty (by rw [h.capacity_eq]; exact hcmx)
      (h.alignment_eq ▸ hs.requests_lt htask), h.capacity_eq, h.alignment_eq]
    have htotal := Word.total_perm
      ((Task.sizes_requests (s.graph.task task)).map (Word.alignUp · s.settings.alignment))
    rw [htotal]
    exact congrArg Except.ok (decide_eq_true hfits.1)

/-! ## One step -/

/-- What considering tasks makes of a run: each of them is placed or set aside.  As
long as nothing runs, what is set aside does not fit the hardware alone. -/
structure Fills (s : ListScheduler) (tasks : List Nat) (r r' : Run) : Prop where
  sound : Sound s r'
  perm : (r'.placements.map (·.task) ++ r'.deferred).Perm
    (r.placements.map (·.task) ++ r.deferred ++ tasks)
  keeps : ∀ p ∈ r.placements, p ∈ r'.placements
  time_eq : r'.time = r.time
  runs : r.running ≠ [] → r'.running ≠ []
  sets_aside : ∀ d ∈ r.deferred, d ∈ r'.deferred
  settles : tasks ≠ [] → r'.running ≠ [] ∨ r'.deferred ≠ []
  unfit : r'.running = [] → ∀ d ∈ r'.deferred,
    d ∈ r.deferred ∨ ¬ (s.graph.task d).FitsAlone s.settings
  places_now : ∀ p ∈ r'.placements, p ∈ r.placements ∨ p.time = r.time

theorem Fills.refl (h : Sound s r) : Fills s [] r r :=
  ⟨h, by rw [List.append_nil], fun _ hp => hp, rfl, fun hne => hne, fun _ hd => hd,
    fun hne => absurd rfl hne, fun _ _ hd => Or.inl hd, fun _ hp => Or.inl hp⟩

theorem Fills.trans {r'' : Run} {tasks tasks' : List Nat} (h : Fills s tasks r r')
    (h' : Fills s tasks' r' r'') : Fills s (tasks ++ tasks') r r'' := by
  refine ⟨h'.sound, ?_, fun p hp => h'.keeps p (h.keeps p hp), h'.time_eq.trans h.time_eq,
    fun hne => h'.runs (h.runs hne), fun d hd => h'.sets_aside d (h.sets_aside d hd), ?_, ?_, ?_⟩
  · rw [← List.append_assoc]
    exact h'.perm.trans (h.perm.append_right tasks')
  · intro hne
    by_cases htasks : tasks = []
    · subst htasks
      exact h'.settles hne
    · refine (h.settles htasks).imp h'.runs fun hdeferred => ?_
      obtain ⟨d, hd⟩ := List.exists_mem_of_ne_nil _ hdeferred
      exact List.ne_nil_of_mem (h'.sets_aside d hd)
  · intro hidle d hd
    have hidle' : r'.running = [] := by
      by_contra hne
      exact h'.runs hne hidle
    rcases h'.unfit hidle d hd with hd | hd
    · exact h.unfit hidle' d hd
    · exact Or.inr hd
  · intro p hp
    rcases h'.places_now p hp with hp | htime
    · exact h.places_now p hp
    · exact Or.inr (htime.trans h.time_eq)

theorem Fills.perm_tasks {tasks tasks' : List Nat} (h : Fills s tasks r r')
    (hperm : tasks.Perm tasks') : Fills s tasks' r r' :=
  ⟨h.sound, h.perm.trans (hperm.append_left _), h.keeps, h.time_eq, h.runs, h.sets_aside,
    fun hne => h.settles fun hnil => hne (by rw [hnil] at hperm; exact hperm.symm.eq_nil), h.unfit,
    h.places_now⟩

/-- What was recorded before plays no part. -/
theorem Fills.of_core {r'' : Run} {tasks : List Nat} (h : Fills s tasks r' r'')
    (hcore : core r' = core r) (hdeferred : r'.deferred = r.deferred) : Fills s tasks r r'' := by
  obtain ⟨-, -, hrunning, -, hplacements, htime⟩ := core_eq_iff.1 hcore
  obtain ⟨hsound, hperm, hkeeps, htime', hruns, haside, hsettles, hunfit, hnow⟩ := h
  rw [hplacements, hdeferred] at hperm
  rw [hplacements] at hkeeps
  rw [hrunning] at hruns
  rw [hdeferred] at haside hunfit
  rw [hplacements, htime] at hnow
  exact ⟨hsound, hperm, hkeeps, htime'.trans htime, hruns, haside, hsettles, hunfit, hnow⟩

/-- The other tasks go on waiting. -/
theorem Awaits.after {tasks rest : List Nat} (h : Awaits s r (tasks ++ rest))
    (hfills : Fills s tasks r r') : Awaits s r' rest := by
  refine ⟨?_, fun task htask => h.mem_ids task (List.mem_append_right _ htask), ?_⟩
  · have hnodup := h.nodup
    rw [← List.append_assoc] at hnodup
    exact (hfills.perm.append_right rest).nodup_iff.2 hnodup
  · intro task htask u hu
    obtain ⟨q, hq, hqu, hlt⟩ := h.ready task (List.mem_append_right _ htask) u hu
    exact ⟨q, hfills.keeps q hq, hqu, by rw [hfills.time_eq]; exact hlt⟩

/-- Only tasks that were considered are set aside. -/
theorem Fills.mem_of_mem_deferred {tasks : List Nat} (h : Fills s tasks r r')
    (hawaits : Awaits s r tasks) {d : Nat} (hd : d ∈ r'.deferred) :
    d ∈ r.deferred ∨ d ∈ tasks := by
  have hnodup := h.perm.nodup_iff.2 hawaits.nodup
  have hmem := h.perm.mem_iff.1 (List.mem_append_right _ hd)
  rw [List.append_assoc] at hmem
  rcases List.mem_append.1 hmem with hplaced | hmem
  · obtain ⟨q, hq, rfl⟩ := List.mem_map.1 hplaced
    have hq' := List.mem_map_of_mem (f := (·.task)) (h.keeps q hq)
    exact absurd rfl ((List.nodup_append.1 hnodup).2.2 q.task hq' q.task hd)
  · exact List.mem_append.1 hmem

/-- A task is set aside that does not fit the hardware alone, or while others run. -/
theorem fills_setAside (h : Sound s r) {task : Nat}
    (hunfit : r.running = [] → ¬ (s.graph.task task).FitsAlone s.settings) :
    Fills s [task] r (setAside task r) where
  sound := h.of_core rfl
  perm := by
    show (r.placements.map (·.task) ++ task :: r.deferred).Perm _
    rw [List.append_assoc]
    exact (List.perm_append_singleton task r.deferred).symm.append_left _
  keeps _ hp := hp
  time_eq := rfl
  runs hne := hne
  sets_aside _ hd := List.mem_cons_of_mem task hd
  settles _ := Or.inr (List.cons_ne_nil _ _)
  unfit hidle d hd := by
    rcases List.mem_cons.1 hd with rfl | hd
    · exact Or.inr (hunfit hidle)
    · exact Or.inl hd
  places_now _ hp := Or.inl hp

/-- A task for which there is room is placed. -/
theorem fills_place (hg : s.graph.WellFormed) (h : Sound s r) {task : Nat} {rest : List Nat}
    (hawaits : Awaits s r (task :: rest)) (hroom : HasRoom s r task) :
    ∃ r', s.place task r = .done () r' ∧ Fills s [task] r r' := by
  obtain ⟨p, r', hdone, hsound, hptask, hplacements, hrunning, hdeferred, htime⟩ :=
    place_spec hg h hawaits hroom
  have hruns : r'.running ≠ [] := by
    rw [hrunning]
    exact List.cons_ne_nil _ _
  refine ⟨r', hdone, hsound, ?_, ?_, htime, fun _ => hruns, ?_, fun _ => Or.inl hruns,
    fun hidle => absurd hidle hruns, ?_⟩
  · rw [hplacements, hdeferred, List.map_cons, hptask]
    exact (List.perm_append_singleton task _).symm
  · intro q hq
    rw [hplacements]
    exact List.mem_cons_of_mem p hq
  · intro d hd
    rw [hdeferred]
    exact hd
  · intro q hq
    rw [hplacements] at hq
    rcases List.mem_cons.1 hq with rfl | hq
    · have hrun : q ∈ r'.running := by
        rw [hrunning]
        exact List.mem_cons_self
      rw [hsound.running_eq] at hrun
      exact Or.inr ((beq_iff_eq.1 (List.mem_filter.1 hrun).2).trans htime)
    · exact Or.inl hq

/-- Considering a task places it or sets it aside. -/
theorem consider_spec (hs : s.Prepared) (h : Sound s r) {task : Nat} {rest : List Nat}
    (hawaits : Awaits s r (task :: rest)) (beside : Option Nat) :
    ∃ placed r', s.consider task beside r = .done placed r' ∧ Fills s [task] r r' := by
  have htask := hawaits.mem_ids task List.mem_cons_self
  obtain ⟨fits, r₁, hcheck, hcore, hdeferred, hiff⟩ := check_spec hs h htask
  unfold consider
  rw [hcheck]
  cases fits with
  | false =>
    obtain ⟨-, -, hrunning, -⟩ := core_eq_iff.1 hcore
    refine ⟨false, setAside task r₁, rfl, ?_⟩
    refine (fills_setAside (h.of_core hcore) fun hidle hfits => ?_).of_core hcore hdeferred
    rw [hrunning] at hidle
    exact Bool.false_ne_true (hiff.2 (h.hasRoom_of_fitsAlone hs htask hidle hfits))
  | true =>
    -- recording the hint changes nothing that placing looks at
    have hplace : ∀ r₂ : Run, core r₂ = core r → r₂.deferred = r.deferred →
        ∃ r', s.place task r₂ = .done () r' ∧ Fills s [task] r r' := by
      intro r₂ hcore₂ hdeferred₂
      obtain ⟨r', hdone, hfills⟩ := fills_place hs.wellFormed (h.of_core hcore₂)
        (hawaits.of_core hcore₂ hdeferred₂) ((hiff.1 rfl).of_core hcore₂)
      exact ⟨r', hdone, hfills.of_core hcore₂ hdeferred₂⟩
    cases beside with
    | none =>
      obtain ⟨r', hdone, hfills⟩ := hplace r₁ hcore hdeferred
      exact ⟨true, r', by simp only [hdone], hfills⟩
    | some other =>
      obtain ⟨r', hdone, hfills⟩ := hplace (r₁.record (.prefetched task other)) hcore hdeferred
      exact ⟨true, r', by simp only [hdone], hfills⟩

/-- Considering hinted tasks places each of them or sets it aside. -/
theorem considerBeside_spec (hs : s.Prepared) (beside : Nat) (tasks : List Nat) (h : Sound s r)
    {rest : List Nat} (hawaits : Awaits s r (tasks ++ rest)) :
    ∃ r', s.considerBeside beside tasks r = .done () r' ∧ Fills s tasks r r' := by
  induction tasks generalizing r with
  | nil => exact ⟨r, rfl, .refl h⟩
  | cons task tasks ih =>
    obtain ⟨placed, r₁, hconsider, hfills⟩ := consider_spec hs h hawaits (some beside)
    have hawaits₁ : Awaits s r₁ (tasks ++ rest) := Awaits.after hawaits hfills
    obtain ⟨r', hbeside, hfills'⟩ := ih hfills.sound hawaits₁
    exact ⟨r', by simp only [considerBeside, hconsider, hbeside], hfills.trans hfills'⟩

theorem nodup_eraseDups (tasks : List Nat) : tasks.eraseDups.Nodup := by
  induction hlength : tasks.length using Nat.strongRecOn generalizing tasks with
  | ind length ih =>
    cases tasks with
    | nil => simp
    | cons task rest =>
      rw [List.eraseDups_cons]
      refine List.nodup_cons.2 ⟨by simp, ih _ ?_ _ rfl⟩
      rw [← hlength]
      exact Nat.lt_succ_of_le (List.length_filter_le _ _)

/-- Hinted tasks that are ready, and the ready tasks that were not hinted. -/
theorem perm_append_leftOver {hinted ready : List Nat} (hready : ready.Nodup) :
    ready.Perm ((hinted.filter ready.contains).eraseDups ++
      leftOver (hinted.filter ready.contains).eraseDups ready) := by
  have hnodup : (hinted.filter ready.contains).eraseDups.Nodup := nodup_eraseDups _
  refine (List.perm_ext_iff_of_nodup hready ?_).2 ?_
  · refine List.nodup_append.2 ⟨hnodup, hready.filter _, ?_⟩
    rintro a ha b hb rfl
    have hnot := (List.mem_filter.1 hb).2
    simp [List.contains_eq_mem] at hnot ha
    tauto
  · intro a
    simp only [List.mem_append, leftOver, List.mem_filter, List.mem_eraseDups,
      List.contains_eq_mem, decide_eq_true_eq, Bool.not_eq_true', decide_eq_false_iff_not]
    tauto

/-- Filling a step places every ready task or sets it aside. -/
theorem fill_spec (hs : s.Prepared) (ready : List Nat) (h : Sound s r)
    (hawaits : Awaits s r ready) :
    ∃ r', s.fill ready r = .done () r' ∧ Fills s ready r r' := by
  induction hlength : ready.length using Nat.strongRecOn generalizing ready r with
  | ind length ih =>
    cases ready with
    | nil => exact ⟨r, by rw [fill], .refl h⟩
    | cons task rest =>
      obtain ⟨placed, r₁, hconsider, hfills⟩ := consider_spec hs h hawaits none
      have hawaits₁ : Awaits s r₁ rest :=
        @Awaits.after s r r₁ [task] rest hawaits hfills
      rw [fill, hconsider]
      cases placed with
      | false =>
        obtain ⟨r', hfill, hfills'⟩ := ih rest.length (by rw [← hlength]; exact Nat.lt_succ_self _)
          rest hfills.sound hawaits₁ rfl
        exact ⟨r', hfill, hfills.trans hfills'⟩
      | true =>
        have hnodup : rest.Nodup := (List.nodup_append.1 hawaits₁.nodup).2.1
        have hperm := @perm_append_leftOver (s.hints.beside task) rest hnodup
        obtain ⟨r₂, hbeside, hfills₂⟩ := considerBeside_spec hs task _ hfills.sound
          (hawaits₁.perm hperm)
        have hshorter := length_leftOver_le
          ((s.hints.beside task).filter rest.contains).eraseDups rest
        obtain ⟨r', hfill, hfills'⟩ := ih _ (by rw [← hlength]; exact Nat.lt_succ_of_le hshorter)
          _ hfills₂.sound ((hawaits₁.perm hperm).after hfills₂) rfl
        refine ⟨r', ?_, (hfills.trans (hfills₂.trans hfills')).perm_tasks (hperm.symm.cons task)⟩
        simp only [hbeside, hfill]

end ListScheduler

end TaskLoom
