import TaskLoom.Proofs.Timetable.Scarcity

/-!
# The plain list scheduler

List scheduling as one would write it first.  There is no set of deferred tasks: at every
iteration all ready tasks that are not placed are checked again, in order of rank, and the
first that fits is placed, with those hinted for it that are ready and fit as well.  Only
when no ready task fits, the tasks that run are ended.

What is ready is read off the placements, so the scheduler keeps nothing beside them and
what they hold.  It looks at a graph only through its ids, its tasks and their
predecessors.

## Main results

* `Plain.step_lt` — every iteration places a task or ends those that run.
* `Plain.loop_congr` — only what is held and placed plays a part.
* `Plain.mem_ready` — which tasks are ready.
-/

namespace TaskLoom.ListScheduler

variable {s : ListScheduler} {r r' : Run}

namespace Plain

/-! ## The scheduler -/

/-- The tasks that are not placed. -/
def unplaced (s : ListScheduler) (r : Run) : List Nat :=
  s.graph.ids.filter fun id => !r.placements.any (·.task == id)

/-- Whether a task was placed in an earlier step. -/
def finished (r : Run) (task : Nat) : Bool :=
  r.placements.any fun p => p.task == task && p.time < r.time

/-- The tasks that are not placed and whose predecessors have all finished, in order of
rank. -/
def ready (s : ListScheduler) (r : Run) : List Nat :=
  s.sortByRank ((unplaced s r).filter fun id => (s.graph.predecessors id).all (finished r))

/-- The first task of a list that fits what is free. -/
def firstFitting (s : ListScheduler) (r : Run) : List Nat → Except Fault (Option Nat)
  | [] => .ok none
  | task :: rest =>
    match s.fits r task with
    | .error fault => .error fault
    | .ok true => .ok (some task)
    | .ok false => firstFitting s r rest

/-- Places the tasks of a list that are ready and fit. -/
def placeHinted (s : ListScheduler) : List Nat → Run → Except Fault Run
  | [], r => .ok r
  | task :: rest, r =>
    if (ready s r).contains task then
      match s.fits r task with
      | .error fault => .error fault
      | .ok false => placeHinted s rest r
      | .ok true =>
        match s.place task r with
        | .failed fault _ => .error fault
        | .done () r => placeHinted s rest r
    else
      placeHinted s rest r

/-- Why nothing runs and nothing fits: the first ready task exceeds the hardware, or no
task is ready. -/
def shortfall (s : ListScheduler) (r : Run) : Fault :=
  match ready s r with
  | task :: _ =>
    match s.shortage task r.memory with
    | .ok error => .refused error
    | .error fault => fault
  | [] => .refused (.cyclic ((unplaced s r).head?.elim "" s.graph.name))

/-- One iteration: the run after it, or none when all tasks are placed and have ended. -/
def step (s : ListScheduler) (r : Run) : Except Fault (Option Run) :=
  match firstFitting s r (ready s r) with
  | .error fault => .error fault
  | .ok (some task) =>
    match s.place task r with
    | .failed fault _ => .error fault
    | .done () r => (placeHinted s (s.hints.beside task) r).map some
  | .ok none =>
    if r.running.isEmpty then
      if (unplaced s r).isEmpty then .ok none else .error (shortfall s r)
    else
      match advance r with
      | .failed fault _ => .error fault
      | .done () r => .ok (some r)

/-! ## Every iteration makes progress -/

theorem mem_unplaced {task : Nat} :
    task ∈ unplaced s r ↔ task ∈ s.graph.ids ∧ task ∉ r.placements.map (·.task) := by
  simp only [unplaced, List.mem_filter, Bool.not_eq_true', List.any_eq_false, beq_iff_eq,
    List.mem_map, not_exists, not_and]

theorem finished_iff {task : Nat} :
    finished r task = true ↔ ∃ p ∈ r.placements, p.task = task ∧ p.time < r.time := by
  simp [finished]

/-- A task is ready if it is not placed and all its predecessors have finished. -/
theorem mem_ready {task : Nat} : task ∈ ready s r ↔
    (task ∈ s.graph.ids ∧ task ∉ r.placements.map (·.task)) ∧ ∀ u, s.graph.Joins u task →
      ∃ p ∈ r.placements, p.task = u ∧ p.time < r.time := by
  unfold ready
  rw [(s.sortByRank_perm _).mem_iff, List.mem_filter, mem_unplaced, List.all_eq_true]
  simp only [TaskGraph.mem_predecessors, finished_iff]

/-- More placements leave fewer tasks. -/
theorem length_unplaced_le (h : ∀ p ∈ r.placements, p ∈ r'.placements) :
    (unplaced s r').length ≤ (unplaced s r).length := by
  unfold unplaced
  rw [← List.countP_eq_length_filter, ← List.countP_eq_length_filter]
  refine List.countP_mono_left fun id _ hid => ?_
  simp only [Bool.not_eq_true', List.any_eq_false, beq_iff_eq] at hid ⊢
  exact fun p hp => hid p (h p hp)

/-- The first task that fits is one of the list. -/
theorem mem_of_firstFitting {tasks : List Nat} {task : Nat}
    (h : firstFitting s r tasks = .ok (some task)) : task ∈ tasks := by
  induction tasks with
  | nil => cases h
  | cons first rest ih =>
    unfold firstFitting at h
    split at h
    · cases h
    · cases h
      exact List.mem_cons_self
    · exact List.mem_cons_of_mem first (ih h)

theorem placements_placeHinted {tasks : List Nat} (h : placeHinted s tasks r = .ok r') :
    ∀ p ∈ r.placements, p ∈ r'.placements := by
  fun_induction placeHinted s tasks r with
  | case1 r =>
    cases h
    exact fun _ hp => hp
  | case2 => cases h
  | case3 _ _ _ _ _ ih => exact ih h
  | case4 => cases h
  | case5 task rest r _ _ r₁ hplace ih =>
    obtain ⟨p, -, -, -, -, hplacements, -, -⟩ := place_done hplace
    intro q hq
    refine ih h q ?_
    rw [hplacements]
    exact List.mem_cons_of_mem p hq
  | case6 _ _ _ _ ih => exact ih h

theorem running_advance (h : advance r = .done () r') : r'.running = [] := by
  unfold advance at h
  split at h
  · cases h
  · cases h
    rfl

/-- Placing a task that is not placed leaves fewer tasks. -/
theorem length_unplaced_lt {task : Nat} (htask : task ∈ unplaced s r)
    (hplace : s.place task r = .done () r') :
    (unplaced s r').length < (unplaced s r).length := by
  obtain ⟨p, rfl, -, -, -, hplacements, -, -⟩ := place_done hplace
  have hsub : unplaced s r' = (unplaced s r).filter (· != p.task) := by
    unfold unplaced
    rw [List.filter_filter, hplacements]
    refine List.filter_congr fun id _ => ?_
    simp only [List.any_cons, Bool.not_or, bne, Bool.beq_comm]
  rw [hsub, List.length_filter_lt_length_iff_exists]
  exact ⟨p.task, htask, by simp⟩

/-- An iteration that does not end the run places a task, or ends those that run. -/
theorem step_lt (h : step s r = .ok (some r')) :
    Prod.Lex (· < ·) (· < ·) ((unplaced s r').length, r'.running.length)
      ((unplaced s r).length, r.running.length) := by
  unfold step at h
  split at h
  · cases h
  · next task hfirst =>
    split at h
    · cases h
    · next r₁ hplace =>
      have htask := mem_unplaced.2 (mem_ready.1 (mem_of_firstFitting hfirst)).1
      cases hhinted : placeHinted s (s.hints.beside task) r₁ with
      | error fault => simp [hhinted, Except.map] at h
      | ok r₂ =>
        simp only [hhinted, Except.map, Except.ok.injEq, Option.some.injEq] at h
        subst h
        refine Prod.Lex.left _ _ ?_
        exact Nat.lt_of_le_of_lt (length_unplaced_le (placements_placeHinted hhinted))
          (length_unplaced_lt htask hplace)
  · split at h
    · split at h <;> cases h
    · next hruns =>
      split at h
      · cases h
      · next r₁ hadvance =>
        cases h
        obtain ⟨-, hplacements, -⟩ := advance_done hadvance
        have hsame : unplaced s r' = unplaced s r := by simp only [unplaced, hplacements]
        rw [hsame, running_advance hadvance]
        refine Prod.Lex.right _ (List.length_pos_iff.2 ?_)
        simpa using hruns

end Plain

/-- Iterates until all tasks are placed and have ended. -/
def Plain.loop (s : ListScheduler) (r : Run) : Except Fault (List Placement) :=
  match _h : step s r with
  | .error fault => .error fault
  | .ok none => .ok r.placements.reverse
  | .ok (some r') => loop s r'
termination_by ((unplaced s r).length, r.running.length)
decreasing_by exact step_lt ‹_›

namespace Plain

/-- Places every task, starting with empty hardware. -/
def schedule (s : ListScheduler) : Except Fault (List Placement) :=
  match Holdings.create s.settings.barrierCount s.settings.slotsPerBarrier with
  | .error fault => .error fault
  | .ok barriers => loop s {
      memory := FirstFit.create s.settings.cmxSize s.settings.alignment
      barriers
      running := []
      deferred := []
      retired := #[]
      placements := []
      time := 0
      states := #[]
      checks := 0
      events := [] }

/-! ## What plays no part -/

/-- The part of a run that the scheduler looks at. -/
def view (r : Run) : FirstFit × Holdings × List Placement × List Placement × Nat :=
  (r.memory, r.barriers, r.running, r.placements, r.time)

theorem view_eq_iff : view r' = view r ↔ r'.memory = r.memory ∧ r'.barriers = r.barriers ∧
    r'.running = r.running ∧ r'.placements = r.placements ∧ r'.time = r.time := by
  simp only [view, Prod.mk.injEq]

/-- What is to be seen of the end of an operation. -/
def viewEnd : Outcome Run Unit →
    Except Fault (FirstFit × Holdings × List Placement × List Placement × Nat)
  | .done () r => .ok (view r)
  | .failed fault _ => .error fault

theorem viewEnd_cases {o o' : Outcome Run Unit} (h : viewEnd o' = viewEnd o) :
    (∃ fault r r', o = .failed fault r ∧ o' = .failed fault r') ∨
      ∃ r r', o = .done () r ∧ o' = .done () r' ∧ view r' = view r := by
  cases o with
  | failed fault r =>
    cases o' with
    | failed fault' r' =>
      cases h
      exact Or.inl ⟨fault, r, r', rfl, rfl⟩
    | done _ r' => cases h
  | done _ r =>
    cases o' with
    | failed fault' r' => cases h
    | done _ r' => exact Or.inr ⟨r, r', rfl, rfl, Except.ok.inj h⟩

theorem unplaced_congr (h : view r' = view r) : unplaced s r' = unplaced s r := by
  obtain ⟨-, -, -, hplacements, -⟩ := view_eq_iff.1 h
  unfold unplaced
  rw [hplacements]

theorem ready_congr (h : view r' = view r) : ready s r' = ready s r := by
  obtain ⟨-, -, -, hplacements, htime⟩ := view_eq_iff.1 h
  have hfinished : finished r' = finished r := by
    funext task
    unfold finished
    rw [hplacements, htime]
  unfold ready
  rw [unplaced_congr h, hfinished]

theorem fits_congr (h : view r' = view r) : s.fits r' = s.fits r := by
  obtain ⟨hmemory, hbarriers, -⟩ := view_eq_iff.1 h
  funext task
  unfold fits
  rw [hmemory, hbarriers]

theorem firstFitting_congr (h : view r' = view r) (tasks : List Nat) :
    firstFitting s r' tasks = firstFitting s r tasks := by
  induction tasks with
  | nil => rfl
  | cons task rest ih => rw [firstFitting, firstFitting, fits_congr h, ih]

theorem shortfall_congr (h : view r' = view r) : shortfall s r' = shortfall s r := by
  obtain ⟨hmemory, -⟩ := view_eq_iff.1 h
  unfold shortfall
  rw [ready_congr h, unplaced_congr h, hmemory]

theorem place_congr (h : view r' = view r) (task : Nat) :
    viewEnd (s.place task r') = viewEnd (s.place task r) := by
  obtain ⟨hmemory, hbarriers, hrunning, hplacements, htime⟩ := view_eq_iff.1 h
  unfold place
  rw [hmemory, hbarriers]
  simp only [Run.enter, Run.record]
  split
  · rfl
  · split
    · rfl
    · simp only [viewEnd, view, hrunning, hplacements, htime]

theorem retireAll_congr (h : view r' = view r) (placements : List Placement) :
    viewEnd (retireAll placements r') = viewEnd (retireAll placements r) := by
  induction placements generalizing r r' with
  | nil => simp only [retireAll, viewEnd, h]
  | cons p placements ih =>
    obtain ⟨hmemory, hbarriers, hrunning, hplacements, htime⟩ := view_eq_iff.1 h
    cases hgive : Run.giveBack r.memory p.ranges with
    | error fault => simp only [retireAll, retire, hmemory, hgive, viewEnd]
    | ok memory =>
      cases hrelease : r.barriers.release p.task with
      | error fault => simp only [retireAll, retire, hmemory, hbarriers, hgive, hrelease, viewEnd]
      | ok returned =>
        simp only [retireAll, retire, hmemory, hbarriers, hgive, hrelease]
        apply ih
        simp only [view, Run.enter, Run.record, hrunning, hplacements, htime]

theorem advance_congr (h : view r' = view r) : viewEnd (advance r') = viewEnd (advance r) := by
  obtain ⟨hmemory, hbarriers, hrunning, hplacements, htime⟩ := view_eq_iff.1 h
  have hretire : viewEnd (retireAll (r'.running.mergeSort (·.task ≤ ·.task))
        { r' with time := r'.time + 1 }) =
      viewEnd (retireAll (r.running.mergeSort (·.task ≤ ·.task))
        { r with time := r.time + 1 }) := by
    rw [← hrunning]
    apply retireAll_congr
    simp only [view, hmemory, hbarriers, hrunning, hplacements, htime]
  unfold advance
  rcases viewEnd_cases hretire with ⟨fault, r₁, r₁', hr, hr'⟩ | ⟨r₁, r₁', hr, hr', hview⟩
  · rw [hr, hr']
    rfl
  · rw [hr, hr']
    obtain ⟨hmemory, hbarriers, -, hplacements, htime⟩ := view_eq_iff.1 hview
    simp only [viewEnd, view, hmemory, hbarriers, hplacements, htime]

theorem placeHinted_congr (h : view r' = view r) (tasks : List Nat) :
    (placeHinted s tasks r').map view = (placeHinted s tasks r).map view := by
  induction tasks generalizing r r' with
  | nil => simp only [placeHinted, Except.map, h]
  | cons task rest ih =>
    rw [placeHinted, placeHinted, ready_congr h, fits_congr h]
    by_cases hready : (ready s r).contains task = true
    · rw [if_pos hready, if_pos hready]
      split
      · rfl
      · exact ih h
      · rcases viewEnd_cases (place_congr (s := s) h task) with
          ⟨fault, r₁, r₁', hr, hr'⟩ | ⟨r₁, r₁', hr, hr', hview⟩
        · rw [hr, hr']
        · rw [hr, hr']
          exact ih hview
    · rw [if_neg hready, if_neg hready]
      exact ih h

theorem step_congr (h : view r' = view r) :
    (step s r').map (·.map view) = (step s r).map (·.map view) := by
  obtain ⟨-, -, hrunning, -, -⟩ := view_eq_iff.1 h
  unfold step
  rw [ready_congr h, firstFitting_congr h]
  split
  · rfl
  · next task _ =>
    have hmap : ∀ x : Except Fault Run,
        (x.map some).map (·.map view) = (x.map view).map some := by
      rintro (fault | r) <;> rfl
    rcases viewEnd_cases (place_congr (s := s) h task) with
      ⟨fault, r₁, r₁', hr, hr'⟩ | ⟨r₁, r₁', hr, hr', hview⟩
    · rw [hr, hr']
    · rw [hr, hr']
      show (Except.map some _).map _ = (Except.map some _).map _
      rw [hmap, hmap, placeHinted_congr hview]
  · rw [hrunning, unplaced_congr h, shortfall_congr h]
    split
    · split <;> rfl
    · rcases viewEnd_cases (advance_congr h) with
        ⟨fault, r₁, r₁', hr, hr'⟩ | ⟨r₁, r₁', hr, hr', hview⟩
      · rw [hr, hr']
      · rw [hr, hr']
        simp [Except.map, hview]

theorem loop_error {fault : Fault} (h : step s r = .error fault) : loop s r = .error fault := by
  rw [loop]
  split <;> simp_all

theorem loop_none (h : step s r = .ok none) : loop s r = .ok r.placements.reverse := by
  rw [loop]
  split <;> simp_all

theorem loop_some (h : step s r = .ok (some r')) : loop s r = loop s r' := by
  rw [loop]
  split <;> simp_all

/-- Only what is held and placed plays a part. -/
theorem loop_congr (h : view r' = view r) : loop s r' = loop s r := by
  fun_induction loop s r generalizing r' with
  | case1 r fault hstep =>
    have hstep' := step_congr (s := s) h
    rw [hstep] at hstep'
    cases hr' : step s r' with
    | error fault' =>
      rw [hr'] at hstep'
      cases hstep'
      exact loop_error hr'
    | ok next => simp [hr', Except.map] at hstep'
  | case2 r hstep =>
    obtain ⟨-, -, -, hplacements, -⟩ := view_eq_iff.1 h
    have hstep' := step_congr (s := s) h
    rw [hstep] at hstep'
    cases hr' : step s r' with
    | error fault' => simp [hr', Except.map] at hstep'
    | ok next =>
      cases next with
      | none => rw [loop_none hr', hplacements]
      | some r₁' => simp [hr', Except.map] at hstep'
  | case3 r r₁ hstep ih =>
    have hstep' := step_congr (s := s) h
    rw [hstep] at hstep'
    cases hr' : step s r' with
    | error fault' => simp [hr', Except.map] at hstep'
    | ok next =>
      cases next with
      | none => simp [hr', Except.map] at hstep'
      | some r₁' =>
        rw [loop_some hr']
        apply ih
        simpa [hr', Except.map] using hstep'

end Plain

end TaskLoom.ListScheduler
