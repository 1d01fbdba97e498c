import TaskLoom.Proofs.Timetable.Feasible

/-!
# Sizes of a finished run

A task is placed only after all its sizes were rounded up to the alignment, and rounding
fails when it leaves the word.  A run that ends well has placed every task.  So nothing
needs to be assumed of rounded sizes when the result of a run is known: they fit a word.

## Main results

* `fill_done`, `advance_done` — what a step does that ends well.
* `runSteps_done` — a run that ends well has rounded the sizes of all tasks.
* `feasible_of_done` — its timetable is feasible, whatever the sizes are.
-/

namespace TaskLoom

/-! ## Memory -/

namespace FirstFit

variable {m m' : FirstFit}

/-- Looking ahead with success rounds every size. -/
theorem aligned_of_serveAll {rooms sizes : List Nat} (h : m.serveAll rooms sizes = .ok true) :
    ∀ size ∈ sizes, ∃ k, Word.roundUp size m.alignment = .ok k := by
  induction sizes generalizing rooms with
  | nil => simp
  | cons size sizes ih =>
    unfold serveAll at h
    cases haligned : m.aligned size with
    | error fault => simp [haligned, bind, Except.bind] at h
    | ok k =>
      simp only [haligned, bind, Except.bind] at h
      refine List.forall_mem_cons.2 ⟨⟨k, haligned⟩, ?_⟩
      split at h
      · exact ih h
      · split at h
        · exact ih h
        · simp [pure, Except.pure] at h

theorem alignment_reserve {size : Nat} {r : ByteRange}
    (h : m.reserve size = .ok (some (r, m'))) : m'.alignment = m.alignment := by
  unfold reserve at h
  cases haligned : m.aligned size with
  | error fault => simp [haligned, bind, Except.bind] at h
  | ok k =>
    simp only [haligned, bind, Except.bind, pure, Except.pure] at h
    split at h
    · cases h
      rfl
    · split at h
      · cases h
      · cases h
        rfl

theorem alignment_release {r : ByteRange} (h : m.release r = .ok m') :
    m'.alignment = m.alignment := by
  unfold release at h
  split at h
  · cases h
    rfl
  · simp only at h
    split at h
    · cases hused : Word.sub m.used r.length with
      | error fault => simp [hused, bind, Except.bind] at h
      | ok used =>
        simp only [hused, bind, Except.bind, pure, Except.pure] at h
        cases h
        rfl
    · cases h

end FirstFit

namespace ListScheduler

variable {s : ListScheduler} {r r' : Run}

theorem Run.alignment_reserveAll {m m' : FirstFit} {requests : List (Nat × Nat)}
    {intervals : List Interval} (h : Run.reserveAll m requests = .ok (intervals, m')) :
    m'.alignment = m.alignment := by
  induction requests generalizing m intervals with
  | nil =>
    cases h
    rfl
  | cons request requests ih =>
    simp only [Run.reserveAll, bind, Except.bind] at h
    split at h
    · cases h
    · next reserved hreserve =>
      cases reserved with
      | none => cases h
      | some taken =>
        simp only at h
        split at h
        · cases h
        · next rest hrest =>
          cases h
          exact (ih hrest).trans (FirstFit.alignment_reserve hreserve)

theorem Run.alignment_giveBack {m m' : FirstFit} {intervals : List Interval}
    (h : Run.giveBack m intervals = .ok m') : m'.alignment = m.alignment := by
  induction intervals generalizing m with
  | nil =>
    cases h
    rfl
  | cons i intervals ih =>
    simp only [Run.giveBack, bind, Except.bind] at h
    split at h
    · cases h
    · next released hrelease => exact (ih h).trans (FirstFit.alignment_release hrelease)

/-! ## One step -/

/-- The sizes of a task can be rounded up. -/
def Rounds (alignment : Nat) (t : Task) : Prop :=
  ∀ size ∈ t.requests.map (·.2), ∃ k, Word.roundUp size alignment = .ok k

/-- What considering tasks with success leaves: each is placed or set aside, and those
that are placed have been rounded up. -/
structure Settles (s : ListScheduler) (tasks : List Nat) (r r' : Run) : Prop where
  alignment_eq : r'.memory.alignment = r.memory.alignment
  placed : ∀ p ∈ r.placements, p ∈ r'.placements
  aside : ∀ task ∈ r.deferred, task ∈ r'.deferred
  settled : ∀ task ∈ tasks, task ∈ r'.placements.map (·.task) ∨ task ∈ r'.deferred
  rounds : ∀ p ∈ r'.placements,
    p ∈ r.placements ∨ Rounds r.memory.alignment (s.graph.task p.task)

theorem Settles.refl (s : ListScheduler) (r : Run) : Settles s [] r r :=
  ⟨rfl, fun _ hp => hp, fun _ ht => ht, by simp, fun _ hp => Or.inl hp⟩

theorem Settles.trans {r'' : Run} {tasks tasks' : List Nat} (h : Settles s tasks r r')
    (h' : Settles s tasks' r' r'') : Settles s (tasks ++ tasks') r r'' := by
  refine ⟨h'.alignment_eq.trans h.alignment_eq, fun p hp => h'.placed p (h.placed p hp),
    fun t ht => h'.aside t (h.aside t ht), ?_, ?_⟩
  · intro task htask
    rcases List.mem_append.1 htask with htask | htask
    · refine (h.settled task htask).imp (fun hplaced => ?_) (h'.aside task)
      obtain ⟨p, hp, rfl⟩ := List.mem_map.1 hplaced
      exact List.mem_map_of_mem (h'.placed p hp)
    · exact h'.settled task htask
  · intro p hp
    rcases h'.rounds p hp with hp | hrounds
    · exact h.rounds p hp
    · exact Or.inr (h.alignment_eq ▸ hrounds)

theorem Settles.mono {tasks tasks' : List Nat} (h : Settles s tasks r r')
    (hsub : ∀ task ∈ tasks', task ∈ tasks) : Settles s tasks' r r' :=
  ⟨h.alignment_eq, h.placed, h.aside, fun task htask => h.settled task (hsub task htask),
    h.rounds⟩

/-- A check that finds room has rounded the sizes of the task. -/
theorem check_done {task : Nat} {fits : Bool} (h : s.check task r = .done fits r') :
    core r' = core r ∧ r'.deferred = r.deferred ∧
      (fits = true → Rounds r.memory.alignment (s.graph.task task)) := by
  unfold check at h
  by_cases hroom : ((s.graph.task task).demand = 0 || r.barriers.hasRoom
      (s.graph.task task).demand) = true
  · simp only [Run.enter, Run.record, hroom, if_true] at h
    split at h
    · next hcan =>
      cases h
      refine ⟨rfl, rfl, ?_⟩
      rintro rfl
      exact FirstFit.aligned_of_serveAll hcan
    · cases h
  · simp only [Run.enter, Run.record, hroom] at h
    cases h
    exact ⟨rfl, rfl, by simp⟩

/-- Placing a task with success gives it memory and slots in the current step. -/
theorem place_done {task : Nat} (h : s.place task r = .done () r') :
    ∃ p : Placement, p.task = task ∧ p.time = r.time ∧
      Run.reserveAll r.memory (s.graph.task task).requests = .ok (p.ranges, r'.memory) ∧
      r'.running = p :: r.running ∧ r'.placements = p :: r.placements ∧
      r'.deferred = r.deferred ∧ r'.time = r.time := by
  unfold place at h
  simp only [Run.enter, Run.record] at h
  split at h
  · cases h
  · next ranges memory hreserve =>
    split at h
    · cases h
    · next barrier barriers htake =>
      cases h
      exact ⟨⟨task, r.time, barrier, (s.graph.task task).demand, ranges⟩, rfl, rfl, hreserve, rfl,
        rfl, rfl, rfl⟩

theorem settles_place {task : Nat} (hrounds : Rounds r.memory.alignment (s.graph.task task))
    (h : s.place task r = .done () r') : Settles s [task] r r' := by
  obtain ⟨p, rfl, -, hreserve, -, hplacements, hdeferred, -⟩ := place_done h
  refine ⟨Run.alignment_reserveAll hreserve, ?_, ?_, ?_, ?_⟩
  · intro q hq
    rw [hplacements]
    exact List.mem_cons_of_mem p hq
  · intro t ht
    rwa [hdeferred]
  · intro t ht
    obtain rfl := List.mem_singleton.1 ht
    exact Or.inl (by simp [hplacements])
  · intro q hq
    rw [hplacements] at hq
    rcases List.mem_cons.1 hq with rfl | hq
    · exact Or.inr hrounds
    · exact Or.inl hq

/-- What was recorded before plays no part. -/
theorem Settles.of_core {r₁ : Run} {tasks : List Nat} (h : Settles s tasks r₁ r')
    (hcore : core r₁ = core r) (hdeferred : r₁.deferred = r.deferred) : Settles s tasks r r' := by
  obtain ⟨hmemory, -, -, -, hplacements, -⟩ := core_eq_iff.1 hcore
  obtain ⟨halignment, hplaced, haside, hsettled, hrounds⟩ := h
  rw [hmemory] at halignment hrounds
  rw [hplacements] at hplaced hrounds
  rw [hdeferred] at haside
  exact ⟨halignment, hplaced, haside, hsettled, hrounds⟩

theorem consider_done {task : Nat} {beside : Option Nat} {placed : Bool}
    (h : s.consider task beside r = .done placed r') : Settles s [task] r r' := by
  unfold consider at h
  split at h
  · cases h
  · next r₁ hcheck =>
    obtain ⟨hcore, hdeferred, -⟩ := check_done hcheck
    cases h
    refine Settles.of_core ?_ hcore hdeferred
    exact ⟨rfl, fun _ hp => hp, fun _ ht => List.mem_cons_of_mem task ht,
      fun _ ht => Or.inr (List.mem_singleton.1 ht ▸ List.mem_cons_self), fun _ hp => Or.inl hp⟩
  · next r₁ hcheck =>
    obtain ⟨hcore, hdeferred, hrounds⟩ := check_done hcheck
    obtain ⟨hmemory, -⟩ := core_eq_iff.1 hcore
    have hrounds₁ : Rounds r₁.memory.alignment (s.graph.task task) := hmemory ▸ hrounds rfl
    cases beside with
    | none =>
      simp only at h
      split at h
      · cases h
      · next r₂ hplace =>
        cases h
        exact (settles_place hrounds₁ hplace).of_core hcore hdeferred
    | some other =>
      simp only at h
      split at h
      · cases h
      · next r₂ hplace =>
        cases h
        have hrecorded : Rounds (r₁.record (.prefetched task other)).memory.alignment
            (s.graph.task task) := hrounds₁
        exact (settles_place hrecorded hplace).of_core hcore hdeferred

theorem considerBeside_done {beside : Nat} {tasks : List Nat}
    (h : s.considerBeside beside tasks r = .done () r') : Settles s tasks r r' := by
  induction tasks generalizing r with
  | nil =>
    cases h
    exact .refl s _
  | cons task tasks ih =>
    unfold considerBeside at h
    split at h
    · cases h
    · next placed r₁ hconsider => exact (consider_done hconsider).trans (ih h)

theorem mem_append_leftOver (considered : List Nat) {ready : List Nat} {task : Nat}
    (h : task ∈ ready) : task ∈ considered ++ leftOver considered ready := by
  by_cases hconsidered : task ∈ considered
  · exact List.mem_append_left _ hconsidered
  · exact List.mem_append_right _ (List.mem_filter.2 ⟨h, by simpa using hconsidered⟩)

/-- Filling a step with success settles all ready tasks. -/
theorem fill_done {ready : List Nat} (h : s.fill ready r = .done () r') :
    Settles s ready r r' := by
  induction hlength : ready.length using Nat.strongRecOn generalizing ready r with
  | ind length ih =>
    cases ready with
    | nil =>
      rw [fill] at h
      cases h
      exact .refl s _
    | cons task rest =>
      rw [fill] at h
      split at h
      · cases h
      · next r₁ hconsider =>
        exact (consider_done hconsider).trans
          (ih rest.length (by rw [← hlength]; exact Nat.lt_succ_self _) h rfl)
      · next r₁ hconsider =>
        simp only at h
        split at h
        · cases h
        · next r₂ hbeside =>
          have hshorter := length_leftOver_le
            ((s.hints.beside task).filter rest.contains).eraseDups rest
          have hrest := ih _ (by rw [← hlength]; exact Nat.lt_succ_of_le hshorter) h rfl
          refine ((consider_done hconsider).trans ((considerBeside_done hbeside).trans hrest)).mono
            fun t ht => ?_
          rcases List.mem_cons.1 ht with rfl | ht
          · exact List.mem_append_left _ (List.mem_singleton_self _)
          · exact List.mem_append_right _ (mem_append_leftOver _ ht)

theorem retireAll_done {placements : List Placement} (h : retireAll placements r = .done () r') :
    r'.memory.alignment = r.memory.alignment ∧ r'.placements = r.placements ∧
      r'.deferred = r.deferred := by
  induction placements generalizing r with
  | nil =>
    cases h
    exact ⟨rfl, rfl, rfl⟩
  | cons p placements ih =>
    unfold retireAll retire at h
    split at h
    · cases h
    · next r₁ hretire =>
      obtain ⟨halignment, hplacements, hdeferred⟩ := ih h
      split at hretire
      · cases hretire
      · next memory hgive =>
        split at hretire
        · cases hretire
        · cases hretire
          exact ⟨halignment.trans (Run.alignment_giveBack hgive), hplacements, hdeferred⟩

theorem advance_done (h : advance r = .done () r') :
    r'.memory.alignment = r.memory.alignment ∧ r'.placements = r.placements ∧
      r'.deferred = r.deferred := by
  unfold advance at h
  split at h
  · cases h
  · next r₁ hretire =>
    cases h
    obtain ⟨halignment, hplacements, hdeferred⟩ := retireAll_done hretire
    exact ⟨halignment, hplacements, hdeferred⟩

/-! ## The whole run -/

/-- A run that ends well has rounded the sizes of all tasks. -/
theorem runSteps_done {predecessors : Array (List Nat)} {count alignment : Nat}
    {ids waiting ready : List Nat}
    (h : s.runSteps predecessors count waiting ready r = .done () r')
    (halignment : r.memory.alignment = alignment)
    (hids : ∀ id ∈ ids, id ∈ r.placements.map (·.task) ∨ id ∈ waiting ∨ id ∈ ready)
    (hrounds : ∀ p ∈ r.placements, Rounds alignment (s.graph.task p.task)) :
    ∀ id ∈ ids, Rounds alignment (s.graph.task id) := by
  induction count generalizing waiting ready r with
  | zero =>
    cases waiting with
    | cons first rest => simp [runSteps] at h
    | nil =>
      cases ready with
      | cons first rest => simp [runSteps] at h
      | nil =>
        intro id hid
        obtain ⟨p, hp, rfl⟩ := List.mem_map.1 ((hids id hid).resolve_right (by simp))
        exact hrounds p hp
  | succ count ih =>
    by_cases hover : waiting = [] ∧ ready = []
    · obtain ⟨rfl, rfl⟩ := hover
      intro id hid
      obtain ⟨p, hp, rfl⟩ := List.mem_map.1 ((hids id hid).resolve_right (by simp))
      exact hrounds p hp
    · rw [runSteps_succ hover] at h
      split at h
      · cases h
      · next r₁ hfill =>
        split at h
        · cases h
        · split at h
          · cases h
          · next r₂ hadvance =>
            have hsettles := fill_done hfill
            obtain ⟨halignment₂, hplacements, hdeferred⟩ := advance_done hadvance
            refine ih h (halignment₂.trans (hsettles.alignment_eq.trans halignment)) ?_ ?_
            · intro id hid
              show id ∈ r₂.placements.map (·.task) ∨ _
              rw [hplacements, hdeferred, (s.sortByRank_perm _).mem_iff]
              rcases hids id hid with hplaced | hwaiting | hready
              · obtain ⟨p, hp, rfl⟩ := List.mem_map.1 hplaced
                exact Or.inl (List.mem_map_of_mem (hsettles.placed p hp))
              · have hsplit := (List.filter_append_perm (released predecessors r₂)
                  waiting).mem_iff.2 hwaiting
                exact Or.inr ((List.mem_append.1 hsplit).symm.imp_right
                  (List.mem_append_left _))
              · exact (hsettles.settled id hready).imp_right fun haside =>
                  Or.inr (List.mem_append_right _ haside)
            · intro p hp
              have hp' : p ∈ r₁.placements := hplacements ▸ hp
              rcases hsettles.rounds p hp' with hp' | hp'
              · exact hrounds p hp'
              · exact halignment ▸ hp'

/-- If listing ends well, the sizes of all tasks could be rounded up. -/
theorem rounds_of_done (hvalid : s.settings.validate = .ok ()) {placements : List Placement}
    (h : s.schedule.result = .ok placements) :
    ∀ id ∈ s.graph.ids, Rounds s.settings.alignment (s.graph.task id) := by
  obtain ⟨-, -, -, hpower⟩ := Settings.validate_eq_ok_iff.1 hvalid
  unfold schedule at h
  split at h
  · cases h
  · simp only at h
    split at h
    · cases h
    · next r hrun =>
      refine runSteps_done hrun (Nat.max_eq_left (isPowerOfTwo_pos hpower)) ?_ (by simp)
      intro id hid
      rw [(s.sortByRank_perm _).mem_iff]
      exact Or.inr (List.mem_append.1 ((List.filter_append_perm _ _).mem_iff.2 hid)).symm

/-- A timetable that the list scheduler returns is feasible if all numbers are words. -/
theorem feasible_of_done (hg : s.graph.WellFormed) (hvalid : s.settings.validate = .ok ())
    (hslots : s.settings.slotsPerBarrier < Word.bound)
    (hsizes : ∀ id ∈ s.graph.ids, ∀ size ∈ (s.graph.task id).sizesIn .cmx, size < Word.bound)
    {placements : List Placement} (h : s.schedule.result = .ok placements) :
    Feasible s.graph s.settings placements := by
  have hprepared : s.Prepared := by
    refine ⟨hg, hvalid, hslots, fun id hid size hsize => ?_⟩
    obtain ⟨k, hk⟩ := rounds_of_done hvalid h id hid size ((Task.sizes_requests _).mem_iff.2 hsize)
    exact Word.alignUp_lt_of_roundUp (hsizes id hid size hsize) hk
  rcases schedule_spec hprepared with ⟨placements', hok, hfeasible⟩ | ⟨waiting, r, herror, -⟩
  · obtain rfl := Except.ok.inj (h.symm.trans hok)
    exact hfeasible
  · cases h.symm.trans herror

end ListScheduler

end TaskLoom
