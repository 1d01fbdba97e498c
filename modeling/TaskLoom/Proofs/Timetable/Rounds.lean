import TaskLoom.Proofs.Timetable.Deferral

/-!
# A run, step by step

A run goes from one moment between two steps to the next.  In a step the ready tasks are
considered, something runs, and the step is ended.  The run is over when all tasks are
placed.  Otherwise it stops in the middle of a step: a size leaves the word while a task is
checked, or all tasks are considered and nothing runs.

What holds of a run is proved along these lines.  `P ready r` is a property of a run `r`
with the tasks `ready` still to be considered in the current step.  If it holds at the
start, is kept by every task that is considered and by the end of every step, it holds
wherever the run stops.

## Main results

* `fill_ends` — a property that every task keeps, over a step.
* `runSteps_ends`, `schedule_ends` — how a run ends, and what holds then.
-/

namespace TaskLoom.ListScheduler

variable {s : ListScheduler} {r : Run} {waiting ready : List Nat}

/-! ## Within a step -/

/-- What holds of the run where a computation stops: `P` if it succeeds, else `Q`. -/
def Ends {α : Type} (P Q : Run → Prop) : Outcome Run α → Prop
  | .done _ r => P r
  | .failed _ r => Q r

section Step

variable {P : List Nat → Run → Prop} {Q : Run → Prop}

/-- `P` is kept by every task that is considered, and `Q` holds where one overflows. -/
def KeptByTasks (s : ListScheduler) (P : List Nat → Run → Prop) (Q : Run → Prop) : Prop :=
  ∀ ⦃ready rest : List Nat⦄ ⦃task : Nat⦄ ⦃beside : Option Nat⦄ ⦃r : Run⦄, Filling s ready r →
    P ready r → ready.Perm (task :: rest) → rest.Sublist ready →
    Ends (P rest) Q (s.consider task beside r)

/-- After a task is considered, the others are still to be considered. -/
theorem consider_ends (hg : s.graph.WellFormed) (hvalid : s.settings.validate = .ok ())
    (hkept : KeptByTasks s P Q) {rest : List Nat} {task : Nat} (beside : Option Nat)
    (h : Filling s ready r) (hP : P ready r) (hperm : ready.Perm (task :: rest))
    (hsub : rest.Sublist ready) :
    Ends (fun r' => Filling s rest r' ∧ P rest r') Q (s.consider task beside r) := by
  have hend : Ends (P rest) Q (s.consider task beside r) := hkept h hP hperm hsub
  rcases h.consider hg hvalid hperm hsub beside with
    ⟨r', -, hconsider⟩ | ⟨r', -, hconsider, -, hfilling, -⟩ |
    ⟨-, r', -, hconsider, -, -, hfilling, -⟩
  · rw [hconsider] at hend ⊢
    exact hend
  · rw [hconsider] at hend ⊢
    exact ⟨hfilling, hend⟩
  · rw [hconsider] at hend ⊢
    exact ⟨hfilling, hend⟩

theorem considerBeside_ends (hg : s.graph.WellFormed) (hvalid : s.settings.validate = .ok ())
    (hkept : KeptByTasks s P Q) (beside : Nat) {hinted : List Nat} (hnodup : hinted.Nodup)
    (hmem : ∀ t ∈ hinted, t ∈ ready) (h : Filling s ready r) (hP : P ready r) :
    Ends (fun r' => Filling s (leftOver hinted ready) r' ∧ P (leftOver hinted ready) r') Q
      (s.considerBeside beside hinted r) := by
  induction hinted generalizing ready r with
  | nil =>
    rw [leftOver_nil]
    exact ⟨h, hP⟩
  | cons task hinted ih =>
    have hready : ready.Nodup := (List.nodup_append.1 h.awaits.nodup).2.1
    obtain ⟨hother, hnodup⟩ := List.nodup_cons.1 hnodup
    obtain ⟨htask, hmem⟩ := List.forall_mem_cons.1 hmem
    have hend := consider_ends hg hvalid hkept (some beside) h hP (List.perm_cons_erase htask)
      List.erase_sublist
    rw [leftOver_cons hready, considerBeside]
    cases hconsider : s.consider task (some beside) r with
    | failed fault r' =>
      rw [hconsider] at hend
      exact hend
    | done placed r' =>
      rw [hconsider] at hend
      refine ih hnodup (fun t ht => ?_) hend.1 hend.2
      have hne : t ≠ task := fun heq => hother (heq ▸ ht)
      exact (List.mem_erase_of_ne hne).2 (hmem t ht)

/-- A property that every task keeps holds when all ready tasks are considered. -/
theorem fill_ends (hg : s.graph.WellFormed) (hvalid : s.settings.validate = .ok ())
    (hkept : KeptByTasks s P Q) (ready : List Nat) (h : Filling s ready r) (hP : P ready r) :
    Ends (P []) Q (s.fill ready r) := by
  induction hlength : ready.length using Nat.strongRecOn generalizing ready r with
  | ind length ih =>
    cases ready with
    | nil =>
      rw [fill]
      exact hP
    | cons task rest =>
      have hend := consider_ends hg hvalid hkept none h hP (.refl _)
        (List.sublist_cons_self task rest)
      rw [fill]
      cases hconsider : s.consider task none r with
      | failed fault r' =>
        rw [hconsider] at hend
        exact hend
      | done placed r' =>
        rw [hconsider] at hend
        cases placed with
        | false => exact ih _ (hlength ▸ Nat.lt_succ_self _) rest hend.1 hend.2 rfl
        | true =>
          have hhinted : ∀ t ∈ ((s.hints.beside task).filter rest.contains).eraseDups,
              t ∈ rest := by
            intro t ht
            simpa using (List.mem_filter.1 (List.mem_eraseDups.1 ht)).2
          have hbeside := considerBeside_ends hg hvalid hkept task (nodup_eraseDups _) hhinted
            hend.1 hend.2
          simp only
          cases hrest : s.considerBeside task
              ((s.hints.beside task).filter rest.contains).eraseDups r' with
          | failed fault r'' =>
            rw [hrest] at hbeside
            exact hbeside
          | done value r'' =>
            rw [hrest] at hbeside
            have hshorter := length_leftOver_le
              ((s.hints.beside task).filter rest.contains).eraseDups rest
            exact ih _ (hlength ▸ Nat.lt_succ_of_le hshorter) _ hbeside.1 hbeside.2 rfl

end Step

/-! ## From step to step -/

/-- One step of a run, from the moment before it to the moment after it. -/
structure Round (s : ListScheduler) (waiting ready : List Nat) (r r₁ r₂ : Run) : Prop where
  before : Between s waiting ready r
  filling : Filling s ready r
  fill_eq : s.fill ready r = .done () r₁
  filled : Filling s [] r₁
  fills : Fills s ready r r₁
  runs : r₁.running ≠ []
  advance_eq : advance r₁ = .done () r₂
  placements_eq : r₂.placements = r₁.placements
  time_eq : r₂.time = r₁.time + 1
  after : Between s (waiting.filter (!released s.graph.predecessorTable r₂ ·))
    (s.sortByRank (waiting.filter (released s.graph.predecessorTable r₂) ++ r₂.deferred))
    { r₂ with deferred := [] }

/-- `P` is kept by every step. -/
def KeptByRounds (s : ListScheduler) (P : List Nat → Run → Prop) : Prop :=
  ∀ ⦃waiting ready : List Nat⦄ ⦃r r₁ r₂ : Run⦄, Round s waiting ready r r₁ r₂ → P ready r →
    P (s.sortByRank (waiting.filter (released s.graph.predecessorTable r₂) ++ r₂.deferred))
      { r₂ with deferred := [] }

/-- How a run ends if `P` holds between its steps. -/
inductive RunEnd (s : ListScheduler) (P : List Nat → Run → Prop) : Outcome Run Unit → Prop where
  /-- All tasks are placed. -/
  | done {r : Run} : Between s [] [] r → P [] r → RunEnd s P (.done () r)
  /-- A size leaves the word in the middle of a step. -/
  | overflow {ready : List Nat} {r r' : Run} : Filling s ready r → P ready r →
      s.fill ready r = .failed .overflow r' → RunEnd s P (.failed .overflow r')
  /-- Nothing runs, and nothing fits. -/
  | stuck {waiting ready : List Nat} {r r' : Run} : Filling s ready r → P ready r →
      s.fill ready r = .done () r' → Filling s [] r' → Stuck s r' →
      RunEnd s P (.failed (s.stuck waiting r') r')

variable {P : List Nat → Run → Prop}

/-- A property that every step keeps, from one moment between two steps to the next. -/
theorem runSteps_ends (hg : s.graph.WellFormed) (hvalid : s.settings.validate = .ok ())
    (hslots : s.settings.slotsPerBarrier < Word.bound) (hapart : RanksApart s)
    (hkept : KeptByRounds s P) (count : Nat) (h : Between s waiting ready r)
    (hsorted : ready.Pairwise (s.rank · < s.rank ·)) (hP : P ready r)
    (hcount : s.graph.ids.length ≤ r.placements.length + count) :
    RunEnd s P (s.runSteps s.graph.predecessorTable count waiting ready r) := by
  induction count generalizing waiting ready r with
  | zero =>
    -- every step so far placed a task, so none is left
    have hlength := h.perm.length_eq
    simp only [List.length_append, List.length_map] at hlength
    obtain rfl : waiting = [] := List.eq_nil_of_length_eq_zero (by omega)
    obtain rfl : ready = [] := List.eq_nil_of_length_eq_zero (by omega)
    rw [runSteps]
    exact .done h hP
  | succ count ih =>
    by_cases hdone : waiting = [] ∧ ready = []
    · obtain ⟨rfl, rfl⟩ := hdone
      rw [runSteps]
      exact .done h hP
    have hne : waiting ≠ [] ∨ ready ≠ [] := by tauto
    have hfilling := h.filling hvalid hsorted
    rw [runSteps_succ hdone]
    rcases loop_fill hg hvalid ready hfilling with
      ⟨r₁, hfill, -⟩ | ⟨r₁, hfill, -, hfilled, hfills⟩
    · rw [hfill]
      exact .overflow hfilling hP hfill
    rw [hfill]
    by_cases hruns : r₁.running = []
    · simp only [hruns, List.isEmpty_nil, if_true]
      exact .stuck hfilling hP hfill hfilled (h.stuck hg hne hfills hruns)
    · obtain ⟨r₂, hadvance, hplacements, htime, hlt, hnext⟩ := h.advance hslots hfills hruns
      have hcount' : s.graph.ids.length ≤
          ({ r₂ with deferred := [] } : Run).placements.length + count := by
        show s.graph.ids.length ≤ r₂.placements.length + count
        omega
      simp only [List.isEmpty_eq_false_iff.2 hruns, Bool.false_eq_true, if_false, hadvance]
      exact ih hnext (hapart.pairwise_ready hnext)
        (hkept ⟨h, hfilling, hfill, hfilled, hfills, hruns, hadvance, hplacements, htime, hnext⟩ hP)
        hcount'

/-- A run that has not begun. -/
structure Starts (s : ListScheduler) (r : Run) : Prop where
  memory_eq : r.memory = FirstFit.create s.settings.cmxSize s.settings.alignment
  barriers_eq :
    Holdings.create s.settings.barrierCount s.settings.slotsPerBarrier = .ok r.barriers
  placements_eq : r.placements = []
  deferred_eq : r.deferred = []
  time_eq : r.time = 0
  states_eq : r.states = s.states
  checks_eq : r.checks = s.checks
  events_eq : r.events = []

/-- The listing that is made of a run. -/
def conclude (s : ListScheduler) : Outcome Run Unit → Listing
  | .failed fault r => ⟨.error fault, s.keep r, r.events.reverse⟩
  | .done () r => ⟨.ok r.placements.reverse, s.keep r,
      r.events.reverse ++ [.finished r.placements.length r.time r.memory.peak r.checks]⟩

/-- Listing is concluded from a run that ends in one of these ways. -/
theorem schedule_ends (hg : s.graph.WellFormed) (hvalid : s.settings.validate = .ok ())
    (hslots : s.settings.slotsPerBarrier < Word.bound) (hapart : RanksApart s)
    (hkept : KeptByRounds s P)
    (hstart : ∀ ⦃waiting ready : List Nat⦄ ⦃r : Run⦄, Starts s r → Between s waiting ready r →
      ready.Pairwise (s.rank · < s.rank ·) → P ready r) :
    ∃ outcome, RunEnd s P outcome ∧ s.schedule = s.conclude outcome := by
  obtain ⟨barriers, hcreate⟩ := exists_holdings hvalid
  simp only [schedule, hcreate]
  generalize hbegin : ({ memory := FirstFit.create s.settings.cmxSize s.settings.alignment
                         barriers, running := [], deferred := []
                         retired := Array.replicate s.graph.tasks.size false
                         placements := [], time := 0, states := s.states, checks := s.checks
                         events := [] } : Run) = start
  have hstarts : Starts s start := by
    subst hbegin
    exact ⟨rfl, hcreate, rfl, rfl, rfl, rfl, rfl, rfl⟩
  have hbetween : Between s
      (s.graph.ids.filter (!released s.graph.predecessorTable start ·))
      (s.sortByRank (s.graph.ids.filter (released s.graph.predecessorTable start))) start := by
    subst hbegin
    exact between_start (sound_start hvalid rfl hcreate rfl rfl rfl) rfl rfl rfl
  have hsorted := hapart.pairwise_ready hbetween
  refine ⟨_, runSteps_ends hg hvalid hslots hapart hkept s.graph.ids.length hbetween hsorted
    (hstart hstarts hbetween hsorted) (Nat.le_add_left _ _), ?_⟩
  cases s.runSteps s.graph.predecessorTable s.graph.ids.length _ _ start with
  | failed fault r => rfl
  | done value r => simp [conclude, Run.record, keep]

end TaskLoom.ListScheduler
