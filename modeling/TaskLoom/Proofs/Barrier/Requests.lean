import TaskLoom.Proofs.Barrier.Pool

/-!
# A barrier pool that serves requests

Tasks ask for slots and return them, in any order.  Whatever they ask for, the pool
never breaks a rule: the slots that a task returns were taken from the barrier they go
back to.  After every request the books agree.  The free slots of a barrier and those
that tasks hold on it are all of its slots, and the ranking lists the vacancy that the
table has for each barrier, once.

A request that is refused changes nothing.  It is refused exactly if the task holds
slots already, or holds none to return, or no barrier has room.

## Main results

* `Accounted` — the books of a pool agree.
* `serve_spec` — what one request does.
* `serveAll_spec` — what a run of requests keeps.
* `serveAll_accounted` — every run of requests is served, and the books agree after it.
-/

namespace TaskLoom.Holdings

variable {h : Holdings}

/-! ## Requests -/

/-- What a user of the pool asks for. -/
inductive Request where
  /-- Slots for a task, all on one barrier. -/
  | acquire (task demand : Nat)
  /-- To take back the slots of a task. -/
  | release (task : Nat)
deriving DecidableEq, Repr

/-- The task that a request is made for. -/
def Request.task : Request → Nat
  | .acquire task _ => task
  | .release task => task

/-- Task ids are 32-bit numbers. -/
def Request.Numbered (r : Request) : Prop := r.task < 4294967296

instance (r : Request) : Decidable r.Numbered :=
  inferInstanceAs (Decidable (r.task < 4294967296))

/-- Serves a request, and tells whether it was granted. -/
def serve (h : Holdings) : Request → Except Fault (Bool × Holdings)
  | .acquire task demand => h.acquire task demand
  | .release task => h.release task

/-- Serves requests one after the other. -/
def serveAll (h : Holdings) : List Request → Except Fault (List Bool × Holdings)
  | [] => .ok ([], h)
  | r :: rest => do
    let (granted, h) ← h.serve r
    let (answers, h) ← h.serveAll rest
    return (granted :: answers, h)

/-- A request that can be granted: a task without slots asks for no more than some
barrier has free, or a task with slots returns them. -/
def Grants (h : Holdings) : Request → Prop
  | .acquire task demand =>
    h.find? task = none ∧ ∃ k ∈ h.pool.vacancies, demand ≤ k.available
  | .release task => (h.find? task).isSome = true

/-- What tasks hold after a request was granted. -/
def Books (h h' : Holdings) : Request → Prop
  | .acquire task demand => ∃ b, h.pool.has b = true ∧ h'.held = (task, ⟨b, demand⟩) :: h.held
  | .release task => h'.held = h.held.filter (·.1 != task)

/-! ## The books -/

/-- The books of a pool agree. -/
structure Accounted (count slots : Nat) (h : Holdings) : Prop where
  count_eq : h.pool.count = count
  maxSlots_eq : h.pool.maxSlots = slots
  /-- No task holds slots twice. -/
  nodup : (h.held.map (·.1)).Nodup
  /-- What a barrier has free and what tasks hold on it are all of its slots, and it is
  in use if some are taken. -/
  barrier : ∀ b, h.pool.has b = true → ∃ free, h.pool.available b = .ok free ∧
    free + slotsOn h.held b.number = slots ∧ h.pool.inUse b = .ok (decide (free < slots))
  /-- The table has one vacancy for each barrier. -/
  table : h.pool.vacancies.map (·.barrier) = List.range' 1 count
  /-- The ranking has the same vacancies, in order. -/
  ranking : h.pool.ranking.Perm h.pool.vacancies
  ranked : h.pool.ranking.Pairwise fun a b => a.before b = true

/-- The table of a consistent pool has the barriers in order. -/
theorem barriers_eq {p : BarrierPool} (hp : p.Consistent) :
    p.vacancies.map (·.barrier) = List.range' 1 p.count := by
  apply List.ext_getElem
  · rw [List.length_map, List.length_range', BarrierPool.count]
  · intro i hi _
    rw [List.length_map] at hi
    rw [List.getElem_map, List.getElem_range', hp.barrier_eq i _ (List.getElem?_eq_getElem hi)]
    omega

/-- The ranking of a consistent pool and its table have the same vacancies. -/
theorem ranking_perm {p : BarrierPool} (hp : p.Consistent) : p.ranking.Perm p.vacancies := by
  have hnodup : p.vacancies.Nodup := by
    apply List.Nodup.of_map (·.barrier)
    rw [barriers_eq hp]
    exact List.nodup_range'
  exact (List.perm_ext_iff_of_nodup hp.nodup_ranking hnodup).2 hp.mem_ranking

/-- What the table says of a barrier of a balanced pool. -/
theorem Balanced.barrier {limit : Nat} (hb : h.Balanced limit) {b : BarrierId}
    (hhas : h.pool.has b = true) :
    ∃ free, h.pool.available b = .ok free ∧
      free + slotsOn h.held b.number = h.pool.maxSlots ∧
      h.pool.inUse b = .ok (decide (free < h.pool.maxSlots)) := by
  simp only [BarrierPool.has, Bool.and_eq_true, decide_eq_true_eq] at hhas
  unfold BarrierPool.count at hhas
  have hlt : b.number - 1 < h.pool.vacancies.length := by omega
  obtain ⟨k, hk⟩ : ∃ k, h.pool.vacancies[b.number - 1]? = some k :=
    ⟨_, List.getElem?_eq_getElem hlt⟩
  have hmem : k ∈ h.pool.vacancies := List.mem_of_getElem? hk
  have hnumber : k.barrier = b.number := by
    have hbarrier := hb.consistent.barrier_eq _ k hk
    omega
  have hvacancy : h.pool.vacancy b = .ok k := by
    have heq := hb.consistent.vacancy_eq_ok hmem
    rwa [hnumber] at heq
  have hused : k.inUse = decide (k.available < h.pool.maxSlots) := by
    rw [Bool.eq_iff_iff, decide_eq_true_eq]
    exact hb.consistent.inUse_iff k hmem
  have hbalance := hb.balance k hmem
  rw [hnumber] at hbalance
  refine ⟨k.available, ?_, hbalance, ?_⟩
  · rw [BarrierPool.available, hvacancy]
    rfl
  · rw [BarrierPool.inUse, hvacancy, ← hused]
    rfl

/-- Balanced holdings have books that agree. -/
theorem Balanced.accounted {limit : Nat} (hb : h.Balanced limit) :
    h.Accounted h.pool.count h.pool.maxSlots where
  count_eq := rfl
  maxSlots_eq := rfl
  nodup := hb.nodup
  barrier _ := hb.barrier
  table := barriers_eq hb.consistent
  ranking := ranking_perm hb.consistent
  ranked := hb.consistent.ranked

/-! ## One request -/

/-- What every run of requests keeps: the balance, and that tasks have 32-bit ids.  So
fewer tasks hold slots than there are numbers of barriers. -/
structure Serving (h : Holdings) : Prop where
  balanced : h.Balanced 4294967296
  tasks_lt : ∀ x ∈ h.held, x.1 < 4294967296
  maxSlots_lt : h.pool.maxSlots < Word.bound

/-- A task that holds nothing leaves an id for it. -/
theorem Serving.length_lt (hs : h.Serving) {task : Nat} (htask : task < 4294967296)
    (hfree : task ∉ h.held.map (·.1)) : h.held.length < 4294967296 := by
  have hnodup : (task :: h.held.map (·.1)).Nodup := List.nodup_cons.2 ⟨hfree, hs.balanced.nodup⟩
  have hsub : task :: h.held.map (·.1) ⊆ List.range 4294967296 := by
    intro id hid
    apply List.mem_range.2
    rcases List.mem_cons.1 hid with rfl | hid
    · exact htask
    · obtain ⟨x, hx, rfl⟩ := List.mem_map.1 hid
      exact hs.tasks_lt x hx
  have hle := (hnodup.subperm hsub).length_le
  rw [List.length_range, List.length_cons, List.length_map] at hle
  omega

/-- There is room for a demand if some barrier has it free. -/
theorem Serving.hasRoom_iff (hs : h.Serving) (demand : Nat) :
    h.hasRoom demand = true ↔ ∃ k ∈ h.pool.vacancies, demand ≤ k.available := by
  have hnone := @BarrierPool.pick_eq_none_iff h.pool hs.balanced.consistent demand
  show (h.pool.pick demand).isSome = true ↔ _
  rw [Option.isSome_iff_ne_none, ne_eq, hnone]
  simp

/-- A request without room for it is refused. -/
theorem acquire_of_full {task demand : Nat} (hroom : h.hasRoom demand = false) :
    h.acquire task demand = .ok (false, h) := by
  have hpick : h.pool.pick demand = none := by
    simpa [hasRoom, BarrierPool.hasRoom] using hroom
  unfold Holdings.acquire
  split
  · rfl
  · rw [BarrierPool.assign, hpick]
    rfl

/-- What one request does to the holdings. -/
structure Serves (h : Holdings) (r : Request) (granted : Bool) (h' : Holdings) : Prop where
  granted_iff : granted = true ↔ h.Grants r
  books : granted = true → h.Books h' r
  unchanged : granted = false → h' = h

theorem Serving.acquire (hs : h.Serving) {task : Nat} (htask : task < 4294967296)
    (demand : Nat) :
    ∃ granted h', h.acquire task demand = .ok (granted, h') ∧ h'.Serving ∧
      h'.pool.count = h.pool.count ∧ h'.pool.maxSlots = h.pool.maxSlots ∧
      h.Serves (.acquire task demand) granted h' := by
  cases hfind : h.find? task with
  | some holding =>
    refine ⟨false, h, ?_, hs, rfl, rfl, ?_, by simp, fun _ => rfl⟩
    · simp [Holdings.acquire, hfind]
    · simp [Grants, hfind]
  | none =>
    have hfree : task ∉ h.held.map (·.1) := find?_eq_none_iff.1 hfind
    cases hroom : h.hasRoom demand with
    | false =>
      refine ⟨false, h, acquire_of_full hroom, hs, rfl, rfl, ?_, by simp, fun _ => rfl⟩
      simp [Grants, hfind, ← hs.hasRoom_iff, hroom]
    | true =>
      obtain ⟨b, h', hacquire, hbalanced, hheld, hmax, hcount⟩ :=
        hs.balanced.acquire hfree hroom (hs.length_lt htask hfree) (by decide)
      have hhas : h.pool.has b = true := by
        have hnumber := hbalanced.number_mem (hheld ▸ List.mem_cons_self)
        rw [hcount] at hnumber
        simpa [BarrierPool.has] using hnumber
      refine ⟨true, h', hacquire, ⟨hbalanced, ?_, ?_⟩, hcount, hmax, ?_, fun _ => ⟨b, hhas, hheld⟩,
        by simp⟩
      · rw [hheld]
        exact List.forall_mem_cons.2 ⟨htask, hs.tasks_lt⟩
      · rw [hmax]
        exact hs.maxSlots_lt
      · simp [Grants, hfind, ← hs.hasRoom_iff, hroom]

theorem Serving.release (hs : h.Serving) (task : Nat) :
    ∃ granted h', h.release task = .ok (granted, h') ∧ h'.Serving ∧
      h'.pool.count = h.pool.count ∧ h'.pool.maxSlots = h.pool.maxSlots ∧
      h.Serves (.release task) granted h' := by
  cases hfind : h.find? task with
  | none =>
    refine ⟨false, h, ?_, hs, rfl, rfl, ?_, by simp, fun _ => rfl⟩
    · simp [Holdings.release, hfind]
    · simp [Grants, hfind]
  | some holding =>
    obtain ⟨x, hx, htask⟩ : ∃ x ∈ h.held, x.1 = task := by
      have hheld : task ∈ h.held.map (·.1) := by
        by_contra hnot
        rw [find?_eq_none_iff.2 hnot] at hfind
        cases hfind
      exact List.mem_map.1 hheld
    subst htask
    obtain ⟨h', hrelease, hbalanced, hheld, hmax, hcount⟩ :=
      hs.balanced.release hs.maxSlots_lt hx
    refine ⟨true, h', hrelease, ⟨hbalanced, ?_, ?_⟩, hcount, hmax, ?_, fun _ => hheld, by simp⟩
    · intro y hy
      rw [hheld] at hy
      exact hs.tasks_lt y (List.mem_filter.1 hy).1
    · rw [hmax]
      exact hs.maxSlots_lt
    · simp [Grants, hfind]

/-- Every request is served. -/
theorem serve_spec (hs : h.Serving) {r : Request} (hr : r.Numbered) :
    ∃ granted h', h.serve r = .ok (granted, h') ∧ h'.Serving ∧
      h'.pool.count = h.pool.count ∧ h'.pool.maxSlots = h.pool.maxSlots ∧
      h.Serves r granted h' := by
  cases r with
  | acquire task demand => exact hs.acquire hr demand
  | release task => exact hs.release task

/-! ## Runs of requests -/

/-- Every run of requests is served. -/
theorem serveAll_spec (hs : h.Serving) {requests : List Request}
    (hrequests : ∀ r ∈ requests, r.Numbered) :
    ∃ answers h', h.serveAll requests = .ok (answers, h') ∧ h'.Serving ∧
      h'.pool.count = h.pool.count ∧ h'.pool.maxSlots = h.pool.maxSlots := by
  induction requests generalizing h with
  | nil => exact ⟨[], h, rfl, hs, rfl, rfl⟩
  | cons r rest ih =>
    obtain ⟨hr, hrest⟩ := List.forall_mem_cons.1 hrequests
    obtain ⟨granted, next, hserve, hnext, hcount, hmax, -⟩ := serve_spec hs hr
    obtain ⟨answers, last, hall, hlast, hcount', hmax'⟩ := ih hnext hrest
    refine ⟨granted :: answers, last, ?_, hlast, hcount'.trans hcount, hmax'.trans hmax⟩
    simp only [serveAll, hserve, hall, bind, Except.bind, pure, Except.pure]

theorem serving_create {count slots : Nat} (hslots : slots < Word.bound)
    (hcreate : create count slots = .ok h) :
    h.Serving ∧ h.pool.count = count ∧ h.pool.maxSlots = slots := by
  obtain ⟨hbalanced, hheld, hcount, hmax⟩ := balanced_create 4294967296 hcreate
  refine ⟨⟨hbalanced, ?_, ?_⟩, hcount, hmax⟩
  · simp [hheld]
  · rwa [hmax]

/-- Every run of requests to a fresh pool is served, and the books agree after it.  So is
the next request, and it changes nothing if it is refused. -/
theorem serveAll_accounted {count slots : Nat} (hslots : slots < Word.bound) {fresh : Holdings}
    (hcreate : create count slots = .ok fresh) {requests : List Request}
    (hrequests : ∀ r ∈ requests, r.Numbered) :
    ∃ answers h, fresh.serveAll requests = .ok (answers, h) ∧ h.Accounted count slots ∧
      ∀ r : Request, r.Numbered →
        ∃ granted h', h.serve r = .ok (granted, h') ∧ h.Serves r granted h' := by
  obtain ⟨hserving, hcount, hmax⟩ := serving_create hslots hcreate
  obtain ⟨answers, h, hall, hs, hcount', hmax'⟩ := serveAll_spec hserving hrequests
  refine ⟨answers, h, hall, ?_, ?_⟩
  · have haccounted := hs.balanced.accounted
    rwa [hcount', hmax', hcount, hmax] at haccounted
  · intro r hr
    obtain ⟨granted, h', hserve, -, -, -, hserves⟩ := serve_spec hs hr
    exact ⟨granted, h', hserve, hserves⟩

/-- Two barriers of three slots.  Task 7 asks twice and returns twice, and task 9 has to
wait until task 7 has returned its slots. -/
theorem serveAll_accounted_crowded :
    ∃ fresh h, create 2 3 = .ok fresh ∧
      fresh.serveAll [.acquire 7 2, .acquire 7 1, .acquire 8 2, .acquire 9 3, .release 7,
        .release 7, .acquire 9 3] = .ok ([true, false, true, false, true, false, true], h) ∧
      h.Accounted 2 3 ∧
      ∀ r : Request, r.Numbered →
        ∃ granted h', h.serve r = .ok (granted, h') ∧ h.Serves r granted h' := by
  have hcreate : create 2 3 = .ok ⟨⟨[⟨3, false, 1⟩, ⟨3, false, 2⟩],
      [⟨3, false, 1⟩, ⟨3, false, 2⟩], 3⟩, []⟩ := rfl
  obtain ⟨answers, h, hall, haccounted, hnext⟩ := @serveAll_accounted 2 3 (by decide) _ hcreate
    [.acquire 7 2, .acquire 7 1, .acquire 8 2, .acquire 9 3, .release 7, .release 7,
      .acquire 9 3] (by decide)
  have hanswers : answers = [true, false, true, false, true, false, true] :=
    (congrArg Prod.fst (Except.ok.inj hall)).symm
  rw [hanswers] at hall
  exact ⟨_, h, hcreate, hall, haccounted, hnext⟩

end TaskLoom.Holdings
