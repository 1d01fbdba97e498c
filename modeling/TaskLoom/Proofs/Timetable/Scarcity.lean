import TaskLoom.Proofs.Timetable.Rounding

/-!
# What does not fit a step

A task that does not fit the current step does not fit it later either.  This is not so
for first fit in general: with several free ranges, taking one away can send a request to
a range where it leaves more for the next one.  But every step starts with all memory
free and only ever takes from the front, so within a step the free memory is one range
that shrinks.  The free slots of each barrier shrink as well.

With one free range, looking ahead fails at the first request that takes the sum of the
rounded sizes past the room, so it needs no assumption on sizes: a request behind that
one is not rounded, and with less room the failure only comes earlier.

## Main results

* `FirstFit.canReserve_reserveAll` — less memory serves no more requests.
* `Holdings.Balanced.hasRoom_of_slotsOn_le` — fewer slots serve no more demands.
* `fits_place` — placing a task makes room for no other.
* `not_fitsAlone` — what does not fit the empty hardware does not fit alone.
-/

namespace TaskLoom

/-! ## Scratch memory -/

namespace FirstFit

variable {m m' : FirstFit}

/-- The bytes that are free. -/
def room (m : FirstFit) : Nat :=
  Word.total (m.free.map ByteRange.length)

/-- No memory serves what an empty room serves. -/
theorem serveAll_nil (m : FirstFit) (sizes : List Nat) :
    m.serveAll [] sizes = m.serveAll [0] sizes := by
  induction sizes with
  | nil => rfl
  | cons size sizes ih =>
    unfold serveAll
    cases m.aligned size with
    | error fault => rfl
    | ok k =>
      simp only [bind, Except.bind]
      split
      · exact ih
      · next hpos => simp [takeRoom, hpos]

/-- With at most one free range, looking ahead only follows how much is free. -/
theorem canReserve_eq_serveAll (h : m.free.length ≤ 1) (sizes : List Nat) :
    m.canReserve sizes = m.serveAll [m.room] sizes := by
  unfold canReserve room
  match hfree : m.free with
  | [] => exact serveAll_nil m sizes
  | [r] => rfl
  | r :: q :: rest =>
    rw [hfree] at h
    simp at h

/-- One room that takes in nothing more, if it is smaller. -/
theorem serveAll_single_false {room room' : Nat} (hle : room' ≤ room) {sizes : List Nat}
    (h : m.serveAll [room] sizes = .ok false) : m.serveAll [room'] sizes = .ok false := by
  induction sizes generalizing room room' with
  | nil => cases h
  | cons size sizes ih =>
    unfold serveAll at h ⊢
    cases haligned : m.aligned size with
    | error fault => simp [haligned, bind, Except.bind] at h
    | ok k =>
      simp only [haligned, bind, Except.bind, takeRoom] at h ⊢
      by_cases hzero : k = 0
      · rw [if_pos hzero] at h ⊢
        exact ih hle h
      rw [if_neg hzero] at h ⊢
      by_cases hfits : k ≤ room'
      · simp only [if_pos hfits, if_pos (Nat.le_trans hfits hle)] at h ⊢
        exact ih (Nat.sub_le_sub_right hle k) h
      · simp only [if_neg hfits, Option.map_none]
        rfl

/-- Looking ahead into one room fails only if the rounded sizes exceed it. -/
theorem lt_total_of_serveAll {room : Nat} {sizes : List Nat}
    (h : m.serveAll [room] sizes = .ok false) :
    room < Word.total (sizes.map (Word.alignUp · m.alignment)) := by
  induction sizes generalizing room with
  | nil => cases h
  | cons size sizes ih =>
    unfold serveAll at h
    cases haligned : m.aligned size with
    | error fault => simp [haligned, bind, Except.bind] at h
    | ok k =>
      have hk : k = Word.alignUp size m.alignment := Word.eq_alignUp_of_roundUp haligned
      simp only [haligned, bind, Except.bind, takeRoom] at h
      rw [List.map_cons, Word.total_cons, ← hk]
      by_cases hzero : k = 0
      · rw [if_pos hzero] at h
        have hlt := ih h
        omega
      rw [if_neg hzero] at h
      by_cases hfits : k ≤ room
      · simp only [if_pos hfits] at h
        have hlt := ih h
        omega
      · omega

/-- Looking ahead fails only by a size that leaves the word when it is rounded up. -/
theorem overflow_of_serveAll {rooms sizes : List Nat} {fault : Fault}
    (h : m.serveAll rooms sizes = .error fault) : fault = .overflow := by
  induction sizes generalizing rooms with
  | nil => cases h
  | cons size sizes ih =>
    unfold serveAll at h
    cases haligned : m.aligned size with
    | error fault' =>
      simp only [haligned, bind, Except.bind] at h
      cases h
      exact Word.overflow_of_roundUp haligned
    | ok k =>
      simp only [haligned, bind, Except.bind] at h
      split at h
      · exact ih h
      · split at h
        · exact ih h
        · cases h

/-- Reserving keeps at most one range free, and never frees anything. -/
theorem room_reserve (h : m.free.length ≤ 1) {size : Nat} {r : ByteRange}
    (hreserve : m.reserve size = .ok (some (r, m'))) :
    m'.free.length ≤ 1 ∧ m'.room ≤ m.room := by
  unfold reserve at hreserve
  cases haligned : m.aligned size with
  | error fault => simp [haligned, bind, Except.bind] at hreserve
  | ok k =>
    simp only [haligned, bind, Except.bind, pure, Except.pure] at hreserve
    split at hreserve
    · cases hreserve
      exact ⟨h, Nat.le_refl _⟩
    · split at hreserve
      · cases hreserve
      · next taken left hcarve =>
        cases hreserve
        show left.length ≤ 1 ∧ Word.total (left.map ByteRange.length) ≤ m.room
        unfold room
        match hfree : m.free with
        | [] =>
          rw [hfree] at hcarve
          cases hcarve
        | [q] =>
          rw [hfree] at hcarve
          simp only [carve, Option.map_none] at hcarve
          split at hcarve
          · split at hcarve
            · cases hcarve
              simp
            · cases hcarve
              simp [ByteRange.length]
              omega
          · cases hcarve
        | q :: q' :: rest =>
          rw [hfree] at h
          simp at h

theorem room_reserveAll (h : m.free.length ≤ 1) {requests : List (Nat × Nat)}
    {intervals : List Interval}
    (hreserve : ListScheduler.Run.reserveAll m requests = .ok (intervals, m')) :
    m'.free.length ≤ 1 ∧ m'.room ≤ m.room := by
  induction requests generalizing m intervals with
  | nil =>
    cases hreserve
    exact ⟨h, Nat.le_refl _⟩
  | cons request requests ih =>
    simp only [ListScheduler.Run.reserveAll, bind, Except.bind] at hreserve
    split at hreserve
    · cases hreserve
    · next reserved hfirst =>
      cases reserved with
      | none => cases hreserve
      | some taken =>
        simp only at hreserve
        split at hreserve
        · cases hreserve
        · next rest hrest =>
          cases hreserve
          obtain ⟨hone, hle⟩ := room_reserve h hfirst
          obtain ⟨hone', hle'⟩ := ih hone hrest
          exact ⟨hone', Nat.le_trans hle' hle⟩

/-- What is not served before memory is reserved is not served after it. -/
theorem canReserve_reserveAll (h : m.free.length ≤ 1) {requests : List (Nat × Nat)}
    {intervals : List Interval}
    (hreserve : ListScheduler.Run.reserveAll m requests = .ok (intervals, m')) {sizes : List Nat}
    (hcan : m.canReserve sizes = .ok false) : m'.canReserve sizes = .ok false := by
  obtain ⟨hone, hle⟩ := room_reserveAll h hreserve
  rw [canReserve_eq_serveAll h] at hcan
  rw [canReserve_eq_serveAll hone, ListScheduler.Run.serveAll_congr m
    (ListScheduler.Run.alignment_reserveAll hreserve)]
  exact serveAll_single_false hle hcan

end FirstFit

/-! ## Barrier slots -/

/-- Where every barrier has more slots taken, no more demands are met. -/
theorem Holdings.Balanced.hasRoom_of_slotsOn_le {h h' : Holdings} {limit demand : Nat}
    (hb : h.Balanced limit) (hb' : h'.Balanced limit)
    (hmax : h'.pool.maxSlots = h.pool.maxSlots) (hcount : h'.pool.count = h.pool.count)
    (hle : ∀ number, slotsOn h.held number ≤ slotsOn h'.held number)
    (hroom : h'.hasRoom demand = true) : h.hasRoom demand = true := by
  by_contra hnone
  have hless : ∀ k ∈ h.pool.vacancies, k.available < demand := by
    refine (BarrierPool.pick_eq_none_iff hb.consistent).1 ?_
    simpa [hasRoom, BarrierPool.hasRoom] using hnone
  -- the same barrier before
  have hless' : ∀ k' ∈ h'.pool.vacancies, k'.available < demand := by
    intro k' hk'
    obtain ⟨i, hi⟩ := List.mem_iff_getElem?.1 hk'
    have hlt : i < h.pool.vacancies.length := by
      have hlt' := (List.getElem?_eq_some_iff.1 hi).1
      unfold BarrierPool.count at hcount
      omega
    obtain ⟨k, hk⟩ : ∃ k, h.pool.vacancies[i]? = some k := ⟨_, List.getElem?_eq_getElem hlt⟩
    have hmem := List.mem_of_getElem? hk
    have hbarrier : k.barrier = k'.barrier :=
      (hb.consistent.barrier_eq i k hk).trans (hb'.consistent.barrier_eq i k' hi).symm
    have hbalance := hb.balance k hmem
    have hbalance' := hb'.balance k' hk'
    have hslots := hle k.barrier
    have havailable := hless k hmem
    rw [hbarrier] at hbalance hslots
    omega
  have hpick := (BarrierPool.pick_eq_none_iff hb'.consistent).2 hless'
  simp [hasRoom, BarrierPool.hasRoom, hpick] at hroom

/-! ## Tasks -/

namespace ListScheduler

variable {s : ListScheduler} {r r' : Run}

/-- Whether a task fits what is free. -/
def fits (s : ListScheduler) (r : Run) (task : Nat) : Except Fault Bool :=
  let t := s.graph.task task
  if t.demand = 0 || r.barriers.hasRoom t.demand then
    r.memory.canReserve (t.requests.map (·.2))
  else
    .ok false

/-- The run after a check. -/
def checked (task : Nat) (r : Run) : Run :=
  { r.enter task .pending with checks := r.checks + 1 }

theorem check_eq (s : ListScheduler) (task : Nat) (r : Run) :
    s.check task r = match s.fits r task with
      | .ok fits => .done fits (checked task r)
      | .error fault => .failed fault (checked task r) := by
  unfold check fits checked
  simp only [Run.enter, Run.record]
  by_cases hroom : ((s.graph.task task).demand = 0 || r.barriers.hasRoom
      (s.graph.task task).demand) = true
  · cases r.memory.canReserve ((s.graph.task task).requests.map (·.2)) <;>
      simp only [hroom, if_true]
  · simp only [hroom, Bool.false_eq_true, if_false]

theorem fits_eq_true_iff {task : Nat} : s.fits r task = .ok true ↔ HasRoom s r task := by
  unfold fits HasRoom
  by_cases hroom : ((s.graph.task task).demand = 0 || r.barriers.hasRoom
      (s.graph.task task).demand) = true
  · have hroom' : (s.graph.task task).demand = 0 ∨
        r.barriers.hasRoom (s.graph.task task).demand = true := by simpa using hroom
    simp only [hroom, if_true, hroom', true_and]
  · have hroom' : ¬ ((s.graph.task task).demand = 0 ∨
        r.barriers.hasRoom (s.graph.task task).demand = true) := by simpa using hroom
    simp [hroom, hroom']

theorem overflow_of_fits {task : Nat} {fault : Fault} (h : s.fits r task = .error fault) :
    fault = .overflow := by
  unfold fits at h
  simp only at h
  split at h
  · exact FirstFit.overflow_of_serveAll h
  · cases h

/-- What does not fit although nothing runs does not fit the hardware alone. -/
theorem not_fitsAlone (h : Sound s r) (hvalid : s.settings.validate = .ok ())
    (hidle : r.running = []) {task : Nat} (hunfit : s.fits r task = .ok false) :
    ¬ (s.graph.task task).FitsAlone s.settings := by
  obtain ⟨hcmx, hbarriers, -, -⟩ := Settings.validate_eq_ok_iff.1 hvalid
  have hempty : r.memory.Holds [] := by
    have hholds := h.memory
    rwa [hidle] at hholds
  have hnone : r.barriers.held = [] := by
    have hperm := h.held_perm
    rw [hidle] at hperm
    exact hperm.eq_nil
  rintro ⟨hmemory, hslots⟩
  have hroom : r.barriers.hasRoom (s.graph.task task).demand = true := by
    rw [h.barriers.hasRoom_empty hnone (by rw [h.count_eq]; exact hbarriers), h.slots_eq]
    exact hslots
  have hcan : r.memory.serveAll [r.memory.capacity]
      ((s.graph.task task).requests.map (·.2)) = .ok false := by
    have hfree := hempty.free_eq (by rw [h.capacity_eq]; exact hcmx)
    simpa [fits, hroom, FirstFit.canReserve, hfree, ByteRange.length] using hunfit
  have hlt := FirstFit.lt_total_of_serveAll hcan
  rw [h.alignment_eq, h.capacity_eq, Word.total_perm ((Task.sizes_requests _).map _)] at hlt
  exact absurd hmemory (Nat.not_le.2 hlt)

/-- Placing a task takes slots from at most one barrier. -/
theorem slotsOn_le_of_running (h : Sound s r) (h' : Sound s r') {p : Placement}
    (hrunning : r'.running = p :: r.running) (number : Nat) :
    Holdings.slotsOn r.barriers.held number ≤ Holdings.slotsOn r'.barriers.held number := by
  rw [Holdings.slotsOn_perm h.held_perm, Holdings.slotsOn_perm h'.held_perm, hrunning]
  cases hholding : p.holding? with
  | none => rw [List.filterMap_cons_none hholding]
  | some x =>
    rw [List.filterMap_cons_some hholding, Holdings.slotsOn_cons]
    exact Nat.le_add_left _ _

/-- Placing a task makes room for no other, and keeps the free memory in one range. -/
theorem fits_place (h : Sound s r) (h' : Sound s r') (hone : r.memory.free.length ≤ 1) {task : Nat}
    (hplace : s.place task r = .done () r') :
    r'.memory.free.length ≤ 1 ∧
      ∀ other, s.fits r other = .ok false → s.fits r' other = .ok false := by
  obtain ⟨p, -, -, hreserve, hrunning, -⟩ := place_done hplace
  refine ⟨(FirstFit.room_reserveAll hone hreserve).1, fun other hunfit => ?_⟩
  have hmore : ∀ demand, r'.barriers.hasRoom demand = true → r.barriers.hasRoom demand = true :=
    fun demand => h.barriers.hasRoom_of_slotsOn_le h'.barriers (h'.slots_eq.trans h.slots_eq.symm)
      (h'.count_eq.trans h.count_eq.symm) (slotsOn_le_of_running h h' hrunning)
  unfold fits at hunfit ⊢
  by_cases hroom : ((s.graph.task other).demand = 0 || r'.barriers.hasRoom
      (s.graph.task other).demand) = true
  · -- a demand that is met now was met before, so memory was short
    have hbefore : ((s.graph.task other).demand = 0 || r.barriers.hasRoom
        (s.graph.task other).demand) = true := by
      rw [Bool.or_eq_true] at hroom ⊢
      exact hroom.imp_right (hmore _)
    simp only [hbefore, if_true] at hunfit
    simp only [hroom, if_true]
    exact FirstFit.canReserve_reserveAll hone hreserve hunfit
  · simp only [hroom, Bool.false_eq_true, if_false]

end ListScheduler

end TaskLoom
