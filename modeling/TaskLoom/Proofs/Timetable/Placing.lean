import Mathlib.Data.List.Forall2
import TaskLoom.Proofs.Barrier.Pool
import TaskLoom.Proofs.Memory.FirstFit
import TaskLoom.Timetable.Listing

/-!
# Placing one task

What it takes to place a task in a step, and what it gives back at the end of it.
If looking ahead finds room, reserving cannot fail, and each scratch buffer gets one
interval as long as its size rounded up.  Giving the intervals and the slots back
restores what was there before.

## Main results

* `Task.mem_requests`, `Task.nodup_requests`, `Task.sizes_requests` — what a task asks
  for.
* `reserveAll_spec`, `giveBack_spec` — scratch memory.
* `takeSlots_spec` — barrier slots.
* `Placement.Fits.of_serves` — one interval for each scratch buffer.
-/

namespace TaskLoom

/-! ## Requests -/

namespace Task

/-- The requests of buffers that stand from position `k` on. -/
private theorem mem_filterMap_zipIdx {buffers : List Buffer} {k i size : Nat} :
    (i, size) ∈ (buffers.zipIdx k).filterMap (fun (b, i) =>
        if b.space = .cmx then some (i, b.size) else none) ↔
      ∃ b, k ≤ i ∧ buffers[i - k]? = some b ∧ b.space = .cmx ∧ b.size = size := by
  rw [List.mem_filterMap]
  constructor
  · rintro ⟨⟨b, j⟩, hmem, hsome⟩
    simp only [Option.ite_none_right_eq_some, Option.some.injEq, Prod.mk.injEq] at hsome
    obtain ⟨hspace, rfl, hsize⟩ := hsome
    obtain ⟨hle, hget⟩ := List.mk_mem_zipIdx_iff_le_and_getElem?_sub.1 hmem
    exact ⟨b, hle, hget, hspace, hsize⟩
  · rintro ⟨b, hle, hget, hspace, hsize⟩
    refine ⟨(b, i), List.mk_mem_zipIdx_iff_le_and_getElem?_sub.2 ⟨hle, hget⟩, ?_⟩
    simp [hspace, hsize]

private theorem requests_perm (t : Task) : t.requests.Perm (t.buffers.zipIdx.filterMap
    fun (b, i) => if b.space = .cmx then some (i, b.size) else none) :=
  List.mergeSort_perm _ _

/-- A task asks for the size of each of its scratch buffers. -/
theorem mem_requests {t : Task} {i size : Nat} :
    (i, size) ∈ t.requests ↔
      ∃ b, t.buffers[i]? = some b ∧ b.space = .cmx ∧ b.size = size := by
  rw [t.requests_perm.mem_iff, mem_filterMap_zipIdx]
  simp

/-- The positions of the scratch buffers. -/
theorem mem_positions {t : Task} {k : Nat} :
    k ∈ t.requests.map (·.1) ↔ ∃ b, t.buffers[k]? = some b ∧ b.space = .cmx := by
  rw [List.mem_map]
  constructor
  · rintro ⟨⟨j, size⟩, hrequest, rfl⟩
    obtain ⟨b, hget, hspace, -⟩ := mem_requests.1 hrequest
    exact ⟨b, hget, hspace⟩
  · rintro ⟨b, hget, hspace⟩
    exact ⟨(k, b.size), mem_requests.2 ⟨b, hget, hspace, rfl⟩, rfl⟩

/-- No buffer is asked for twice. -/
theorem nodup_requests (t : Task) : (t.requests.map (·.1)).Nodup := by
  rw [(t.requests_perm.map _).nodup_iff]
  have hpositions : ∀ (buffers : List Buffer) (k : Nat),
      (((buffers.zipIdx k).filterMap fun (b, i) =>
        if b.space = .cmx then some (i, b.size) else none).map (·.1)).Nodup := by
    intro buffers
    induction buffers with
    | nil => intro k; simp
    | cons b buffers ih =>
      intro k
      rw [List.zipIdx_cons]
      by_cases hspace : b.space = .cmx
      · rw [List.filterMap_cons_some (by simp [hspace]; rfl), List.map_cons, List.nodup_cons]
        refine ⟨?_, ih (k + 1)⟩
        intro hmem
        obtain ⟨⟨i, size⟩, hi, hik⟩ := List.mem_map.1 hmem
        obtain ⟨-, hle, -⟩ := mem_filterMap_zipIdx.1 hi
        simp only at hik
        omega
      · rw [List.filterMap_cons_none (by simp [hspace])]
        exact ih (k + 1)
  exact hpositions t.buffers 0

/-- The sizes that a task asks for are those of its scratch buffers. -/
theorem sizes_requests (t : Task) : (t.requests.map (·.2)).Perm (t.sizesIn .cmx) := by
  refine (t.requests_perm.map _).trans (List.Perm.of_eq ?_)
  have hsizes : ∀ (buffers : List Buffer) (k : Nat),
      ((buffers.zipIdx k).filterMap fun (b, i) =>
        if b.space = .cmx then some (i, b.size) else none).map (·.2) =
        (buffers.filter (·.space == .cmx)).map (·.size) := by
    intro buffers
    induction buffers with
    | nil => intro k; simp
    | cons b buffers ih =>
      intro k
      rw [List.zipIdx_cons]
      by_cases hspace : b.space = .cmx
      · rw [List.filterMap_cons_some (by simp [hspace]; rfl), List.map_cons, ih (k + 1)]
        simp [hspace]
      · rw [List.filterMap_cons_none (by simp [hspace]), ih (k + 1)]
        simp [hspace]
  exact hsizes t.buffers 0

end Task

/-! ## Scratch memory -/

/-- The interval serves a request: it is for the same buffer, and as long as the size
rounded up. -/
def Interval.Serves (alignment : Nat) (i : Interval) (request : Nat × Nat) : Prop :=
  i.buffer = request.1 ∧ i.stop = i.start + Word.alignUp request.2 alignment

/-- The ranges of the intervals that are not empty. -/
def heldRanges (intervals : List Interval) : List ByteRange :=
  (intervals.filter (!·.isEmpty)).map Interval.range

theorem heldRanges_cons (i : Interval) (intervals : List Interval) :
    heldRanges (i :: intervals) =
      (if i.start = i.stop then [] else [i.range]) ++ heldRanges intervals := by
  unfold heldRanges
  by_cases heq : i.start = i.stop <;> simp [Interval.isEmpty, heq]

namespace ListScheduler.Run

/-- Looking ahead depends on the allocator only by its alignment. -/
theorem serveAll_congr (m : FirstFit) {m' : FirstFit} (halign : m'.alignment = m.alignment)
    (rooms sizes : List Nat) : m'.serveAll rooms sizes = m.serveAll rooms sizes := by
  induction sizes generalizing rooms with
  | nil => rfl
  | cons size sizes ih =>
    simp only [FirstFit.serveAll, FirstFit.aligned, halign, ih]

/-- One request that is served ahead can be reserved. -/
theorem reserve_of_serveAll {m : FirstFit} {rooms sizes : List Nat} {size : Nat}
    (hrooms : rooms.filter (0 < ·) = m.free.map ByteRange.length)
    (hserve : m.serveAll rooms (size :: sizes) = .ok true) :
    ∃ r m' rooms', m.reserve size = .ok (some (r, m')) ∧ m'.serveAll rooms' sizes = .ok true ∧
      rooms'.filter (0 < ·) = m'.free.map ByteRange.length := by
  unfold FirstFit.serveAll at hserve
  cases haligned : m.aligned size with
  | error fault => simp [haligned, bind, Except.bind] at hserve
  | ok k =>
    simp only [haligned, bind, Except.bind] at hserve
    split at hserve
    · next hzero =>
      refine ⟨⟨0, 0⟩, m, rooms, ?_, hserve, hrooms⟩
      simp [FirstFit.reserve, haligned, hzero, bind, Except.bind, pure, Except.pure]
    · next hpos =>
      have hk : 0 < k := by omega
      have hagree := FirstFit.takeRoom_eq_carve hk hrooms
      cases htake : FirstFit.takeRoom k rooms with
      | none => simp [htake, pure, Except.pure] at hserve
      | some rooms' =>
        rw [htake] at hagree hserve
        cases hcarve : FirstFit.carve k m.free with
        | none => simp [hcarve] at hagree
        | some cut =>
          rw [hcarve] at hagree
          refine ⟨cut.1, { m with
            free := cut.2, used := m.used + k, peak := max m.peak (m.used + k) }, rooms', ?_, ?_,
            Option.some.inj hagree⟩
          · simp [FirstFit.reserve, haligned, hpos, hcarve, bind, Except.bind, pure, Except.pure]
          · refine (serveAll_congr m ?_ rooms' sizes).trans hserve
            rfl

/-- If looking ahead finds room, each request gets its interval. -/
theorem reserveAll_spec {m : FirstFit} {live : List ByteRange} (h : m.Holds live)
    {rooms : List Nat} (hrooms : rooms.filter (0 < ·) = m.free.map ByteRange.length)
    {requests : List (Nat × Nat)} (hserve : m.serveAll rooms (requests.map (·.2)) = .ok true) :
    ∃ intervals m', reserveAll m requests = .ok (intervals, m') ∧
      List.Forall₂ (Interval.Serves m.alignment) intervals requests ∧
      m'.Holds (heldRanges intervals ++ live) ∧ m'.capacity = m.capacity ∧
      m'.alignment = m.alignment := by
  induction requests generalizing m live rooms with
  | nil => exact ⟨[], m, rfl, .nil, h, rfl, rfl⟩
  | cons request requests ih =>
    obtain ⟨buffer, size⟩ := request
    obtain ⟨r, m₁, rooms₁, hreserve, hserve₁, hrooms₁⟩ := reserve_of_serveAll hrooms hserve
    obtain ⟨hlength, hcapacity, halignment, hholds⟩ := h.reserve hreserve
    obtain ⟨intervals, m', hreserveAll, hserves, hholds', hcapacity', halignment'⟩ :=
      ih hholds hrooms₁ hserve₁
    rw [halignment] at hserves
    refine ⟨⟨buffer, r.start, r.stop⟩ :: intervals, m', ?_, .cons ⟨rfl, hlength⟩ hserves, ?_,
      hcapacity'.trans hcapacity, halignment'.trans halignment⟩
    · simp only [reserveAll, hreserve, hreserveAll, bind, Except.bind, pure, Except.pure]
    · refine hholds'.perm ?_
      rw [heldRanges_cons]
      by_cases hempty : r.start = r.stop
      · simp [hempty]
      · simp only [hempty, if_false, Interval.range]
        exact List.perm_middle

/-- Intervals that are live can be given back. -/
theorem giveBack_spec {m : FirstFit} {live : List ByteRange} {intervals : List Interval}
    (hforward : ∀ i ∈ intervals, i.start ≤ i.stop) (h : m.Holds (heldRanges intervals ++ live)) :
    ∃ m', giveBack m intervals = .ok m' ∧ m'.Holds live ∧ m'.capacity = m.capacity ∧
      m'.alignment = m.alignment := by
  induction intervals generalizing m with
  | nil => exact ⟨m, rfl, h, rfl, rfl⟩
  | cons i intervals ih =>
    obtain ⟨hi, hforward⟩ := List.forall_mem_cons.1 hforward
    rw [heldRanges_cons] at h
    by_cases hempty : i.start = i.stop
    · have hrelease : m.release i.range = .ok m := by
        unfold FirstFit.release
        rw [if_pos (by simp only [Interval.range]; omega)]
      rw [if_pos hempty, List.nil_append] at h
      obtain ⟨m', hgive, hrest⟩ := ih hforward h
      exact ⟨m', by simp only [giveBack, hrelease, bind, Except.bind, hgive], hrest⟩
    · rw [if_neg hempty] at h
      obtain ⟨m₁, hrelease, hholds, hcapacity, halignment⟩ := h.release
      obtain ⟨m', hgive, hholds', hcapacity', halignment'⟩ := ih hforward hholds
      exact ⟨m', by simp only [giveBack, hrelease, bind, Except.bind, hgive], hholds',
        hcapacity'.trans hcapacity, halignment'.trans halignment⟩

/-! ## Barrier slots -/

/-- What a task holds on a barrier, if it produces on one. -/
def holding (task slots : Nat) (barrier : Option BarrierId) : Option (Nat × Holding) :=
  barrier.map fun b => (task, ⟨b, slots⟩)

/-- A task takes the slots that it needs on one barrier, if it needs any. -/
theorem takeSlots_spec {h : Holdings} {limit task demand : Nat} (hb : h.Balanced limit)
    (hfree : task ∉ h.held.map (·.1)) (hroom : demand = 0 ∨ h.hasRoom demand = true)
    (hlength : 0 < demand → h.held.length < limit) (hlimit : limit < Word.bound - 1) :
    ∃ barrier h', takeSlots h task demand = .ok (barrier, h') ∧ h'.Balanced limit ∧
      (barrier.isSome = true ↔ 0 < demand) ∧
      h'.held = (holding task demand barrier).toList ++ h.held ∧
      h'.pool.maxSlots = h.pool.maxSlots ∧ h'.pool.count = h.pool.count := by
  unfold takeSlots
  by_cases hzero : demand = 0
  · exact ⟨none, h, by simp [hzero], hb, by simp [hzero], rfl, rfl, rfl⟩
  · obtain ⟨b, h', hacquire, hb', hheld, hmax, hcount⟩ :=
      hb.acquire hfree (hroom.resolve_left hzero) (hlength (Nat.pos_of_ne_zero hzero)) hlimit
    have hfind : h'.find? task = some ⟨b, demand⟩ :=
      Holdings.find?_eq_some hb' (by rw [hheld]; exact List.mem_cons_self)
    refine ⟨some b, h', ?_, hb', ?_, hheld, hmax, hcount⟩
    · simp [hzero, hacquire, hfind, bind, Except.bind, pure, Except.pure]
    · simp only [Option.isSome_some, true_iff]
      omega

end ListScheduler.Run

/-! ## Placements -/

namespace Placement

/-- What a placement holds on a barrier. -/
def holding? (p : Placement) : Option (Nat × Holding) :=
  ListScheduler.Run.holding p.task p.slots p.barrier

/-- The placement gives a task what it needs: slots on a barrier of the pool, and one
interval for each scratch buffer, as long as its size rounded up. -/
structure Fits (settings : Settings) (t : Task) (p : Placement) : Prop where
  slots_eq : p.slots = t.demand
  barrier_iff : p.barrier.isSome = true ↔ 0 < t.demand
  barrier_mem : ∀ b, p.barrier = some b → 1 ≤ b.number ∧ b.number ≤ settings.barrierCount
  nodup_buffers : (p.ranges.map (·.buffer)).Nodup
  mem_buffers : ∀ k, k ∈ p.ranges.map (·.buffer) ↔
    ∃ b, t.buffers[k]? = some b ∧ b.space = .cmx
  length_eq : ∀ i ∈ p.ranges, ∀ b, t.buffers[i.buffer]? = some b →
    i.stop = i.start + Word.alignUp b.size settings.alignment

theorem map_buffer_eq {alignment : Nat} {intervals : List Interval} {requests : List (Nat × Nat)}
    (h : List.Forall₂ (Interval.Serves alignment) intervals requests) :
    intervals.map (·.buffer) = requests.map (·.1) := by
  induction h with
  | nil => rfl
  | cons hserves _ ih => rw [List.map_cons, List.map_cons, hserves.1, ih]

theorem exists_request {alignment : Nat} {intervals : List Interval} {requests : List (Nat × Nat)}
    (h : List.Forall₂ (Interval.Serves alignment) intervals requests) {i : Interval}
    (hi : i ∈ intervals) : ∃ request ∈ requests, i.Serves alignment request := by
  induction h with
  | nil => cases hi
  | cons hserves _ ih =>
    rcases List.mem_cons.1 hi with rfl | hi
    · exact ⟨_, List.mem_cons_self, hserves⟩
    · obtain ⟨request, hrequest, hserves⟩ := ih hi
      exact ⟨request, List.mem_cons_of_mem _ hrequest, hserves⟩

/-- Intervals that serve the requests of a task fit its scratch buffers. -/
theorem Fits.of_serves {settings : Settings} {t : Task} {p : Placement}
    (hslots : p.slots = t.demand) (hbarrier : p.barrier.isSome = true ↔ 0 < t.demand)
    (hnumber : ∀ b, p.barrier = some b → 1 ≤ b.number ∧ b.number ≤ settings.barrierCount)
    (hserves : List.Forall₂ (Interval.Serves settings.alignment) p.ranges t.requests) :
    p.Fits settings t := by
  have hbuffers := map_buffer_eq hserves
  refine ⟨hslots, hbarrier, hnumber, hbuffers ▸ t.nodup_requests, ?_, ?_⟩
  · intro k
    rw [hbuffers]
    exact Task.mem_positions
  · intro i hi b hget
    obtain ⟨⟨j, size⟩, hrequest, hbuffer, hstop⟩ := exists_request hserves hi
    obtain ⟨b', hget', -, rfl⟩ := Task.mem_requests.1 hrequest
    simp only at hbuffer hstop
    rw [hbuffer, hget'] at hget
    rw [hstop, Option.some.inj hget]

/-- Intervals that fit never stop before they start. -/
theorem Fits.start_le {settings : Settings} {t : Task} {p : Placement} (h : p.Fits settings t)
    {i : Interval} (hi : i ∈ p.ranges) : i.start ≤ i.stop := by
  obtain ⟨b, hget, -⟩ := (h.mem_buffers i.buffer).1 (List.mem_map_of_mem hi)
  rw [h.length_eq i hi b hget]
  exact Nat.le_add_right _ _

/-- Intervals that fit are as long as the sizes of the scratch buffers rounded up. -/
theorem Fits.lengths_perm {settings : Settings} {t : Task} {p : Placement}
    (h : p.Fits settings t) :
    (p.ranges.map fun i => i.range.length).Perm
      ((t.sizesIn .cmx).map (Word.alignUp · settings.alignment)) := by
  -- the rounded size of a buffer by its position
  let rounded : Nat → Nat := fun k =>
    Word.alignUp ((t.buffers[k]?.map (·.size)).getD 0) settings.alignment
  have hranges : (p.ranges.map fun i => i.range.length) =
      (p.ranges.map (·.buffer)).map rounded := by
    rw [List.map_map]
    refine List.map_congr_left fun i hi => ?_
    obtain ⟨b, hget, -⟩ := (h.mem_buffers i.buffer).1 (List.mem_map_of_mem hi)
    simp [rounded, hget, Interval.range, ByteRange.length, h.length_eq i hi b hget]
  have hrequests : t.requests.map (fun r => Word.alignUp r.2 settings.alignment) =
      (t.requests.map (·.1)).map rounded := by
    rw [List.map_map]
    refine List.map_congr_left fun ⟨k, size⟩ hr => ?_
    obtain ⟨b, hget, -, rfl⟩ := Task.mem_requests.1 hr
    simp [rounded, hget]
  have hbuffers : (p.ranges.map (·.buffer)).Perm (t.requests.map (·.1)) := by
    refine (List.perm_ext_iff_of_nodup h.nodup_buffers t.nodup_requests).2 fun k => ?_
    rw [h.mem_buffers, Task.mem_positions]
  have hsizes := (Task.sizes_requests t).map (Word.alignUp · settings.alignment)
  rw [List.map_map] at hsizes
  rw [hranges]
  exact (hbuffers.map rounded).trans (hrequests ▸ hsizes)

end Placement

end TaskLoom
