import Mathlib.Order.Bounds.Basic
import TaskLoom.Proofs.Memory.FirstFit

/-!
# An allocator in use

A session is an allocator together with what its user knows: the ranges that were
handed out and not given back, and how many bytes were in use after each call.  The
user may ask for any size that can be rounded up, and may give back what is live.

Then no call fails.  The free memory is always what is not live, and since a list of
ranges that are ascending, not empty and not adjacent is determined by its addresses,
the free list depends on nothing but the live ranges: not on the order in which they
were handed out or given back.

Free ranges start at multiples of the alignment, because each starts at zero or where a
live range stops.  So first fit finds the lowest multiple of the alignment from which
enough bytes are free, and fails only if nowhere enough bytes in a row are free.

## Main results

* `canonical_ext` — canonical ranges are determined by their addresses.
* `Canonical.exists_within` — free bytes in a row lie in one free range.
* `carve_eq_none_iff`, `carve_isLeast` — where first fit cuts.
* `Kept.serve` — what every call keeps.
* `run_sound` — what holds after every run of calls.
-/

namespace TaskLoom

namespace ByteRange

/-! ## Canonical ranges -/

section Canonical

variable {r q : ByteRange} {rs qs : List ByteRange}

/-- Two of the ranges are the same, or there is a gap between them. -/
theorem Canonical.gap (h : Canonical rs) (hr : r ∈ rs) (hq : q ∈ rs) :
    r = q ∨ r.stop < q.start ∨ q.stop < r.start := by
  induction rs with
  | nil => cases hr
  | cons first rest ih =>
    obtain ⟨-, hfirst, hrest⟩ := canonical_cons.1 h
    rcases List.mem_cons.1 hr with rfl | hr'
    · rcases List.mem_cons.1 hq with rfl | hq'
      · exact Or.inl rfl
      · exact Or.inr (Or.inl (hfirst q hq'))
    · rcases List.mem_cons.1 hq with rfl | hq'
      · exact Or.inr (Or.inr (hfirst r hr'))
      · exact ih hrest hr' hq'

/-- Addresses in a row lie in one range: there is no range on the other side of its end
that could take over. -/
theorem Canonical.exists_within (h : Canonical rs) {offset size : Nat} (hsize : 0 < size)
    (hrun : ∀ x, offset ≤ x → x < offset + size → Covers rs x) :
    ∃ r ∈ rs, r.start ≤ offset ∧ offset + size ≤ r.stop := by
  obtain ⟨r, hr, hstart, hlt⟩ := hrun offset (Nat.le_refl _) (by omega)
  refine ⟨r, hr, hstart, ?_⟩
  by_contra hshort
  obtain ⟨q, hq, hle, hlt'⟩ := hrun r.stop (by omega) (by omega)
  rcases h.gap hr hq with rfl | hgap | hgap
  · omega
  · omega
  · omega

theorem Canonical.covers_start (h : Canonical (r :: rs)) : Covers (r :: rs) r.start :=
  covers_cons.2 (Or.inl ⟨Nat.le_refl _, (canonical_cons.1 h).1⟩)

/-- The first range holds the lowest addresses, and the address after it is in none. -/
theorem Canonical.first (h : Canonical (r :: rs)) :
    (∀ x, Covers (r :: rs) x → r.start ≤ x) ∧ ¬ Covers (r :: rs) r.stop ∧
      ∀ x, Covers rs x ↔ Covers (r :: rs) x ∧ r.stop ≤ x := by
  obtain ⟨hsolid, hfirst, -⟩ := canonical_cons.1 h
  unfold Solid at hsolid
  have hrest : ∀ x, Covers rs x → r.stop < x := by
    intro x hx
    obtain ⟨q, hq, hle, -⟩ := hx
    have hgap := hfirst q hq
    omega
  refine ⟨?_, ?_, ?_⟩
  · intro x hx
    cases covers_cons.1 hx with
    | inl hx => exact hx.1
    | inr hx =>
      have hlt := hrest x hx
      omega
  · intro hx
    cases covers_cons.1 hx with
    | inl hx => exact Nat.lt_irrefl _ hx.2
    | inr hx => exact Nat.lt_irrefl _ (hrest _ hx)
  · intro x
    rw [covers_cons]
    constructor
    · intro hx
      exact ⟨Or.inr hx, Nat.le_of_lt (hrest x hx)⟩
    · rintro ⟨hx | hx, hle⟩
      · exact absurd hx.2 (Nat.not_lt.2 hle)
      · exact hx

/-- The first ranges of two lists with the same addresses start and stop alike. -/
theorem Canonical.first_eq (hr : Canonical (r :: rs)) (hq : Canonical (q :: qs))
    (h : ∀ x, Covers (r :: rs) x ↔ Covers (q :: qs) x) : r = q := by
  have hsolid : r.start < r.stop := (canonical_cons.1 hr).1
  have hsolid' : q.start < q.stop := (canonical_cons.1 hq).1
  obtain ⟨hlow, hend, -⟩ := hr.first
  obtain ⟨hlow', hend', -⟩ := hq.first
  have hstart : r.start = q.start := by
    have hle := hlow q.start ((h _).2 hq.covers_start)
    have hge := hlow' r.start ((h _).1 hr.covers_start)
    omega
  -- neither can stop inside the other
  have hstop : r.stop = q.stop := by
    by_contra hne
    rcases Nat.lt_or_gt_of_ne hne with hlt | hgt
    · apply hend
      exact (h _).2 (covers_cons.2 (Or.inl ⟨by omega, hlt⟩))
    · apply hend'
      exact (h _).1 (covers_cons.2 (Or.inl ⟨by omega, hgt⟩))
  cases r
  cases q
  simp only at hstart hstop
  rw [hstart, hstop]

/-- Canonical ranges are determined by their addresses. -/
theorem canonical_ext (hr : Canonical rs) (hq : Canonical qs)
    (h : ∀ x, Covers rs x ↔ Covers qs x) : rs = qs := by
  induction rs generalizing qs with
  | nil =>
    cases qs with
    | nil => rfl
    | cons q qs => exact absurd ((h q.start).2 hq.covers_start) covers_nil
  | cons r rs ih =>
    cases qs with
    | nil => exact absurd ((h r.start).1 hr.covers_start) covers_nil
    | cons q qs =>
      obtain rfl := hr.first_eq hq h
      congr 1
      apply ih (canonical_cons.1 hr).2.2 (canonical_cons.1 hq).2.2
      intro x
      rw [hr.first.2.2 x, hq.first.2.2 x, h x]

end Canonical

end ByteRange

namespace FirstFit

open ByteRange

/-! ## Where first fit cuts -/

section Carve

variable {size : Nat} {free left : List ByteRange} {taken : ByteRange}

/-- Nothing is cut off exactly if every range is too short. -/
theorem carve_eq_none_iff : carve size free = none ↔ ∀ r ∈ free, r.length < size := by
  induction free with
  | nil => simp [carve]
  | cons r rest ih =>
    unfold carve
    by_cases hle : size ≤ r.length
    · simp [hle]
    · rw [if_neg hle, Option.map_eq_none_iff, ih, List.forall_mem_cons]
      exact ⟨fun h => ⟨by omega, h⟩, fun h => h.2⟩

/-- No range that is long enough starts below what is cut off. -/
theorem start_le_of_carve (hfree : Canonical free) (h : carve size free = some (taken, left))
    {r : ByteRange} (hr : r ∈ free) (hle : size ≤ r.length) : taken.start ≤ r.start := by
  induction free generalizing left with
  | nil => cases hr
  | cons first rest ih =>
    obtain ⟨hsolid, hfirst, hrest⟩ := canonical_cons.1 hfree
    unfold Solid at hsolid
    unfold carve at h
    split at h
    · -- the first range is cut, and it starts lowest
      obtain rfl := (Prod.mk.inj (Option.some.inj h)).1
      show first.start ≤ r.start
      rcases List.mem_cons.1 hr with rfl | hr
      · exact Nat.le_refl _
      · have hgap := hfirst r hr
        omega
    · next hshort =>
      obtain ⟨cut, hcut, heq⟩ := Option.map_eq_some_iff.1 h
      obtain rfl := (Prod.mk.inj heq).1
      rcases List.mem_cons.1 hr with rfl | hr
      · exact absurd hle hshort
      · exact ih hrest hcut hr

/-- All addresses of a row are in the ranges. -/
def Row (free : List ByteRange) (size offset : Nat) : Prop :=
  ∀ x, offset ≤ x → x < offset + size → Covers free x

/-- Nothing is cut off exactly if there is no row that is long enough. -/
theorem carve_eq_none_iff_row (hfree : Canonical free) (hsize : 0 < size) :
    carve size free = none ↔ ∀ offset, ¬ Row free size offset := by
  rw [carve_eq_none_iff]
  constructor
  · intro hshort offset hrow
    obtain ⟨r, hr, hstart, hstop⟩ := hfree.exists_within hsize hrow
    have hlt := hshort r hr
    unfold length at hlt
    omega
  · intro hnone r hr
    by_contra hlong
    unfold length at hlong
    apply hnone r.start
    intro x hle hlt
    exact ⟨r, hr, hle, by omega⟩

/-- What is cut off is the lowest row that is long enough, and it is the start of a free
range. -/
theorem carve_isLeast (hfree : Canonical free) (hsize : 0 < size)
    (h : carve size free = some (taken, left)) :
    IsLeast {offset | Row free size offset} taken.start ∧
      ∃ r ∈ free, r.start = taken.start := by
  have hcut := carve_spec hfree h
  have hstop := hcut.taken_stop
  obtain ⟨r, hr, hstart, hend⟩ := hcut.taken_within
  refine ⟨⟨?_, ?_⟩, r, hr, ?_⟩
  · intro x hle hlt
    exact (hcut.covers x).2 (Or.inl ⟨hle, by omega⟩)
  · intro offset hrow
    obtain ⟨q, hq, hqstart, hqend⟩ := hfree.exists_within hsize hrow
    have hle := start_le_of_carve hfree h hq (by unfold length; omega)
    omega
  · have hle := start_le_of_carve hfree h hr (by unfold length; omega)
    omega

/-- An answer to a request for bytes in a row. -/
structure Finds (free : List ByteRange) (alignment size : Nat)
    (answer : Option (ByteRange × FirstFit)) : Prop where
  none_iff : answer = none ↔ ∀ offset, ¬ Row free size offset
  stop_eq : ∀ r m, answer = some (r, m) → r.stop = r.start + size
  isLeast : ∀ r m, answer = some (r, m) →
    IsLeast {offset | alignment ∣ offset ∧ Row free size offset} r.start

theorem finds_zero (free : List ByteRange) (alignment : Nat) (m : FirstFit) :
    Finds free alignment 0 (some (⟨0, 0⟩, m)) := by
  have hrow : ∀ offset, Row free 0 offset := by
    intro offset x hle hlt
    omega
  constructor
  · constructor
    · intro hnone
      cases hnone
    · intro hnone
      exact absurd (hrow 0) (hnone 0)
  · intro r m' hr
    obtain rfl := (Prod.mk.inj (Option.some.inj hr)).1
    rfl
  · intro r m' hr
    obtain rfl := (Prod.mk.inj (Option.some.inj hr)).1
    exact ⟨⟨Nat.dvd_zero _, hrow 0⟩, fun offset _ => Nat.zero_le offset⟩

theorem finds_carve {alignment : Nat} (hfree : Canonical free)
    (hmultiple : ∀ r ∈ free, alignment ∣ r.start) (hsize : 0 < size)
    (after : ByteRange × List ByteRange → FirstFit) :
    Finds free alignment size ((carve size free).map fun cut => (cut.1, after cut)) := by
  constructor
  · rw [Option.map_eq_none_iff]
    exact carve_eq_none_iff_row hfree hsize
  · intro r m hr
    obtain ⟨cut, hcut, heq⟩ := Option.map_eq_some_iff.1 hr
    obtain rfl := (Prod.mk.inj heq).1
    exact (carve_spec hfree hcut).taken_stop
  · intro r m hr
    obtain ⟨cut, hcut, heq⟩ := Option.map_eq_some_iff.1 hr
    obtain rfl := (Prod.mk.inj heq).1
    obtain ⟨hleast, q, hq, hstart⟩ := carve_isLeast hfree hsize hcut
    refine ⟨⟨?_, hleast.1⟩, fun offset hoffset => hleast.2 hoffset.2⟩
    exact hstart ▸ hmultiple q hq

end Carve

/-- A free range starts at zero or where a live range stops. -/
theorem Holds.start_eq {m : FirstFit} {live : List ByteRange} (h : m.Holds live) {r : ByteRange}
    (hr : r ∈ m.free) : r.start = 0 ∨ ∃ l ∈ live, l.stop = r.start := by
  have hsolid : r.start < r.stop := h.canonical.solid r hr
  by_contra hnot
  have hpos : 0 < r.start := by
    by_contra hzero
    exact hnot (Or.inl (by omega))
  -- the address before the range is in the memory but not free
  have hinside : r.start < m.capacity :=
    (h.covers r.start).2 (Or.inl ⟨r, hr, Nat.le_refl _, hsolid⟩)
  cases (h.covers (r.start - 1)).1 (by omega) with
  | inl hfree =>
    obtain ⟨q, hq, hle, hlt⟩ := hfree
    rcases h.canonical.gap hr hq with rfl | hgap | hgap
    · omega
    · omega
    · omega
  | inr hlive =>
    obtain ⟨l, hl, hle, hlt⟩ := hlive
    apply hnot
    refine Or.inr ⟨l, hl, ?_⟩
    by_contra hne
    apply h.disjoint r.start ⟨r, hr, Nat.le_refl _, hsolid⟩
    exact ⟨l, hl, by omega, by omega⟩

/-! ## What a call returns -/

/-- The bytes that a request is given. -/
def rounded (m : FirstFit) (size : Nat) : Nat :=
  Word.alignUp size m.alignment

/-- The allocator after a range was cut off its free ones. -/
def taking (m : FirstFit) (size : Nat) (left : List ByteRange) : FirstFit :=
  { m with free := left, used := m.used + size, peak := max m.peak (m.used + size) }

/-- A request that can be rounded up is answered. -/
theorem reserve_eq {m : FirstFit} {size : Nat} (hsize : m.rounded size < Word.bound) :
    m.reserve size = .ok (if m.rounded size = 0 then some (⟨0, 0⟩, m)
      else (carve (m.rounded size) m.free).map fun cut =>
        (cut.1, m.taking (m.rounded size) cut.2)) := by
  have haligned : m.aligned size = .ok (m.rounded size) := Word.roundUp_eq_ok hsize
  unfold reserve
  simp only [haligned, bind, Except.bind, pure, Except.pure]
  split
  · rfl
  · cases carve (m.rounded size) m.free <;> rfl

/-- Giving memory back does not lower the peak. -/
theorem peak_release {m m' : FirstFit} {r : ByteRange} (h : m.release r = .ok m') :
    m'.peak = m.peak := by
  unfold release at h
  split at h
  · rw [← Except.ok.inj h]
  · simp only at h
    split at h
    · cases hsub : Word.sub m.used r.length with
      | error fault => simp [hsub, bind, Except.bind] at h
      | ok used =>
        simp only [hsub, bind, Except.bind, pure, Except.pure, Except.ok.injEq] at h
        rw [← h]
    · cases h

end FirstFit

/-! ## Sessions -/

open ByteRange FirstFit

/-- An allocator and what its user knows of it. -/
structure Session where
  memory : FirstFit
  /-- The ranges that were handed out and not given back, empty ones included. -/
  live : List ByteRange
  /-- The bytes in use at the start and after each call, the last first. -/
  usage : List Nat
deriving DecidableEq, Repr

namespace Session

/-- A call to an allocator. -/
inductive Call where
  | reserve (size : Nat)
  | release (r : ByteRange)
deriving DecidableEq, Repr

/-- A new allocator. -/
def start (capacity alignment : Nat) : Session :=
  ⟨.create capacity alignment, [], [0]⟩

/-- What a user may ask for: a size that can be rounded up, and to take back what is
live. -/
def Allows (s : Session) : Call → Prop
  | .reserve size => s.memory.rounded size < Word.bound
  | .release r => r ∈ s.live

instance (s : Session) (call : Call) : Decidable (s.Allows call) :=
  match call with
  | .reserve size => inferInstanceAs (Decidable (s.memory.rounded size < Word.bound))
  | .release r => inferInstanceAs (Decidable (r ∈ s.live))

/-- The session after the allocator has changed. -/
def next (s : Session) (m : FirstFit) (live : List ByteRange) : Session :=
  ⟨m, live, m.used :: s.usage⟩

/-- Makes one call. -/
def serve (s : Session) : Call → Except Fault Session
  | .reserve size => do
    match ← s.memory.reserve size with
    | none => return s.next s.memory s.live
    | some (r, m) => return s.next m (r :: s.live)
  | .release r => do
    let m ← s.memory.release r
    return s.next m (s.live.erase r)

/-- Makes calls one after the other. -/
def run (s : Session) : List Call → Except Fault Session
  | [] => .ok s
  | call :: rest => do
    let s ← s.serve call
    s.run rest

/-- Every call is allowed when its turn comes. -/
def Permits (s : Session) : List Call → Prop
  | [] => True
  | call :: rest => s.Allows call ∧ ∀ s', s.serve call = .ok s' → s'.Permits rest

instance decidablePermits : (s : Session) → (calls : List Call) → Decidable (s.Permits calls)
  | _, [] => .isTrue trivial
  | s, call :: rest =>
    match h : s.serve call with
    | .error _ => decidable_of_iff (s.Allows call) (by simp [Permits, h])
    | .ok s' =>
      have := decidablePermits s' rest
      decidable_of_iff (s.Allows call ∧ s'.Permits rest) (by simp [Permits, h])

/-- The live ranges that are not empty. -/
def held (s : Session) : List ByteRange :=
  s.live.filter fun r => r.start < r.stop

/-- What every call keeps. -/
structure Kept (capacity alignment : Nat) (s : Session) : Prop where
  capacity_eq : s.memory.capacity = capacity
  alignment_eq : s.memory.alignment = alignment
  holds : s.memory.Holds s.held
  multiple : ∀ r ∈ s.held, alignment ∣ r.start ∧ alignment ∣ r.stop
  used_eq : s.usage.head? = some s.memory.used
  peak_mem : s.memory.peak ∈ s.usage
  le_peak : ∀ used ∈ s.usage, used ≤ s.memory.peak

section Kept

variable {capacity alignment : Nat} {s : Session}

theorem kept_start (capacity alignment : Nat) :
    Kept capacity (max alignment 1) (start capacity alignment) where
  capacity_eq := rfl
  alignment_eq := rfl
  holds := holds_create capacity alignment
  multiple := by simp [held, start]
  used_eq := rfl
  peak_mem := List.mem_singleton_self 0
  le_peak := by simp [start]

/-- No more is in use than at the peak. -/
theorem Kept.used_le_peak (h : Kept capacity alignment s) : s.memory.used ≤ s.memory.peak :=
  h.le_peak _ (List.mem_of_head? h.used_eq)

/-- A call that leaves the allocator alone. -/
theorem Kept.same (h : Kept capacity alignment s) {live : List ByteRange}
    (hlive : s.held.Perm (s.next s.memory live).held) :
    Kept capacity alignment (s.next s.memory live) where
  capacity_eq := h.capacity_eq
  alignment_eq := h.alignment_eq
  holds := h.holds.perm hlive
  multiple r hr := h.multiple r (hlive.mem_iff.2 hr)
  used_eq := rfl
  peak_mem := List.mem_cons_of_mem _ h.peak_mem
  le_peak := List.forall_mem_cons.2 ⟨h.used_le_peak, h.le_peak⟩

/-- Free ranges start at multiples of the alignment. -/
theorem Kept.dvd_start (h : Kept capacity alignment s) {r : ByteRange} (hr : r ∈ s.memory.free) :
    alignment ∣ r.start := by
  cases h.holds.start_eq hr with
  | inl hzero =>
    rw [hzero]
    exact Nat.dvd_zero _
  | inr hstop =>
    obtain ⟨l, hl, heq⟩ := hstop
    rw [← heq]
    exact (h.multiple l hl).2

/-- A request that is given a free range. -/
theorem Kept.take (h : Kept capacity alignment s) (hpos : 0 < alignment) {size : Nat}
    (hsize : s.memory.rounded size ≠ 0) {taken : ByteRange} {left : List ByteRange}
    (hcarve : carve (s.memory.rounded size) s.memory.free = some (taken, left)) :
    Kept capacity alignment
      (s.next (s.memory.taking (s.memory.rounded size) left) (taken :: s.live)) := by
  have hcut := carve_spec h.holds.canonical hcarve
  have hstop := hcut.taken_stop
  have hsolid : taken.start < taken.stop := by omega
  have hheld : (s.next (s.memory.taking (s.memory.rounded size) left) (taken :: s.live)).held =
      taken :: s.held := by simp [held, next, hsolid]
  obtain ⟨r, hr, hstart⟩ := (carve_isLeast h.holds.canonical (by omega) hcarve).2
  have hdvd : alignment ∣ taken.start := hstart ▸ h.dvd_start hr
  have hdvd' : alignment ∣ s.memory.rounded size := by
    unfold rounded
    rw [h.alignment_eq]
    exact Word.dvd_alignUp size hpos
  refine ⟨h.capacity_eq, h.alignment_eq, ?_, ?_, rfl, ?_, ?_⟩
  · rw [hheld]
    exact h.holds.cut (by omega) hcut _
  · rw [hheld]
    refine List.forall_mem_cons.2 ⟨⟨hdvd, ?_⟩, h.multiple⟩
    rw [hstop]
    exact Nat.dvd_add hdvd hdvd'
  · show max s.memory.peak (s.memory.used + s.memory.rounded size) ∈
      (s.memory.used + s.memory.rounded size) :: s.usage
    rcases Nat.le_total s.memory.peak (s.memory.used + s.memory.rounded size) with hle | hle
    · rw [Nat.max_eq_right hle]
      exact List.mem_cons_self
    · rw [Nat.max_eq_left hle]
      exact List.mem_cons_of_mem _ h.peak_mem
  · refine List.forall_mem_cons.2 ⟨Nat.le_max_right _ _, fun used hused => ?_⟩
    exact Nat.le_trans (h.le_peak used hused) (Nat.le_max_left _ _)

/-- A live range that is given back. -/
theorem Kept.giveBack (h : Kept capacity alignment s) {r : ByteRange} (hr : r ∈ s.live) :
    ∃ m, s.memory.release r = .ok m ∧ Kept capacity alignment (s.next m (s.live.erase r)) := by
  have hperm : s.held.Perm ((r :: s.live.erase r).filter fun r => r.start < r.stop) :=
    (List.perm_cons_erase hr).filter _
  by_cases hsolid : r.start < r.stop
  · rw [List.filter_cons_of_pos (by simpa using hsolid)] at hperm
    obtain ⟨m, hrelease, hholds, hcapacity, halignment⟩ := (h.holds.perm hperm).release
    have hpeak : m.peak = s.memory.peak := peak_release hrelease
    have hused : m.used ≤ s.memory.used := by
      rw [hholds.used_eq, (h.holds.perm hperm).used_eq, List.map_cons, Word.total_cons]
      omega
    refine ⟨m, hrelease, hcapacity.trans h.capacity_eq, halignment.trans h.alignment_eq, hholds,
      ?_, rfl, ?_, ?_⟩
    · intro l hl
      exact h.multiple l (hperm.mem_iff.2 (List.mem_cons_of_mem r hl))
    · show m.peak ∈ m.used :: s.usage
      rw [hpeak]
      exact List.mem_cons_of_mem _ h.peak_mem
    · show ∀ used ∈ m.used :: s.usage, used ≤ m.peak
      rw [hpeak]
      exact List.forall_mem_cons.2 ⟨Nat.le_trans hused h.used_le_peak, h.le_peak⟩
  · -- an empty range changes nothing
    rw [List.filter_cons_of_neg (by simpa using hsolid)] at hperm
    have hrelease : s.memory.release r = .ok s.memory := by
      unfold release
      rw [if_pos (by omega)]
    exact ⟨s.memory, hrelease, h.same hperm⟩

/-- An allowed call succeeds and keeps what holds. -/
theorem Kept.serve (h : Kept capacity alignment s) (hpos : 0 < alignment) {call : Call}
    (hcall : s.Allows call) : ∃ s', s.serve call = .ok s' ∧ Kept capacity alignment s' := by
  cases call with
  | release r =>
    obtain ⟨m, hrelease, hkept⟩ := h.giveBack hcall
    refine ⟨_, ?_, hkept⟩
    simp only [Session.serve, hrelease, bind, Except.bind, pure, Except.pure]
  | reserve size =>
    have hreserve := reserve_eq hcall
    by_cases hzero : s.memory.rounded size = 0
    · rw [if_pos hzero] at hreserve
      refine ⟨s.next s.memory (⟨0, 0⟩ :: s.live), ?_, h.same ?_⟩
      · simp only [Session.serve, hreserve, bind, Except.bind, pure, Except.pure]
      · show s.held.Perm ((⟨0, 0⟩ :: s.live).filter fun r => r.start < r.stop)
        rw [List.filter_cons_of_neg (by simp)]
        exact List.Perm.refl _
    · rw [if_neg hzero] at hreserve
      cases hcarve : carve (s.memory.rounded size) s.memory.free with
      | none =>
        rw [hcarve, Option.map_none] at hreserve
        refine ⟨s.next s.memory s.live, ?_, h.same (List.Perm.refl _)⟩
        simp only [Session.serve, hreserve, bind, Except.bind, pure, Except.pure]
      | some cut =>
        obtain ⟨taken, left⟩ := cut
        rw [hcarve, Option.map_some] at hreserve
        refine ⟨_, ?_, h.take hpos hzero hcarve⟩
        simp only [Session.serve, hreserve, bind, Except.bind, pure, Except.pure]

/-- Allowed calls succeed one after the other and keep what holds. -/
theorem Kept.run (h : Kept capacity alignment s) (hpos : 0 < alignment) {calls : List Call}
    (hcalls : s.Permits calls) : ∃ s', s.run calls = .ok s' ∧ Kept capacity alignment s' := by
  induction calls generalizing s with
  | nil => exact ⟨s, rfl, h⟩
  | cons call rest ih =>
    obtain ⟨s', hserve, hkept⟩ := h.serve hpos hcalls.1
    obtain ⟨last, hrun, hlast⟩ := ih hkept (hcalls.2 s' hserve)
    refine ⟨last, ?_, hlast⟩
    simp only [Session.run, hserve, bind, Except.bind, hrun]

/-- A request is answered by the lowest row that is long enough. -/
theorem Kept.finds (h : Kept capacity alignment s) {size : Nat}
    (hsize : Word.alignUp size alignment < Word.bound) :
    ∃ answer, s.memory.reserve size = .ok answer ∧
      Finds s.memory.free alignment (Word.alignUp size alignment) answer := by
  have hrounded : s.memory.rounded size = Word.alignUp size alignment := by
    rw [rounded, h.alignment_eq]
  refine ⟨_, reserve_eq (hrounded ▸ hsize), ?_⟩
  rw [hrounded]
  by_cases hzero : Word.alignUp size alignment = 0
  · rw [if_pos hzero, hzero]
    exact finds_zero _ _ _
  · rw [if_neg hzero]
    exact finds_carve h.holds.canonical (fun r hr => h.dvd_start hr) (Nat.pos_of_ne_zero hzero) _

end Kept

/-- What holds for a session. -/
structure Sound (capacity alignment : Nat) (s : Session) : Prop where
  /-- Live ranges share no address. -/
  apart : s.held.Pairwise Apart
  within : ∀ r ∈ s.held, r.stop ≤ capacity
  multiple : ∀ r ∈ s.held, alignment ∣ r.start
  canonical : Canonical s.memory.free
  /-- What is free is what is not live. -/
  free_iff : ∀ x, Covers s.memory.free x ↔ x < capacity ∧ ¬ Covers s.held x
  used_eq : s.memory.used = Word.total (s.held.map length)
  peak_eq : IsGreatest {used | used ∈ s.usage} s.memory.peak

theorem Kept.sound {capacity alignment : Nat} {s : Session} (h : Kept capacity alignment s) :
    s.Sound capacity alignment where
  apart := h.holds.apart
  within r hr := h.capacity_eq ▸ h.holds.stop_le hr
  multiple r hr := (h.multiple r hr).1
  canonical := h.holds.canonical
  free_iff x := by
    rw [← h.capacity_eq, h.holds.covers x]
    have hdisjoint := h.holds.disjoint x
    tauto
  used_eq := h.holds.used_eq
  peak_eq := ⟨h.peak_mem, h.le_peak⟩

/-- Of two sessions over the same memory with the same live ranges, the free ranges are
the same. -/
theorem Sound.free_eq {capacity alignment : Nat} {s s' : Session} (h : s.Sound capacity alignment)
    (h' : s'.Sound capacity alignment) (hheld : ∀ r, r ∈ s'.held ↔ r ∈ s.held) :
    s'.memory.free = s.memory.free := by
  apply canonical_ext h'.canonical h.canonical
  intro x
  have hcovers : Covers s'.held x ↔ Covers s.held x := by
    unfold Covers
    simp only [hheld]
  rw [h'.free_iff, h.free_iff, hcovers]

/-- Every run of allowed calls to a new allocator succeeds, and the session is sound after
it.  A request is then refused exactly if nowhere enough bytes in a row are free, and is
otherwise served at the lowest multiple of the alignment from which they are.  The free
ranges are those of every other run that leaves the same ranges live. -/
theorem run_sound (capacity alignment : Nat) {calls : List Call}
    (hcalls : (start capacity alignment).Permits calls) :
    ∃ s, (start capacity alignment).run calls = .ok s ∧ s.Sound capacity (max alignment 1) ∧
      (∀ size, Word.alignUp size (max alignment 1) < Word.bound →
        ∃ answer, s.memory.reserve size = .ok answer ∧
          Finds s.memory.free (max alignment 1) (Word.alignUp size (max alignment 1)) answer) ∧
      ∀ calls' s', (start capacity alignment).Permits calls' →
        (start capacity alignment).run calls' = .ok s' → (∀ r, r ∈ s'.held ↔ r ∈ s.held) →
          s'.memory.free = s.memory.free := by
  have hpos : 0 < max alignment 1 := by omega
  have hstart := kept_start capacity alignment
  obtain ⟨s, hrun, hkept⟩ := hstart.run hpos hcalls
  refine ⟨s, hrun, hkept.sound, fun size hsize => hkept.finds hsize, ?_⟩
  intro calls' s' hcalls' hrun' hheld
  obtain ⟨last, hlast, hkept'⟩ := hstart.run hpos hcalls'
  obtain rfl := Except.ok.inj (hlast.symm.trans hrun')
  exact hkept.sound.free_eq hkept'.sound hheld

/-- Sixty bytes do not fit where 24 and 44 are free, and the next ten go to the front. -/
theorem run_sound_fragmented :
    (start 100 8).Permits [.reserve 20, .reserve 30, .reserve 0, .release ⟨0, 24⟩, .reserve 60,
      .reserve 10] ∧
    ∃ s, (start 100 8).run [.reserve 20, .reserve 30, .reserve 0, .release ⟨0, 24⟩, .reserve 60,
      .reserve 10] = .ok s ∧ s.live = [⟨0, 16⟩, ⟨0, 0⟩, ⟨24, 56⟩] ∧
      s.memory.free = [⟨16, 24⟩, ⟨56, 100⟩] ∧ s.usage = [48, 32, 32, 56, 56, 24, 0] ∧
      s.Sound 100 8 := by
  have hcalls : (start 100 8).Permits [.reserve 20, .reserve 30, .reserve 0, .release ⟨0, 24⟩,
    .reserve 60, .reserve 10] := by decide
  obtain ⟨s, hrun, hsound, -⟩ := run_sound 100 8 hcalls
  obtain rfl := Except.ok.inj hrun
  exact ⟨hcalls, _, rfl, rfl, rfl, rfl, hsound⟩

end Session

end TaskLoom
