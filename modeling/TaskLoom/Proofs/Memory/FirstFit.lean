import Mathlib.Data.Finset.Union
import Mathlib.Order.Interval.Finset.Nat
import TaskLoom.Memory.FirstFit
import TaskLoom.Proofs.Word

/-!
# Scratch memory that is handed out and given back

An allocator *holds* a list of live ranges if its free ranges and the live ones
share no address and together are all of its memory.  Handing out a range moves it
from one side to the other, and giving it back moves it there again, so every
allocator that a run produces holds exactly what the run has not given back.

The free list is canonical: ascending, without empty ranges, and no two ranges are
adjacent.  So an allocator that holds nothing has one free range, all of its memory.

## Main results

* `total_length_eq_card`, `Holds.used_add_free` — bytes in use and free bytes.
* `carve_spec`, `Holds.reserve` — what a reservation takes and leaves.
* `joinBetween_spec`, `Holds.release` — giving back a live range.
* `takeRoom_eq_carve` — looking ahead agrees with reserving.
* `Holds.canReserve_empty` — what fits an allocator that holds nothing.
-/

namespace TaskLoom

namespace ByteRange

/-- The range has an address. -/
def Solid (r : ByteRange) : Prop := r.start < r.stop

/-- The ranges share no address. -/
def Apart (r q : ByteRange) : Prop := r.stop ≤ q.start ∨ q.stop ≤ r.start

theorem Apart.symm {r q : ByteRange} (h : r.Apart q) : q.Apart r := Or.symm h

/-- The address is in one of the ranges. -/
def Covers (rs : List ByteRange) (x : Nat) : Prop := ∃ r ∈ rs, r.Contains x

@[simp]
theorem covers_nil {x : Nat} : ¬ Covers [] x := by simp [Covers]

@[simp]
theorem covers_cons {r : ByteRange} {rs : List ByteRange} {x : Nat} :
    Covers (r :: rs) x ↔ r.Contains x ∨ Covers rs x := by simp [Covers]

@[simp]
theorem covers_append {rs qs : List ByteRange} {x : Nat} :
    Covers (rs ++ qs) x ↔ Covers rs x ∨ Covers qs x := by simp [Covers, or_and_right, exists_or]

/-- Ascending ranges, none of them empty and no two adjacent. -/
structure Canonical (rs : List ByteRange) : Prop where
  solid : ∀ r ∈ rs, r.Solid
  ascending : rs.Pairwise fun r q => r.stop < q.start

theorem canonical_nil : Canonical [] := ⟨by simp, .nil⟩

theorem canonical_cons {r : ByteRange} {rs : List ByteRange} :
    Canonical (r :: rs) ↔ r.Solid ∧ (∀ q ∈ rs, r.stop < q.start) ∧ Canonical rs := by
  constructor
  · rintro ⟨hsolid, hascending⟩
    obtain ⟨hr, hrs⟩ := List.forall_mem_cons.1 hsolid
    obtain ⟨hfirst, hrest⟩ := List.pairwise_cons.1 hascending
    exact ⟨hr, hfirst, hrs, hrest⟩
  · rintro ⟨hr, hfirst, hrs, hrest⟩
    exact ⟨List.forall_mem_cons.2 ⟨hr, hrs⟩, List.pairwise_cons.2 ⟨hfirst, hrest⟩⟩

instance (r : ByteRange) (x : Nat) : Decidable (r.Contains x) :=
  inferInstanceAs (Decidable (_ ∧ _))

instance (rs : List ByteRange) (x : Nat) : Decidable (Covers rs x) :=
  inferInstanceAs (Decidable (∃ r ∈ rs, r.Contains x))

/-- Ranges that share no address are together as long as they have addresses. -/
theorem total_length_eq_card {capacity : Nat} {rs : List ByteRange} (hapart : rs.Pairwise Apart)
    (hwithin : ∀ r ∈ rs, r.stop ≤ capacity) :
    Word.total (rs.map length) = ((Finset.range capacity).filter (Covers rs)).card := by
  induction rs with
  | nil => simp
  | cons r rs ih =>
    obtain ⟨hr, hrs⟩ := List.pairwise_cons.1 hapart
    obtain ⟨hstop, hrest⟩ := List.forall_mem_cons.1 hwithin
    have hdisjoint : Disjoint (Finset.Ico r.start r.stop)
        ((Finset.range capacity).filter (Covers rs)) := by
      refine Finset.disjoint_left.2 fun x hx hcovered => ?_
      obtain ⟨q, hq, hcontains⟩ := (Finset.mem_filter.1 hcovered).2
      obtain ⟨hle, hlt⟩ := Finset.mem_Ico.1 hx
      rcases hr q hq with hbefore | hafter
      · exact Nat.not_le.2 hlt (Nat.le_trans hbefore hcontains.1)
      · exact Nat.not_le.2 hcontains.2 (Nat.le_trans hafter hle)
    have hunion : (Finset.range capacity).filter (Covers (r :: rs)) =
        Finset.Ico r.start r.stop ∪ (Finset.range capacity).filter (Covers rs) := by
      ext x
      simp only [Finset.mem_filter, Finset.mem_range, Finset.mem_union, Finset.mem_Ico, covers_cons,
        Contains]
      constructor
      · rintro ⟨hx, hin | hcovered⟩
        · exact Or.inl hin
        · exact Or.inr ⟨hx, hcovered⟩
      · rintro (hin | ⟨hx, hcovered⟩)
        · exact ⟨by omega, Or.inl hin⟩
        · exact ⟨hx, Or.inr hcovered⟩
    calc Word.total ((r :: rs).map length)
        = (Finset.Ico r.start r.stop).card + Word.total (rs.map length) := by
          rw [Nat.card_Ico]
          rfl
      _ = (Finset.Ico r.start r.stop).card +
            ((Finset.range capacity).filter (Covers rs)).card := by
          rw [ih hrs hrest]
      _ = _ := by rw [hunion, Finset.card_union_of_disjoint hdisjoint]

/-- Ranges that share no address are together no longer than the memory. -/
theorem total_length_le {capacity : Nat} {rs : List ByteRange} (hapart : rs.Pairwise Apart)
    (hwithin : ∀ r ∈ rs, r.stop ≤ capacity) : Word.total (rs.map length) ≤ capacity := by
  rw [total_length_eq_card hapart hwithin]
  exact (Finset.card_filter_le _ _).trans (by rw [Finset.card_range])

end ByteRange

namespace FirstFit

open ByteRange

/-! ## Cutting a range off -/

/-- What cutting `size` bytes off canonical ranges takes and leaves. -/
structure Carves (free : List ByteRange) (size : Nat) (taken : ByteRange)
    (left : List ByteRange) : Prop where
  taken_stop : taken.stop = taken.start + size
  canonical : Canonical left
  covers : ∀ x, Covers free x ↔ taken.Contains x ∨ Covers left x
  apart : ∀ l ∈ left, taken.Apart l
  within : ∀ l ∈ left, ∃ r ∈ free, r.start ≤ l.start ∧ l.stop ≤ r.stop
  taken_within : ∃ r ∈ free, r.start ≤ taken.start ∧ taken.stop ≤ r.stop

section Carves

variable {size : Nat} {r : ByteRange} {rest : List ByteRange}

/-- The first range is as long as what is needed. -/
theorem carves_whole (hrest : Canonical rest) (hfirst : ∀ q ∈ rest, r.stop < q.start)
    (hstop : r.stop = r.start + size) : Carves (r :: rest) size r rest where
  taken_stop := hstop
  canonical := hrest
  covers _ := covers_cons
  apart l hl := Or.inl (Nat.le_of_lt (hfirst l hl))
  within l hl := ⟨l, List.mem_cons_of_mem r hl, Nat.le_refl _, Nat.le_refl _⟩
  taken_within := ⟨r, List.mem_cons_self, Nat.le_refl _, Nat.le_refl _⟩

/-- The first range is longer: its end is left. -/
theorem carves_front (hrest : Canonical rest) (hfirst : ∀ q ∈ rest, r.stop < q.start)
    (hlong : r.start + size < r.stop) :
    Carves (r :: rest) size ⟨r.start, r.start + size⟩ (⟨r.start + size, r.stop⟩ :: rest) := by
  refine ⟨rfl, canonical_cons.2 ⟨hlong, hfirst, hrest⟩, ?_, ?_, ?_,
    r, List.mem_cons_self, Nat.le_refl _, Nat.le_of_lt hlong⟩
  · intro x
    have hx : r.Contains x ↔ r.start ≤ x ∧ x < r.start + size ∨
        r.start + size ≤ x ∧ x < r.stop := by
      unfold Contains
      omega
    rw [covers_cons, covers_cons, hx, or_assoc]
    rfl
  · refine List.forall_mem_cons.2 ⟨Or.inl (Nat.le_refl _), ?_⟩
    intro l hl
    have hgap := hfirst l hl
    exact Or.inl (by simp only; omega)
  · refine List.forall_mem_cons.2 ⟨⟨r, List.mem_cons_self, by simp only; omega⟩, ?_⟩
    intro l hl
    exact ⟨l, List.mem_cons_of_mem r hl, Nat.le_refl _, Nat.le_refl _⟩

/-- The first range is too short and stays. -/
theorem Carves.cons {taken : ByteRange} {left : List ByteRange}
    (h : Carves rest size taken left) (hr : r.Solid) (hfirst : ∀ q ∈ rest, r.stop < q.start) :
    Carves (r :: rest) size taken (r :: left) := by
  obtain ⟨q, hq, hstart, hend⟩ := h.taken_within
  refine ⟨h.taken_stop, canonical_cons.2 ⟨hr, ?_, h.canonical⟩, ?_, ?_, ?_,
    q, List.mem_cons_of_mem r hq, hstart, hend⟩
  · intro l hl
    obtain ⟨f, hf, hle, -⟩ := h.within l hl
    have hgap := hfirst f hf
    omega
  · intro x
    rw [covers_cons, covers_cons, h.covers, or_left_comm]
  · refine List.forall_mem_cons.2 ⟨?_, h.apart⟩
    have hgap := hfirst q hq
    exact Or.inr (by omega)
  · refine List.forall_mem_cons.2 ⟨⟨r, List.mem_cons_self, Nat.le_refl _, Nat.le_refl _⟩, ?_⟩
    intro l hl
    obtain ⟨f, hf, hle⟩ := h.within l hl
    exact ⟨f, List.mem_cons_of_mem r hf, hle⟩

end Carves

theorem carve_spec {size : Nat} {free : List ByteRange} (hfree : Canonical free)
    {taken : ByteRange} {left : List ByteRange} (h : carve size free = some (taken, left)) :
    Carves free size taken left := by
  induction free generalizing left with
  | nil => cases h
  | cons r rest ih =>
    obtain ⟨hr, hfirst, hrest⟩ := canonical_cons.1 hfree
    unfold Solid at hr
    unfold carve at h
    split at h
    · next hle =>
      simp only [Option.some.injEq, Prod.mk.injEq] at h
      obtain ⟨rfl, rfl⟩ := h
      unfold length at hle ⊢
      by_cases hall : r.stop - r.start = size
      · have hstop : r.stop = r.start + size := by omega
        rw [if_pos hall, ← hstop]
        exact carves_whole hrest hfirst hstop
      · rw [if_neg hall]
        exact carves_front hrest hfirst (by omega)
    · obtain ⟨⟨taken', left'⟩, hcarve, heq⟩ := Option.map_eq_some_iff.1 h
      simp only [Prod.mk.injEq] at heq
      obtain ⟨rfl, rfl⟩ := heq
      exact (ih hrest hcarve).cons hr hfirst

/-! ## Joining a range -/

theorem joinPrevious_eq (previous : ByteRange) (rs : List ByteRange) :
    joinPrevious previous rs = joinNext previous rs := by
  cases rs <;> rfl

/-- Joining a range to the ranges that follow it. -/
theorem joinNext_spec {r : ByteRange} {above : List ByteRange} (hr : r.Solid)
    (habove : Canonical above) (hnext : ∀ a ∈ above, r.stop ≤ a.start) :
    Canonical (joinNext r above) ∧
      (∀ x, Covers (joinNext r above) x ↔ r.Contains x ∨ Covers above x) ∧
      ∀ l ∈ joinNext r above, r.start ≤ l.start := by
  unfold Solid at hr
  cases above with
  | nil =>
    exact ⟨canonical_cons.2 ⟨hr, by simp, canonical_nil⟩, by simp [joinNext], by simp [joinNext]⟩
  | cons next rest =>
    obtain ⟨hsolid, hfirst, hrest⟩ := canonical_cons.1 habove
    have hle := hnext next List.mem_cons_self
    unfold Solid at hsolid
    simp only [joinNext]
    split
    · next heq =>
      refine ⟨canonical_cons.2 ⟨by simp only [Solid]; omega, hfirst, hrest⟩, ?_, ?_⟩
      · intro x
        simp only [covers_cons, Contains]
        constructor
        · rintro (hx | hx)
          · by_cases hlt : x < r.stop
            · exact Or.inl ⟨hx.1, hlt⟩
            · exact Or.inr (Or.inl ⟨by omega, hx.2⟩)
          · exact Or.inr (Or.inr hx)
        · rintro (hx | hx | hx)
          · exact Or.inl ⟨hx.1, by omega⟩
          · exact Or.inl ⟨by omega, hx.2⟩
          · exact Or.inr hx
      · refine List.forall_mem_cons.2 ⟨Nat.le_refl _, ?_⟩
        intro l hl
        have hgap := hfirst l hl
        omega
    · next hne =>
      have hafter : ∀ a ∈ next :: rest, r.stop < a.start := by
        refine List.forall_mem_cons.2 ⟨by omega, ?_⟩
        intro l hl
        have hgap := hfirst l hl
        omega
      refine ⟨canonical_cons.2 ⟨hr, hafter, habove⟩, fun x => covers_cons, ?_⟩
      refine List.forall_mem_cons.2 ⟨Nat.le_refl _, ?_⟩
      intro l hl
      have hgap := hafter l hl
      omega

/-- Joining a range to the ranges below and above it. -/
theorem joinBetween_spec {below above : List ByteRange} {r : ByteRange} (hr : r.Solid)
    (hcanonical : Canonical (below ++ above)) (hbelow : ∀ b ∈ below, b.stop ≤ r.start)
    (habove : ∀ a ∈ above, r.stop ≤ a.start) :
    Canonical (joinBetween below r above) ∧
      ∀ x, Covers (joinBetween below r above) x ↔ r.Contains x ∨ Covers (below ++ above) x := by
  have hsolid := hcanonical.solid
  obtain ⟨hpairs, hpairs', hcross⟩ := List.pairwise_append.1 hcanonical.ascending
  have habove' : Canonical above := ⟨fun q hq => hsolid q (List.mem_append_right _ hq), hpairs'⟩
  obtain ⟨hnext, hcovers, hstart⟩ := joinNext_spec hr habove' habove
  unfold joinBetween
  cases hlast : below.getLast? with
  | none =>
    obtain rfl := List.getLast?_eq_none_iff.1 hlast
    exact ⟨hnext, hcovers⟩
  | some previous =>
    obtain ⟨init, rfl⟩ := List.getLast?_eq_some_iff.1 hlast
    simp only [List.dropLast_concat, joinPrevious_eq]
    have hprevious : previous.Solid := hsolid previous (by simp)
    have hprevious' := hbelow previous (by simp)
    obtain ⟨hjoined, hcovers', hstart'⟩ := joinNext_spec hprevious hnext
      fun l hl => Nat.le_trans hprevious' (hstart l hl)
    obtain ⟨hinit, -, hinit'⟩ := List.pairwise_append.1 hpairs
    refine ⟨⟨?_, List.pairwise_append.2 ⟨hinit, hjoined.ascending, ?_⟩⟩, ?_⟩
    · intro q hq
      rcases List.mem_append.1 hq with hq | hq
      · exact hsolid q (by simp [hq])
      · exact hjoined.solid q hq
    · intro i hi l hl
      have hgap := hinit' i hi previous (by simp)
      have hle := hstart' l hl
      omega
    · intro x
      simp only [covers_append, hcovers', hcovers, covers_cons]
      have hnil : ¬ Covers [] x := covers_nil
      tauto

/-! ## Free and live memory -/

theorem apart_of_disjoint {r q : ByteRange} (hr : r.Solid) (hq : q.Solid)
    (h : ∀ x, r.Contains x → ¬ q.Contains x) : r.Apart q := by
  unfold Solid at hr hq
  by_contra hnot
  unfold Apart at hnot
  have hcommon := h (max r.start q.start)
  simp only [Contains] at hcommon
  omega

theorem not_covers_of_apart {r : ByteRange} {rs : List ByteRange} (h : ∀ q ∈ rs, r.Apart q)
    {x : Nat} (hx : r.Contains x) : ¬ Covers rs x := by
  rintro ⟨q, hq, hxq⟩
  have hapart := h q hq
  unfold Apart at hapart
  unfold Contains at hx hxq
  omega

/-- The memory of an allocator is free or in one of the live ranges. -/
structure Holds (m : FirstFit) (live : List ByteRange) : Prop where
  canonical : Canonical m.free
  solid : ∀ r ∈ live, r.Solid
  apart : live.Pairwise Apart
  disjoint : ∀ x, Covers m.free x → ¬ Covers live x
  covers : ∀ x, x < m.capacity ↔ Covers m.free x ∨ Covers live x
  used_eq : m.used = Word.total (live.map length)

theorem holds_create (capacity alignment : Nat) : (create capacity alignment).Holds [] := by
  unfold create
  by_cases hpos : 0 < capacity
  · rw [if_pos hpos]
    refine ⟨canonical_cons.2 ⟨hpos, by simp, canonical_nil⟩, by simp, .nil, by simp, ?_, rfl⟩
    intro x
    simp [Contains]
  · rw [if_neg hpos]
    refine ⟨canonical_nil, by simp, .nil, by simp, ?_, rfl⟩
    intro x
    simp only [covers_nil, or_self, iff_false]
    omega

theorem Holds.perm {m : FirstFit} {live live' : List ByteRange} (h : m.Holds live)
    (hperm : live.Perm live') : m.Holds live' := by
  have hcovers : ∀ x, Covers live' x ↔ Covers live x := by
    intro x
    simp only [Covers, hperm.mem_iff]
  refine ⟨h.canonical, fun r hr => h.solid r (hperm.mem_iff.2 hr), ?_, ?_, ?_, ?_⟩
  · exact (hperm.pairwise_iff fun hab => Apart.symm hab).1 h.apart
  · intro x hx
    rw [hcovers]
    exact h.disjoint x hx
  · intro x
    rw [hcovers]
    exact h.covers x
  · rw [h.used_eq]
    exact Word.total_perm (hperm.map length)

/-- Live ranges lie in the memory. -/
theorem Holds.stop_le {m : FirstFit} {live : List ByteRange} (h : m.Holds live) {r : ByteRange}
    (hr : r ∈ live) : r.stop ≤ m.capacity := by
  have hsolid := h.solid r hr
  unfold Solid at hsolid
  have hlast := (h.covers (r.stop - 1)).2 (Or.inr ⟨r, hr, by simp only [Contains]; omega⟩)
  omega

/-- Free ranges lie in the memory. -/
theorem Holds.free_stop_le {m : FirstFit} {live : List ByteRange} (h : m.Holds live)
    {r : ByteRange} (hr : r ∈ m.free) : r.stop ≤ m.capacity := by
  have hsolid := h.canonical.solid r hr
  unfold Solid at hsolid
  have hlast := (h.covers (r.stop - 1)).2 (Or.inl ⟨r, hr, by simp only [Contains]; omega⟩)
  omega

/-- The bytes in use and the free bytes are all of the memory. -/
theorem Holds.used_add_free {m : FirstFit} {live : List ByteRange} (h : m.Holds live) :
    m.used + Word.total (m.free.map length) = m.capacity := by
  have hapart : (live ++ m.free).Pairwise Apart := by
    refine List.pairwise_append.2 ⟨h.apart, ?_, ?_⟩
    · exact h.canonical.ascending.imp fun hlt => Or.inl (Nat.le_of_lt hlt)
    · intro l hl f hf
      refine apart_of_disjoint (h.solid l hl) (h.canonical.solid f hf) fun x hxl hxf => ?_
      exact h.disjoint x ⟨f, hf, hxf⟩ ⟨l, hl, hxl⟩
  have hwithin : ∀ r ∈ live ++ m.free, r.stop ≤ m.capacity := by
    intro r hr
    rcases List.mem_append.1 hr with hr | hr
    · exact h.stop_le hr
    · exact h.free_stop_le hr
  have hall : (Finset.range m.capacity).filter (Covers (live ++ m.free)) =
      Finset.range m.capacity := by
    refine Finset.filter_true_of_mem fun x hx => ?_
    rw [covers_append, or_comm]
    exact (h.covers x).1 (Finset.mem_range.1 hx)
  have htotal := total_length_eq_card hapart hwithin
  rw [hall, Finset.card_range, List.map_append, Word.total_append] at htotal
  rw [h.used_eq, htotal]

/-! ## Reserving -/

/-- What was cut off a free range is live. -/
theorem Holds.cut {m : FirstFit} {live left : List ByteRange} {size : Nat} {taken : ByteRange}
    (h : m.Holds live) (hsize : 0 < size) (hcut : Carves m.free size taken left) (peak : Nat) :
    Holds { m with free := left, used := m.used + size, peak } (taken :: live) := by
  have hstop := hcut.taken_stop
  have hsolid : taken.Solid := by
    unfold Solid
    omega
  refine ⟨hcut.canonical, List.forall_mem_cons.2 ⟨hsolid, h.solid⟩, ?_, ?_, ?_, ?_⟩
  · refine List.pairwise_cons.2 ⟨fun l hl => ?_, h.apart⟩
    refine apart_of_disjoint hsolid (h.solid l hl) fun x hx hxl => ?_
    exact h.disjoint x ((hcut.covers x).2 (Or.inl hx)) ⟨l, hl, hxl⟩
  · intro x hx hlive
    rcases covers_cons.1 hlive with hx' | hx'
    · exact not_covers_of_apart hcut.apart hx' hx
    · exact h.disjoint x ((hcut.covers x).2 (Or.inr hx)) hx'
  · intro x
    rw [h.covers x, hcut.covers x, covers_cons]
    tauto
  · rw [List.map_cons, Word.total_cons, ← h.used_eq]
    show m.used + size = taken.stop - taken.start + m.used
    omega

/-- A reservation: nothing for a request of no bytes, a live range for any other. -/
theorem Holds.reserve {m m' : FirstFit} {live : List ByteRange} (h : m.Holds live) {size : Nat}
    {r : ByteRange} (hreserve : m.reserve size = .ok (some (r, m'))) :
    r.stop = r.start + Word.alignUp size m.alignment ∧ m'.capacity = m.capacity ∧
      m'.alignment = m.alignment ∧
      m'.Holds (if r.start = r.stop then live else r :: live) := by
  unfold FirstFit.reserve at hreserve
  cases haligned : m.aligned size with
  | error fault => simp [haligned, bind, Except.bind] at hreserve
  | ok k =>
    have hk := Word.eq_alignUp_of_roundUp haligned
    simp only [haligned, bind, Except.bind] at hreserve
    rw [← hk]
    split at hreserve
    · next hzero =>
      simp only [pure, Except.pure, Except.ok.injEq, Option.some.injEq, Prod.mk.injEq] at hreserve
      obtain ⟨rfl, rfl⟩ := hreserve
      exact ⟨by simp [hzero], rfl, rfl, h⟩
    · next hpos =>
      cases hcarve : carve k m.free with
      | none => simp [hcarve, pure, Except.pure] at hreserve
      | some cut =>
        obtain ⟨taken, left⟩ := cut
        simp only [hcarve, pure, Except.pure, Except.ok.injEq, Option.some.injEq,
          Prod.mk.injEq] at hreserve
        obtain ⟨rfl, rfl⟩ := hreserve
        have hcut := carve_spec h.canonical hcarve
        have hstop := hcut.taken_stop
        refine ⟨hstop, rfl, rfl, ?_⟩
        rw [if_neg (by omega : taken.start ≠ taken.stop)]
        exact h.cut (Nat.pos_of_ne_zero hpos) hcut _

/-! ## Giving back -/

/-- The ranges that start before a range that is apart from them lie below it. -/
theorem stop_le_of_mem_takeWhile {free : List ByteRange} {r : ByteRange} (hr : r.Solid)
    (hapart : ∀ f ∈ free, f.Apart r) {b : ByteRange}
    (hb : b ∈ free.takeWhile (·.start < r.start)) : b.stop ≤ r.start := by
  have hlt := List.all_eq_true.1 List.all_takeWhile b hb
  simp only [decide_eq_true_eq] at hlt
  have hb' := hapart b ((List.takeWhile_sublist _).subset hb)
  unfold Apart at hb'
  unfold Solid at hr
  omega

/-- The other ones lie above it. -/
theorem le_start_of_mem_dropWhile {free : List ByteRange} {r : ByteRange}
    (hfree : Canonical free) (hapart : ∀ f ∈ free, f.Apart r) {a : ByteRange}
    (ha : a ∈ free.dropWhile (·.start < r.start)) : r.stop ≤ a.start := by
  have hsub : (free.dropWhile (·.start < r.start)).Sublist free := List.dropWhile_sublist _
  have hstart : r.start ≤ a.start := by
    cases hdrop : free.dropWhile (·.start < r.start) with
    | nil => simp [hdrop] at ha
    | cons first rest =>
      have hfirst := List.head?_dropWhile_not (fun f : ByteRange => f.start < r.start) free
      rw [hdrop] at hfirst ha hsub
      simp only [List.head?_cons, decide_eq_false_iff_not] at hfirst
      have hsolid := hfree.solid first (hsub.subset List.mem_cons_self)
      unfold Solid at hsolid
      rcases List.mem_cons.1 ha with rfl | ha
      · omega
      · have hgap := (List.pairwise_cons.1 (hfree.ascending.sublist hsub)).1 a ha
        omega
  have hsolid := hfree.solid a (hsub.subset ha)
  have ha' := hapart a (hsub.subset ha)
  unfold Apart at ha'
  unfold Solid at hsolid
  omega

/-- Giving back a live range succeeds. -/
theorem Holds.release {m : FirstFit} {live : List ByteRange} {r : ByteRange}
    (h : m.Holds (r :: live)) :
    ∃ m', m.release r = .ok m' ∧ m'.Holds live ∧ m'.capacity = m.capacity ∧
      m'.alignment = m.alignment := by
  obtain ⟨hr, hlive⟩ := List.forall_mem_cons.1 h.solid
  obtain ⟨hapart, hpairs⟩ := List.pairwise_cons.1 h.apart
  have hsplit : m.free.takeWhile (·.start < r.start) ++ m.free.dropWhile (·.start < r.start) =
      m.free := List.takeWhile_append_dropWhile
  have hcanonical : Canonical (m.free.takeWhile (·.start < r.start) ++
      m.free.dropWhile (·.start < r.start)) := hsplit.symm ▸ h.canonical
  have hfree : ∀ f ∈ m.free, f.Apart r := by
    intro f hf
    refine apart_of_disjoint (h.canonical.solid f hf) hr fun x hx hxr => ?_
    exact h.disjoint x ⟨f, hf, hx⟩ (covers_cons.2 (Or.inl hxr))
  have hbelow : ∀ b ∈ m.free.takeWhile (·.start < r.start), b.stop ≤ r.start :=
    fun b hb => stop_le_of_mem_takeWhile hr hfree hb
  have habove : ∀ a ∈ m.free.dropWhile (·.start < r.start), r.stop ≤ a.start :=
    fun a ha => le_start_of_mem_dropWhile h.canonical hfree ha
  obtain ⟨hjoined, hcovers⟩ := joinBetween_spec hr hcanonical hbelow habove
  rw [hsplit] at hcovers
  have hclearBelow :
      (m.free.takeWhile (·.start < r.start)).getLast?.all (·.stop ≤ r.start) = true := by
    rw [Option.all_eq_true]
    intro b hb
    exact decide_eq_true (hbelow b (List.mem_of_getLast? hb))
  have hclearAbove :
      (m.free.dropWhile (·.start < r.start)).head?.all (r.stop ≤ ·.start) = true := by
    rw [Option.all_eq_true]
    intro a ha
    exact decide_eq_true (habove a (List.mem_of_head? ha))
  have hused := h.used_eq
  rw [List.map_cons, Word.total_cons] at hused
  have hsub : Word.sub m.used r.length = .ok (m.used - r.length) :=
    Word.sub_eq_ok_iff.2 ⟨by omega, rfl⟩
  unfold Solid at hr
  refine ⟨{ m with
    free := joinBetween (m.free.takeWhile (·.start < r.start)) r
      (m.free.dropWhile (·.start < r.start))
    used := m.used - r.length }, ?_, ⟨hjoined, hlive, hpairs, ?_, ?_, ?_⟩, rfl, rfl⟩
  · unfold FirstFit.release
    rw [if_neg (by omega)]
    simp only [hclearBelow, hclearAbove, Bool.and_self, if_true, hsub, bind, Except.bind, pure,
      Except.pure]
  · intro x hx hlive'
    rcases (hcovers x).1 hx with hx' | hx'
    · exact not_covers_of_apart hapart hx' hlive'
    · exact h.disjoint x hx' (covers_cons.2 (Or.inr hlive'))
  · intro x
    rw [h.covers x, hcovers x, covers_cons]
    tauto
  · show m.used - r.length = _
    omega

/-! ## Looking ahead -/

/-- Taking room agrees with cutting a range off, where empty rooms do not count. -/
theorem takeRoom_eq_carve {size : Nat} (hsize : 0 < size) {rooms : List Nat}
    {free : List ByteRange} (hrooms : rooms.filter (0 < ·) = free.map length) :
    (takeRoom size rooms).map (·.filter (0 < ·)) =
      (carve size free).map fun cut => cut.2.map length := by
  induction rooms generalizing free with
  | nil =>
    obtain rfl : free = [] := by simpa using hrooms.symm
    rfl
  | cons room rooms ih =>
    by_cases hroom : room = 0
    · subst hroom
      have hrest : rooms.filter (0 < ·) = free.map length := by simpa using hrooms
      have hstep := ih hrest
      have hnone : ¬ size ≤ 0 := by omega
      rw [← hstep, takeRoom, if_neg hnone, Option.map_map]
      rfl
    · have hpos : 0 < room := by omega
      rw [List.filter_cons_of_pos (by simpa using hpos)] at hrooms
      cases free with
      | nil => cases hrooms
      | cons r rest =>
        rw [List.map_cons, List.cons.injEq] at hrooms
        obtain ⟨rfl, hrest⟩ := hrooms
        unfold takeRoom carve
        by_cases hle : size ≤ r.length
        · rw [if_pos hle, if_pos hle]
          by_cases hall : r.length = size
          · simp [hall, hrest]
          · have hleft : 0 < r.length - size := by omega
            have hlength : (⟨r.start + size, r.stop⟩ : ByteRange).length = r.length - size :=
              Nat.sub_add_eq r.stop r.start size
            simp [hall, hleft, hrest, hlength]
        · rw [if_neg hle, if_neg hle, Option.map_map, Option.map_map]
          have hstep := ih hrest
          have hmap : ∀ {α : Type} (o : Option α) (f : α → List Nat),
              (o.map f).map (r.length :: ·) = o.map fun a => r.length :: f a := by
            intro α o f
            cases o <;> rfl
          have hcons := congrArg (Option.map (r.length :: ·)) hstep
          rw [hmap, hmap] at hcons
          simpa [Function.comp_def, hpos] using hcons

/-- The rooms of canonical ranges are their lengths. -/
theorem filter_map_length {free : List ByteRange} (h : Canonical free) :
    (free.map length).filter (0 < ·) = free.map length := by
  refine List.filter_eq_self.2 fun n hn => ?_
  obtain ⟨r, hr, rfl⟩ := List.mem_map.1 hn
  have hsolid := h.solid r hr
  unfold Solid at hsolid
  unfold length
  exact decide_eq_true (by omega)

/-- Looking ahead ends with an answer if all sizes can be rounded up. -/
theorem serveAll_ok (m : FirstFit) {sizes : List Nat}
    (hsizes : ∀ size ∈ sizes, Word.alignUp size m.alignment < Word.bound) (rooms : List Nat) :
    ∃ served, m.serveAll rooms sizes = .ok served := by
  induction sizes generalizing rooms with
  | nil => exact ⟨true, rfl⟩
  | cons size sizes ih =>
    obtain ⟨hsize, hsizes⟩ := List.forall_mem_cons.1 hsizes
    have haligned : m.aligned size = .ok (Word.alignUp size m.alignment) :=
      Word.roundUp_eq_ok hsize
    unfold FirstFit.serveAll
    simp only [haligned, bind, Except.bind]
    split
    · exact ih hsizes rooms
    · split
      · exact ih hsizes _
      · exact ⟨false, rfl⟩

/-- Requests are served from one room exactly if together they fit it. -/
theorem serveAll_single (m : FirstFit) {sizes : List Nat}
    (hsizes : ∀ size ∈ sizes, Word.alignUp size m.alignment < Word.bound) (room : Nat) :
    m.serveAll [room] sizes =
      .ok (decide (Word.total (sizes.map (Word.alignUp · m.alignment)) ≤ room)) := by
  induction sizes generalizing room with
  | nil => simp [serveAll]
  | cons size sizes ih =>
    obtain ⟨hsize, hsizes⟩ := List.forall_mem_cons.1 hsizes
    have haligned : m.aligned size = .ok (Word.alignUp size m.alignment) :=
      Word.roundUp_eq_ok hsize
    unfold serveAll
    simp only [haligned, bind, Except.bind, takeRoom, List.map_cons, Word.total_cons]
    split
    · next hzero =>
      rw [ih hsizes, hzero, Nat.zero_add]
    · by_cases hle : Word.alignUp size m.alignment ≤ room
      · simp only [if_pos hle]
        rw [ih hsizes]
        congr 2
        exact propext (by omega)
      · simp only [if_neg hle, Option.map_none, pure, Except.pure]
        congr 1
        exact (decide_eq_false (by omega)).symm

/-- An allocator that holds nothing has one free range. -/
theorem Holds.free_eq {m : FirstFit} (h : m.Holds []) (hpos : 0 < m.capacity) :
    m.free = [⟨0, m.capacity⟩] := by
  have hcovers : ∀ x, x < m.capacity ↔ Covers m.free x := by
    intro x
    rw [h.covers x]
    simp
  cases hfree : m.free with
  | nil =>
    rw [hfree] at hcovers
    exact absurd ((hcovers 0).1 hpos) covers_nil
  | cons r rest =>
    have hcanonical := h.canonical
    rw [hfree] at hcanonical hcovers
    obtain ⟨hsolid, hfirst, hrest⟩ := canonical_cons.1 hcanonical
    unfold Solid at hsolid
    -- the address after the first range is not free, so it is the end
    have hstop : r.stop = m.capacity := by
      have hlast := (hcovers (r.stop - 1)).2
        (covers_cons.2 (Or.inl (by simp only [Contains]; omega)))
      by_contra hne
      rcases covers_cons.1 ((hcovers r.stop).1 (by omega)) with hx | ⟨q, hq, hx⟩
      · simp only [Contains] at hx
        omega
      · have hgap := hfirst q hq
        simp only [Contains] at hx
        omega
    have hstart : r.start = 0 := by
      rcases covers_cons.1 ((hcovers 0).1 hpos) with hx | ⟨q, hq, hx⟩
      · simp only [Contains] at hx
        omega
      · have hgap := hfirst q hq
        simp only [Contains] at hx
        omega
    have hnil : rest = [] := by
      refine List.eq_nil_iff_forall_not_mem.2 fun q hq => ?_
      have hgap := hfirst q hq
      have hq' := hrest.solid q hq
      unfold Solid at hq'
      have hin := (hcovers q.start).2
        (covers_cons.2 (Or.inr ⟨q, hq, by simp only [Contains]; omega⟩))
      omega
    rw [hnil, ← hstart, ← hstop]

/-- What fits an allocator that holds nothing. -/
theorem Holds.canReserve_empty {m : FirstFit} (h : m.Holds []) (hpos : 0 < m.capacity)
    {sizes : List Nat} (hsizes : ∀ size ∈ sizes, Word.alignUp size m.alignment < Word.bound) :
    m.canReserve sizes =
      .ok (decide (Word.total (sizes.map (Word.alignUp · m.alignment)) ≤ m.capacity)) := by
  unfold canReserve
  rw [h.free_eq hpos]
  exact m.serveAll_single hsizes m.capacity

end FirstFit

end TaskLoom
