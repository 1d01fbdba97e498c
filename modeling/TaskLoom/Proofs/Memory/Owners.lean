import TaskLoom.Memory.Owners

/-!
# The owner of a byte

The segments of an owner table are a way to write down, for each byte, which task claimed
it last.  A claim cuts the segments it reaches into, but seen from one byte it is a
plain overwrite: inside the claimed interval the claiming task owns the byte, and outside
nothing changes.  The owners of an interval are the owners of its bytes.

## Main results

* `contains_outside` — cutting leaves the bytes outside of the interval.
* `owns_claim` — a claim overwrites the bytes of its interval.
* `mem_of` — the owners of an interval are those of its bytes.
-/

namespace TaskLoom.Owners

variable {o : Owners} {i : Interval} {s : Segment} {task owner x : Nat}

/-- A task claimed a byte last. -/
def Owns (o : Owners) (task x : Nat) : Prop :=
  ∃ s ∈ o.segments, s.owner = task ∧ s.start ≤ x ∧ x < s.stop

/-- No segment is empty. -/
def Solid (o : Owners) : Prop :=
  ∀ s ∈ o.segments, s.start < s.stop

theorem not_owns_empty : ¬ empty.Owns task x := by
  simp [Owns, empty]

theorem solid_empty : empty.Solid := by
  simp [Solid, empty]

/-! ## Cutting a segment -/

theorem mem_outside {left : Segment} :
    left ∈ outside i s ↔
      (left = s ∧ (s.stop ≤ i.start ∨ i.stop ≤ s.start)) ∨
      (left = ⟨s.start, i.start, s.owner⟩ ∧ s.start < i.start ∧ i.start < s.stop ∧
        s.start < i.stop) ∨
      (left = ⟨i.stop, s.stop, s.owner⟩ ∧ i.stop < s.stop ∧ i.start < s.stop ∧
        s.start < i.stop) := by
  unfold outside
  split
  · next haway =>
    rw [List.mem_singleton]
    constructor
    · intro heq
      exact Or.inl ⟨heq, haway⟩
    · rintro (h | h | h)
      · exact h.1
      · omega
      · omega
  · next hreach =>
    have hlow : i.start < s.stop := by omega
    have hhigh : s.start < i.stop := by omega
    simp only [List.mem_append, List.mem_ite_nil_right, List.mem_singleton, hreach, hlow, hhigh,
      false_and, false_or, true_and, and_comm]

theorem owner_of_mem_outside {left : Segment} (h : left ∈ outside i s) :
    left.owner = s.owner := by
  rcases mem_outside.1 h with ⟨rfl, -⟩ | ⟨rfl, -⟩ | ⟨rfl, -⟩ <;> rfl

/-- What is left of a segment are its bytes outside of the interval. -/
theorem contains_outside :
    (∃ left ∈ outside i s, left.owner = owner ∧ left.start ≤ x ∧ x < left.stop) ↔
      (s.owner = owner ∧ s.start ≤ x ∧ x < s.stop) ∧ ¬ i.range.Contains x := by
  simp only [mem_outside, ByteRange.Contains, Interval.range]
  constructor
  · rintro ⟨left, ⟨rfl, haway⟩ | ⟨rfl, hcut⟩ | ⟨rfl, hcut⟩, howner, hle, hlt⟩
    · exact ⟨⟨howner, hle, hlt⟩, by omega⟩
    · simp only at howner hle hlt
      exact ⟨⟨howner, hle, by omega⟩, by omega⟩
    · simp only at howner hle hlt
      exact ⟨⟨howner, by omega, hlt⟩, by omega⟩
  · rintro ⟨⟨howner, hle, hlt⟩, hout⟩
    by_cases haway : s.stop ≤ i.start ∨ i.stop ≤ s.start
    · exact ⟨s, Or.inl ⟨rfl, haway⟩, howner, hle, hlt⟩
    · -- the byte is below or above the interval
      by_cases hbelow : x < i.start
      · exact ⟨_, Or.inr (Or.inl ⟨rfl, by omega⟩), howner, hle, hbelow⟩
      · exact ⟨_, Or.inr (Or.inr ⟨rfl, by omega⟩), howner, by simp only; omega, hlt⟩

/-! ## Claims -/

theorem mem_segments_claim {left : Segment} :
    left ∈ (o.claim i task).segments ↔
      (∃ s ∈ o.segments, left ∈ outside i s) ∨ left = ⟨i.start, i.stop, task⟩ := by
  unfold claim
  rw [(List.mergeSort_perm _ _).mem_iff, List.mem_append, List.mem_flatMap, List.mem_singleton]

/-- A claim overwrites the bytes of its interval. -/
theorem owns_claim :
    (o.claim i task).Owns owner x ↔
      (i.range.Contains x ∧ owner = task) ∨ (¬ i.range.Contains x ∧ o.Owns owner x) := by
  constructor
  · rintro ⟨left, hleft, howner, hle, hlt⟩
    rcases mem_segments_claim.1 hleft with ⟨s, hs, hout⟩ | rfl
    · obtain ⟨hbyte, hnot⟩ := contains_outside.1 ⟨left, hout, howner, hle, hlt⟩
      exact Or.inr ⟨hnot, s, hs, hbyte⟩
    · exact Or.inl ⟨⟨hle, hlt⟩, howner.symm⟩
  · rintro (⟨⟨hle, hlt⟩, rfl⟩ | ⟨hnot, s, hs, hbyte⟩)
    · exact ⟨_, mem_segments_claim.2 (Or.inr rfl), rfl, hle, hlt⟩
    · obtain ⟨left, hout, hleft⟩ := contains_outside.2 ⟨hbyte, hnot⟩
      exact ⟨left, mem_segments_claim.2 (Or.inl ⟨s, hs, hout⟩), hleft⟩

theorem Solid.claim (h : o.Solid) (hi : i.start < i.stop) (task : Nat) :
    (o.claim i task).Solid := by
  intro left hleft
  rcases mem_segments_claim.1 hleft with ⟨s, hs, hout⟩ | rfl
  · rcases mem_outside.1 hout with ⟨rfl, -⟩ | ⟨rfl, hlt, -⟩ | ⟨rfl, hlt, -⟩
    · exact h left hs
    · exact hlt
    · exact hlt
  · exact hi

/-- The owners of an interval are the owners of its bytes. -/
theorem mem_of (h : o.Solid) (hi : i.start < i.stop) :
    owner ∈ o.of i ↔ ∃ x, i.range.Contains x ∧ o.Owns owner x := by
  simp only [of, List.mem_map, List.mem_filter, Bool.and_eq_true, decide_eq_true_eq,
    ByteRange.Contains, Interval.range, Owns]
  constructor
  · rintro ⟨s, ⟨hs, hlow, hhigh⟩, howner⟩
    have hsolid := h s hs
    exact ⟨max s.start i.start, by omega, s, hs, howner, by omega⟩
  · rintro ⟨x, hx, s, hs, howner, hle, hlt⟩
    exact ⟨s, ⟨hs, by omega, by omega⟩, howner⟩

end TaskLoom.Owners
