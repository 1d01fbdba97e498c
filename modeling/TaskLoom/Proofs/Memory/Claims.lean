import Mathlib.Data.List.Induction
import TaskLoom.Proofs.Memory.Owners

/-!
# Owner tables after any claims

A claim cuts the segments that it reaches into, adds its own and sorts.  What is left of the
old segments lies outside of the claimed interval, and so the segments stay apart: sorted by
their starts, each stops before the next one starts.

Together with the fact that a claim overwrites the bytes of its interval, this makes the
table a record of last claims.  The owners of an interval are read off the segments that
reach into it, which finds the owners of its bytes.  An interval without bytes is no
question about bytes: the comparison of its ends still finds a segment that lies around it.

## Main results

* `Tidy.claim` — a claim keeps the segments sorted, non-empty and disjoint.
* `owns_after` — a byte is owned by the last claim that contained it.
* `after_records` — the table after any claims.
-/

namespace TaskLoom.Owners

variable {o : Owners} {i : Interval} {s : Segment} {task x : Nat}

/-! ## Segments stay apart -/

/-- Segments are not empty, and each stops before the next one starts. -/
structure Tidy (o : Owners) : Prop where
  solid : o.Solid
  apart : o.segments.Pairwise fun s t => s.stop ≤ t.start

theorem tidy_empty : empty.Tidy where
  solid := solid_empty
  apart := .nil

/-- One of two segments stops before the other starts. -/
def Apart (s t : Segment) : Prop :=
  s.stop ≤ t.start ∨ t.stop ≤ s.start

theorem Apart.symm {s t : Segment} (h : Apart s t) : Apart t s :=
  Or.symm h

/-- What is left of a segment lies within it and outside of the interval. -/
theorem within_of_mem_outside {left : Segment} (h : left ∈ outside i s) :
    s.start ≤ left.start ∧ left.stop ≤ s.stop ∧
      (left.stop ≤ i.start ∨ i.stop ≤ left.start) := by
  rcases mem_outside.1 h with ⟨rfl, haway⟩ | ⟨rfl, hcut⟩ | ⟨rfl, hcut⟩
  · exact ⟨Nat.le_refl _, Nat.le_refl _, haway⟩
  · exact ⟨Nat.le_refl _, Nat.le_of_lt hcut.2.1, Or.inl (Nat.le_refl _)⟩
  · exact ⟨Nat.le_of_lt hcut.2.2, Nat.le_refl _, Or.inr (Nat.le_refl _)⟩

/-- The parts that are left of one segment are apart. -/
theorem pairwise_outside (hi : i.start < i.stop) (s : Segment) :
    (outside i s).Pairwise Apart := by
  unfold outside
  split
  · exact List.pairwise_singleton _ s
  · refine List.pairwise_append.2 ⟨?_, ?_, ?_⟩
    · split <;> simp
    · split <;> simp
    · intro low hlow high hhigh
      simp only [List.mem_ite_nil_right, List.mem_singleton] at hlow hhigh
      obtain ⟨-, rfl⟩ := hlow
      obtain ⟨-, rfl⟩ := hhigh
      exact Or.inl (Nat.le_of_lt hi)

/-- Before sorting, the segments after a claim are apart. -/
theorem Tidy.pairwise_apart (h : o.Tidy) (hi : i.start < i.stop) (task : Nat) :
    (o.segments.flatMap (outside i) ++ [(⟨i.start, i.stop, task⟩ : Segment)]).Pairwise Apart := by
  refine List.pairwise_append.2 ⟨?_, List.pairwise_singleton _ _, ?_⟩
  · refine List.pairwise_flatMap.2 ⟨fun s _ => pairwise_outside hi s, h.apart.imp ?_⟩
    intro s t hst left hleft right hright
    have hwithin := within_of_mem_outside hleft
    have hwithin' := within_of_mem_outside hright
    exact Or.inl (by omega)
  · intro left hleft new hnew
    obtain ⟨s, -, hout⟩ := List.mem_flatMap.1 hleft
    obtain rfl := List.mem_singleton.1 hnew
    exact (within_of_mem_outside hout).2.2

/-- A claim keeps the segments sorted, non-empty and disjoint. -/
theorem Tidy.claim (h : o.Tidy) (hi : i.start < i.stop) (task : Nat) : (o.claim i task).Tidy := by
  have hsolid := h.solid.claim hi task
  have hsorted : (o.claim i task).segments.Pairwise
      fun s t => decide (s.start ≤ t.start) = true := by
    refine List.pairwise_mergeSort ?_ ?_ _
    · intro a b c hab hbc
      simp only [decide_eq_true_eq] at hab hbc ⊢
      exact Nat.le_trans hab hbc
    · intro a b
      simpa using Nat.le_total _ _
  have hperm : (o.claim i task).segments.Perm
      (o.segments.flatMap (outside i) ++ [⟨i.start, i.stop, task⟩]) := List.mergeSort_perm _ _
  have hapart : (o.claim i task).segments.Pairwise Apart :=
    hperm.symm.pairwise (h.pairwise_apart hi task) fun hst => hst.symm
  refine ⟨hsolid, (hsorted.and hapart).imp_of_mem ?_⟩
  rintro s t hs ht ⟨hle, hapart⟩
  -- a segment that starts no later cannot be the one that comes after
  have hle : s.start ≤ t.start := by simpa using hle
  have hfull := hsolid t ht
  rcases hapart with hbefore | hafter
  · exact hbefore
  · omega

/-! ## Sequences of claims -/

/-- A task claims an interval. -/
structure Claim where
  interval : Interval
  task : Nat
deriving DecidableEq, Repr

/-- The table after some claims, one after the other. -/
def after (claims : List Claim) : Owners :=
  claims.foldl (fun o c => o.claim c.interval c.task) empty

/-- The task of the last claim that contained a byte. -/
def lastClaim (claims : List Claim) (x : Nat) : Option Nat :=
  (claims.reverse.find? fun c => c.interval.start ≤ x && x < c.interval.stop).map (·.task)

theorem after_concat (claims : List Claim) (c : Claim) :
    after (claims ++ [c]) = (after claims).claim c.interval c.task := by
  simp [after]

theorem lastClaim_concat (claims : List Claim) (c : Claim) (x : Nat) :
    lastClaim (claims ++ [c]) x =
      if c.interval.start ≤ x ∧ x < c.interval.stop then some c.task else lastClaim claims x := by
  unfold lastClaim
  rw [List.reverse_concat, List.find?_cons]
  by_cases hx : c.interval.start ≤ x ∧ x < c.interval.stop
  · simp [hx]
  · have hno : (decide (c.interval.start ≤ x) && decide (x < c.interval.stop)) = false := by
      simpa using hx
    rw [hno, if_neg hx]

/-- Claims of non-empty intervals keep the segments sorted, non-empty and disjoint. -/
theorem tidy_after {claims : List Claim}
    (h : ∀ c ∈ claims, c.interval.start < c.interval.stop) : (after claims).Tidy := by
  induction claims using List.reverseRecOn with
  | nil => exact tidy_empty
  | append_singleton claims c ih =>
    rw [after_concat]
    exact (ih fun d hd => h d (List.mem_append_left _ hd)).claim (h c (by simp)) c.task

/-- A byte is owned by the last claim that contained it. -/
theorem owns_after (claims : List Claim) (task x : Nat) :
    (after claims).Owns task x ↔ lastClaim claims x = some task := by
  induction claims using List.reverseRecOn with
  | nil => simp [after, lastClaim, not_owns_empty]
  | append_singleton claims c ih =>
    rw [after_concat, owns_claim, lastClaim_concat, ih]
    simp only [ByteRange.Contains, Interval.range]
    by_cases hx : c.interval.start ≤ x ∧ x < c.interval.stop
    · simp [hx, eq_comm]
    · simp [hx]

/-- What an interval without bytes finds lies around it. -/
theorem owns_around (htask : task ∈ o.of i) (hbelow : i.stop ≤ x + 1) (habove : x ≤ i.start) :
    o.Owns task x := by
  simp only [of, List.mem_map, List.mem_filter, Bool.and_eq_true, decide_eq_true_eq] at htask
  obtain ⟨s, ⟨hs, hlow, hhigh⟩, rfl⟩ := htask
  exact ⟨s, hs, rfl, by omega, by omega⟩

/-- After any claims of non-empty intervals the segments are sorted, non-empty and disjoint,
and the segment that holds a byte names the last claim that contained it.  The owners of an
interval that has bytes are the tasks that claimed one of them last.  One without bytes has
at most the owner of all bytes around it. -/
theorem after_records (claims : List Claim)
    (h : ∀ c ∈ claims, c.interval.start < c.interval.stop) :
    (∀ s ∈ (after claims).segments, s.start < s.stop) ∧
      ((after claims).segments.Pairwise fun s t => s.stop ≤ t.start) ∧
      (∀ x task, (∃ s ∈ (after claims).segments, s.owner = task ∧ s.start ≤ x ∧ x < s.stop) ↔
        lastClaim claims x = some task) ∧
      (∀ i : Interval, i.start < i.stop → ∀ task, task ∈ (after claims).of i ↔
        ∃ x, i.range.Contains x ∧ lastClaim claims x = some task) ∧
      ∀ i : Interval, i.stop ≤ i.start → ∀ task ∈ (after claims).of i,
        ∀ x, i.stop ≤ x + 1 → x ≤ i.start → lastClaim claims x = some task := by
  have htidy := tidy_after h
  refine ⟨htidy.solid, htidy.apart, fun x task => owns_after claims task x, ?_, ?_⟩
  · intro i hi task
    rw [mem_of htidy.solid hi]
    simp only [owns_after]
  · intro i _ task htask x hbelow habove
    exact (owns_after claims task x).1 (owns_around htask hbelow habove)

/-- The second claim splits the segment of the first, and the third trims what is left of it
and reaches beyond. -/
theorem after_records_patchwork :
    let claims : List Claim := [⟨⟨0, 0, 100⟩, 1⟩, ⟨⟨0, 40, 60⟩, 2⟩, ⟨⟨1, 90, 120⟩, 3⟩]
    (∀ c ∈ claims, c.interval.start < c.interval.stop) ∧
      ((after claims).segments.Pairwise fun s t => s.stop ≤ t.start) ∧
      (∃ s ∈ (after claims).segments, s.owner = 1 ∧ s.start ≤ 89 ∧ 89 < s.stop) ∧
      2 ∈ (after claims).of ⟨0, 59, 91⟩ ∧ 3 ∈ (after claims).of ⟨0, 59, 91⟩ ∧
      2 ∉ (after claims).of ⟨0, 39, 40⟩ := by
  intro claims
  have hfull : ∀ c ∈ claims, c.interval.start < c.interval.stop := by decide
  obtain ⟨-, hapart, hbytes, howners, -⟩ := after_records claims hfull
  refine ⟨hfull, hapart, (hbytes 89 1).2 (by decide), ?_, ?_, ?_⟩
  · exact (howners ⟨0, 59, 91⟩ (by decide) 2).2 ⟨59, ⟨by decide, by decide⟩, by decide⟩
  · exact (howners ⟨0, 59, 91⟩ (by decide) 3).2 ⟨90, ⟨by decide, by decide⟩, by decide⟩
  · intro hmem
    obtain ⟨x, ⟨hle, hlt⟩, hlast⟩ := (howners ⟨0, 39, 40⟩ (by decide) 2).1 hmem
    obtain rfl : x = 39 := Nat.le_antisymm (Nat.le_of_lt_succ hlt) hle
    exact absurd hlast (by decide)

/-- Intervals without bytes, one empty and one that stops before it starts, have an owner
although no byte of theirs was ever claimed. -/
theorem of_surrounded_hollow :
    let claims : List Claim := [⟨⟨0, 0, 10⟩, 7⟩]
    (∀ c ∈ claims, c.interval.start < c.interval.stop) ∧
      (7 ∈ (after claims).of ⟨0, 5, 5⟩ ∧
        ¬ ∃ x, (⟨0, 5, 5⟩ : Interval).range.Contains x ∧ lastClaim claims x = some 7) ∧
      7 ∈ (after claims).of ⟨0, 8, 3⟩ ∧
        ¬ ∃ x, (⟨0, 8, 3⟩ : Interval).range.Contains x ∧ lastClaim claims x = some 7 := by
  intro claims
  have hsegments : (after claims).segments = [⟨0, 10, 7⟩] := by
    simp [claims, after, claim, empty]
  refine ⟨by decide, ⟨?_, ?_⟩, ?_, ?_⟩
  · simp [of, hsegments]
  · rintro ⟨x, ⟨hle, hlt⟩, -⟩
    exact absurd hlt (Nat.not_lt_of_le hle)
  · simp [of, hsegments]
  · rintro ⟨x, ⟨hle, hlt⟩, -⟩
    simp only [Interval.range] at hle hlt
    omega

end TaskLoom.Owners
