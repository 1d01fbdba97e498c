import Mathlib.Algebra.BigOperators.Group.List.Basic
import Mathlib.Tactic.Common
import TaskLoom.Word

/-!
# Checked arithmetic over lists

Exact sums do not depend on the order of what is added, and an addend never exceeds
the sum.  Checking every element of a list succeeds exactly if every check does.

## Main results

* `Word.total_perm`, `Word.total_map_le`, `Word.total_flatMap` — exact sums.
* `Word.alignUp`, `Word.roundUp_eq_ok` — rounding up to a multiple.
* `mapM_ok`, `mapM_overflow` — checks that all succeed, and checks one of which overflows.
-/

namespace TaskLoom

namespace Word

theorem total_perm {ms ns : List Nat} (h : ms.Perm ns) : total ms = total ns :=
  h.sum_eq

theorem le_total {n : Nat} {ns : List Nat} (h : n ∈ ns) : n ≤ total ns := by
  induction ns with
  | nil => cases h
  | cons m ns ih =>
    rw [total_cons]
    rcases List.mem_cons.1 h with rfl | h
    · omega
    · have hle := ih h
      omega

/-- What weighs nothing can be left out of a sum. -/
theorem total_filter_pos {α : Type} (weight : α → Nat) (as : List α) :
    total ((as.filter (0 < weight ·)).map weight) = total (as.map weight) := by
  induction as with
  | nil => rfl
  | cons a as ih =>
    by_cases hpos : 0 < weight a
    · simp [hpos, ih]
    · simp [ih, Nat.eq_zero_of_not_pos hpos]

theorem total_map_le {α : Type} {f g : α → Nat} {as : List α} (h : ∀ a ∈ as, f a ≤ g a) :
    total (as.map f) ≤ total (as.map g) := by
  induction as with
  | nil => exact Nat.le_refl _
  | cons a as ih =>
    obtain ⟨ha, has⟩ := List.forall_mem_cons.1 h
    exact Nat.add_le_add ha (ih has)

theorem total_flatMap {α β : Type} (f : α → List β) (weight : β → Nat) (as : List α) :
    total ((as.flatMap f).map weight) = total (as.map fun a => total ((f a).map weight)) := by
  induction as with
  | nil => rfl
  | cons a as ih => simp [ih]

/-- What satisfies one of two conditions that exclude each other. -/
theorem total_filter_or {α : Type} (weight : α → Nat) {p q : α → Bool} {as : List α}
    (h : ∀ a ∈ as, p a = true → q a = false) :
    total ((as.filter fun a => p a || q a).map weight) =
      total ((as.filter p).map weight) + total ((as.filter q).map weight) := by
  induction as with
  | nil => rfl
  | cons a as ih =>
    obtain ⟨ha, has⟩ := List.forall_mem_cons.1 h
    have hrest := ih has
    cases hp : p a with
    | true =>
      simp only [List.filter_cons, hp, ha hp, Bool.true_or, if_true, Bool.false_eq_true, if_false,
        List.map_cons, total_cons, hrest]
      omega
    | false =>
      cases hq : q a with
      | true =>
        simp only [List.filter_cons, hp, hq, Bool.or_true, if_true, Bool.false_eq_true, if_false,
          List.map_cons, total_cons, hrest]
        omega
      | false =>
        simpa only [List.filter_cons, hp, hq, Bool.or_self, Bool.false_eq_true, if_false] using
          hrest

theorem total_sublist {ms ns : List Nat} (h : ms.Sublist ns) : total ms ≤ total ns := by
  induction h with
  | slnil => exact Nat.le_refl _
  | cons n _ ih =>
    rw [total_cons]
    omega
  | cons_cons n _ ih => exact Nat.add_le_add_left ih n

/-- The least multiple of `unit` from `n` on. -/
def alignUp (n unit : Nat) : Nat :=
  if n % unit = 0 then n else n + (unit - n % unit)

theorem le_alignUp (n unit : Nat) : n ≤ alignUp n unit := by
  unfold alignUp
  split <;> omega

theorem dvd_alignUp (n : Nat) {unit : Nat} (hunit : 0 < unit) : unit ∣ alignUp n unit := by
  unfold alignUp
  split
  · next h => exact Nat.dvd_of_mod_eq_zero h
  · have hlt := Nat.mod_lt n hunit
    have hdiv := Nat.div_add_mod n unit
    refine ⟨n / unit + 1, ?_⟩
    rw [Nat.mul_add, Nat.mul_one]
    omega

/-- Rounding that succeeds gives the least multiple. -/
theorem eq_alignUp_of_roundUp {n unit k : Nat} (h : roundUp n unit = .ok k) :
    k = alignUp n unit := by
  unfold roundUp at h
  unfold alignUp
  split at h
  · next hzero =>
    rw [if_pos hzero]
    exact (Except.ok.inj h).symm
  · next hzero =>
    rw [if_neg hzero]
    exact (fit_eq_ok_iff.1 h).2.symm

theorem overflow_of_fit {n : Nat} {fault : Fault} (h : fit n = .error fault) :
    fault = .overflow := by
  unfold fit at h
  split at h
  · cases h
  · cases h
    rfl

theorem overflow_of_roundUp {n unit : Nat} {fault : Fault} (h : roundUp n unit = .error fault) :
    fault = .overflow := by
  unfold roundUp at h
  split at h
  · cases h
  · exact overflow_of_fit h

theorem roundUp_eq_ok {n unit : Nat} (h : alignUp n unit < bound) :
    roundUp n unit = .ok (alignUp n unit) := by
  unfold roundUp alignUp at *
  split
  · rfl
  · next hzero =>
    rw [if_neg hzero] at h
    exact fit_eq_ok_iff.2 ⟨h, rfl⟩

/-- A word that can be rounded up is a word when it is. -/
theorem alignUp_lt_of_roundUp {n unit k : Nat} (hn : n < bound) (h : roundUp n unit = .ok k) :
    alignUp n unit < bound := by
  unfold roundUp at h
  unfold alignUp
  split at h
  · next hzero => rwa [if_pos hzero]
  · next hzero =>
    rw [if_neg hzero]
    exact (fit_eq_ok_iff.1 h).1

end Word

/-- Checks that all succeed give their results in order. -/
theorem mapM_ok {α β : Type} {f : α → Except Fault β} {g : α → β} {l : List α}
    (h : ∀ x ∈ l, f x = .ok (g x)) : l.mapM f = .ok (l.map g) := by
  induction l with
  | nil => rfl
  | cons x l ih =>
    obtain ⟨hx, hl⟩ := List.forall_mem_cons.1 h
    rw [List.mapM_cons, hx, ih hl]
    rfl

/-- Checks that each fail only by overflow fail only by overflow. -/
theorem overflow_of_mapM {α β : Type} {f : α → Except Fault β}
    (hf : ∀ x fault, f x = .error fault → fault = .overflow) {l : List α} {fault : Fault}
    (h : l.mapM f = .error fault) : fault = .overflow := by
  induction l with
  | nil => cases h
  | cons x l ih =>
    rw [List.mapM_cons] at h
    cases hx : f x with
    | error fault' =>
      rw [hx] at h
      cases h
      exact hf x _ hx
    | ok y =>
      cases hl : l.mapM f with
      | error fault' =>
        rw [hx, hl] at h
        cases h
        exact ih hl
      | ok ys =>
        rw [hx, hl] at h
        cases h

/-- One check that overflows is enough, if the others fail in no other way. -/
theorem mapM_overflow {α β : Type} {f : α → Except Fault β}
    (hf : ∀ x fault, f x = .error fault → fault = .overflow) {l : List α} {x : α} (hx : x ∈ l)
    (hfail : f x = .error .overflow) : l.mapM f = .error .overflow := by
  cases hl : l.mapM f with
  | error fault => rw [overflow_of_mapM hf hl]
  | ok ys =>
    induction l generalizing ys with
    | nil => cases hx
    | cons y l ih =>
      rw [List.mapM_cons] at hl
      rcases List.mem_cons.1 hx with rfl | hx
      · rw [hfail] at hl
        cases hl
      · cases hy : f y with
        | error fault =>
          rw [hy] at hl
          cases hl
        | ok z =>
          cases hzs : l.mapM f with
          | error fault =>
            rw [hy, hzs] at hl
            cases hl
          | ok zs => cases ih hx zs hzs

end TaskLoom
