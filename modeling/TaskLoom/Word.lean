import TaskLoom.Fault

/-!
# Checked 64-bit arithmetic

Sizes, offsets, budgets and slot counts are natural numbers below `Word.bound`.
An operation whose exact result is not such a number fails with
`Fault.overflow`; nothing wraps around.

Adding a list of numbers one after the other fails exactly when their exact sum
is out of range, because the partial sums only grow (`Word.foldlM_add`), so
`Word.sum` tests the exact sum once.
-/

namespace TaskLoom.Word

/-- The first number that does not fit a 64-bit word. -/
def bound : Nat := 18446744073709551616

/-- Accepts a number that fits a word. -/
def fit (n : Nat) : Except Fault Nat :=
  if n < bound then .ok n else .error .overflow

/-- Checked addition. -/
def add (a b : Nat) : Except Fault Nat :=
  fit (a + b)

/-- Checked subtraction: the result must not fall below zero. -/
def sub (a b : Nat) : Except Fault Nat :=
  if b ≤ a then .ok (a - b) else .error .overflow

/-- Checked multiplication. -/
def mul (a b : Nat) : Except Fault Nat :=
  fit (a * b)

/-- The exact sum of a list. -/
def total (ns : List Nat) : Nat :=
  ns.foldr (· + ·) 0

/-- Checked sum of a list. -/
def sum (ns : List Nat) : Except Fault Nat :=
  fit (total ns)

/-- The least multiple of `unit` that is at least `n`. -/
def roundUp (n unit : Nat) : Except Fault Nat :=
  if n % unit = 0 then .ok n else fit (n + (unit - n % unit))

@[simp]
theorem fit_eq_ok_iff {n m : Nat} : fit n = .ok m ↔ n < bound ∧ n = m := by
  unfold fit
  by_cases h : n < bound <;> simp [h]

@[simp]
theorem add_eq_ok_iff {a b c : Nat} : add a b = .ok c ↔ a + b < bound ∧ a + b = c := by
  simp [add]

@[simp]
theorem sub_eq_ok_iff {a b c : Nat} : sub a b = .ok c ↔ b ≤ a ∧ a - b = c := by
  unfold sub
  by_cases h : b ≤ a <;> simp [h]

@[simp]
theorem total_nil : total [] = 0 := rfl

@[simp]
theorem total_cons (n : Nat) (ns : List Nat) : total (n :: ns) = n + total ns := rfl

@[simp]
theorem total_append (ms ns : List Nat) : total (ms ++ ns) = total ms + total ns := by
  induction ms with
  | nil => simp
  | cons m ms ih => simp [ih, Nat.add_assoc]

/-- Adding one number after the other to `a` checks no more than the exact sum. -/
theorem foldlM_add (ns : List Nat) {a : Nat} (ha : a < bound) :
    ns.foldlM add a = fit (a + total ns) := by
  induction ns generalizing a with
  | nil => simp [fit, ha, pure, Except.pure]
  | cons n ns ih =>
    rw [List.foldlM_cons, total_cons, ← Nat.add_assoc]
    by_cases h : a + n < bound
    · have hadd : add a n = .ok (a + n) := by simp [h]
      rw [hadd]
      exact ih h
    · have hadd : add a n = .error .overflow := by simp [add, fit, h]
      have hsum : ¬ a + n + total ns < bound := by omega
      rw [hadd, fit, if_neg hsum]
      rfl

@[simp]
theorem sum_eq_ok_iff {ns : List Nat} {s : Nat} :
    sum ns = .ok s ↔ total ns < bound ∧ total ns = s := by
  simp [sum]

end TaskLoom.Word
