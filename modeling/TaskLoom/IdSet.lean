/-!
# Ascending lists of ids without repeats

Sets of task ids are answered in ascending order, so they are kept that way: a
strictly ascending list.  `IdSet.ofList` brings any list into this form.
-/

namespace TaskLoom.IdSet

/-- Adds an id to an ascending list, once. -/
def insert (x : Nat) : List Nat → List Nat
  | [] => [x]
  | y :: rest =>
    if x < y then x :: y :: rest
    else if x = y then y :: rest
    else y :: insert x rest

/-- The ids of a list, ascending and without repeats. -/
def ofList (ids : List Nat) : List Nat :=
  ids.foldr insert []

/-- The ids of two ascending lists together. -/
def union (xs ys : List Nat) : List Nat :=
  xs.foldr insert ys

@[simp]
theorem mem_insert {x z : Nat} {ids : List Nat} : z ∈ insert x ids ↔ z = x ∨ z ∈ ids := by
  induction ids with
  | nil => simp [insert]
  | cons y rest ih =>
    unfold insert
    split
    · simp
    · split
      · simp_all
      · simp only [List.mem_cons, ih]
        exact or_left_comm

@[simp]
theorem mem_union {xs ys : List Nat} {z : Nat} : z ∈ union xs ys ↔ z ∈ xs ∨ z ∈ ys := by
  induction xs with
  | nil => simp [union]
  | cons x rest ih => simp_all [union, or_assoc]

@[simp]
theorem mem_ofList {ids : List Nat} {z : Nat} : z ∈ ofList ids ↔ z ∈ ids := by
  have h := @mem_union ids [] z
  simpa [ofList, union] using h

/-- Insertion keeps a list strictly ascending. -/
theorem pairwise_insert {x : Nat} {ids : List Nat} (h : ids.Pairwise (· < ·)) :
    (insert x ids).Pairwise (· < ·) := by
  induction ids with
  | nil => simp [insert]
  | cons y rest ih =>
    obtain ⟨hy, hrest⟩ := List.pairwise_cons.1 h
    unfold insert
    split
    · next hxy =>
      refine List.pairwise_cons.2 ⟨?_, h⟩
      intro z hz
      rcases List.mem_cons.1 hz with rfl | hz
      · exact hxy
      · exact Nat.lt_trans hxy (hy z hz)
    · split
      · exact h
      · refine List.pairwise_cons.2 ⟨?_, ih hrest⟩
        intro z hz
        rcases mem_insert.1 hz with rfl | hz
        · omega
        · exact hy z hz

/-- A union with a strictly ascending list is strictly ascending. -/
theorem pairwise_union (xs : List Nat) {ys : List Nat} (h : ys.Pairwise (· < ·)) :
    (union xs ys).Pairwise (· < ·) := by
  unfold union
  induction xs with
  | nil => exact h
  | cons x rest ih => exact pairwise_insert ih

/-- The result of `ofList` is strictly ascending. -/
theorem pairwise_ofList (ids : List Nat) : (ofList ids).Pairwise (· < ·) :=
  pairwise_union ids .nil

/-- Strictly ascending lists with the same ids are equal. -/
theorem eq_of_mem_iff {xs ys : List Nat} (hx : xs.Pairwise (· < ·)) (hy : ys.Pairwise (· < ·))
    (h : ∀ z, z ∈ xs ↔ z ∈ ys) : xs = ys := by
  have hperm : xs.Perm ys :=
    (List.perm_ext_iff_of_nodup (hx.imp Nat.ne_of_lt) (hy.imp Nat.ne_of_lt)).2 h
  exact hperm.eq_of_pairwise (fun _ _ _ _ hlt hlt' => absurd hlt' (Nat.lt_asymm hlt)) hx hy

end TaskLoom.IdSet
