import Mathlib.Algebra.BigOperators.Group.Finset.Piecewise
import Mathlib.Algebra.Order.BigOperators.Group.Finset
import Mathlib.Data.Nat.Bitwise
import Mathlib.Tactic.Common
import TaskLoom.Flow.Maximum

/-!
# Flows and cuts

Two networks of the same shape differ by a flow from `u` to `v` if every pair of
arcs has the same residual capacity in total and every node but `u` and `v` the
same leaving capacity.  `Moves` says this, with the amount that `u` lost and `v`
gained.  It needs no flow function: the residual capacities before and after are
the flow.

Adding up the leaving capacities over a set of nodes, the arcs inside the set
cancel in pairs.  What remains is the capacity of the arcs that leave the set, and
this is the only fact about cuts that is ever needed (`Moves.cut`).

## Main results

* `WellFormed.addArc` — networks are built well formed.
* `Moves.trans`, `Moves.add` — flows along a path, and flows on top of each other.
* `Moves.cut` — the capacity that leaves a set of nodes changes by the amount that
  starts or ends in it.
-/

namespace TaskLoom

/-! ## The reverse of an arc -/

theorem xor_one_cases (e : Nat) :
    (e % 2 = 0 ∧ e ^^^ 1 = e + 1) ∨ (e % 2 = 1 ∧ (e ^^^ 1) + 1 = e) := by
  rcases Nat.even_or_odd e with h | h
  · exact Or.inl ⟨Nat.even_iff.1 h, Nat.xor_one_of_even h⟩
  · have hpos : e % 2 = 1 := Nat.odd_iff.1 h
    rw [Nat.xor_one_of_odd h]
    omega

@[simp]
theorem xor_one_xor_one (e : Nat) : e ^^^ 1 ^^^ 1 = e := by
  rw [Nat.xor_assoc, Nat.xor_self, Nat.xor_zero]

theorem xor_one_lt {n : Nat} (hn : n % 2 = 0) {e : Nat} : e ^^^ 1 < n ↔ e < n := by
  rcases xor_one_cases e with h | h <;> omega

theorem xor_one_ne (e : Nat) : e ^^^ 1 ≠ e := by
  rcases xor_one_cases e with h | h <;> omega

theorem eq_xor_one_comm {e f : Nat} : e = f ^^^ 1 ↔ e ^^^ 1 = f := by
  constructor
  · rintro rfl
    simp
  · rintro rfl
    simp

namespace FlowNetwork

open Finset

variable {net net' net'' : FlowNetwork}

/-! ## Well-formed networks -/

/-- The node that an arc leads to. -/
def head (net : FlowNetwork) (e : Nat) : Nat :=
  (net.arcs[e]?).elim 0 (·.target)

/-- The node that an arc leaves: the one that its reverse leads to. -/
def tail (net : FlowNetwork) (e : Nat) : Nat :=
  net.head (e ^^^ 1)

@[simp]
theorem tail_xor_one (net : FlowNetwork) (e : Nat) : net.tail (e ^^^ 1) = net.head e := by
  simp [tail]

@[simp]
theorem head_xor_one (net : FlowNetwork) (e : Nat) : net.head (e ^^^ 1) = net.tail e := rfl

/-- Arcs come in pairs between nodes of the network, and each node lists the arcs
that leave it, once. -/
structure WellFormed (net : FlowNetwork) : Prop where
  even : net.arcs.size % 2 = 0
  head_lt : ∀ e < net.arcs.size, net.head e < net.leaving.size
  mem_arcsFrom : ∀ v e, e ∈ net.arcsFrom v ↔ e < net.arcs.size ∧ net.tail e = v
  nodup_arcsFrom : ∀ v, (net.arcsFrom v).Nodup

theorem WellFormed.tail_lt (h : net.WellFormed) {e : Nat} (he : e < net.arcs.size) :
    net.tail e < net.leaving.size :=
  h.head_lt _ ((xor_one_lt h.even).2 he)

/-- Being well formed is a matter of the shape, whatever the capacities. -/
theorem WellFormed.of_shape (h : net.WellFormed) (hleaving : net'.leaving = net.leaving)
    (hsize : net'.arcs.size = net.arcs.size) (hhead : ∀ e, net'.head e = net.head e) :
    net'.WellFormed := by
  have harcs : ∀ v, net'.arcsFrom v = net.arcsFrom v := by
    intro v
    unfold arcsFrom
    rw [hleaving]
  constructor
  · rw [hsize]
    exact h.even
  · intro e he
    rw [hhead, hleaving]
    exact h.head_lt e (hsize ▸ he)
  · intro v e
    rw [harcs, hsize, tail, hhead, h.mem_arcsFrom]
    rfl
  · intro v
    rw [harcs]
    exact h.nodup_arcsFrom v

/-- An arc that is not in the network has no capacity. -/
theorem residual_of_ge {e : Nat} (he : net.arcs.size ≤ e) : net.residual e = 0 := by
  simp [residual, he]

theorem wellFormed_create (nodes : Nat) : (create nodes).WellFormed where
  even := rfl
  head_lt := by simp [create]
  mem_arcsFrom := by
    intro v e
    by_cases hv : v < nodes <;> simp [create, arcsFrom, hv]
  nodup_arcsFrom := by
    intro v
    by_cases hv : v < nodes <;> simp [create, arcsFrom, hv]

section AddArc

variable (net) (u v forward backward : Nat)

@[simp]
theorem size_addArc : (net.addArc u v forward backward).arcs.size = net.arcs.size + 2 := by
  simp [addArc]

@[simp]
theorem nodes_addArc : (net.addArc u v forward backward).leaving.size = net.leaving.size := by
  simp [addArc]

/-- The arcs of a network with one more pair. -/
theorem arcs_addArc (e : Nat) :
    (net.addArc u v forward backward).arcs[e]? =
      if e < net.arcs.size then net.arcs[e]?
      else if e = net.arcs.size then some ⟨v, forward⟩
      else if e = net.arcs.size + 1 then some ⟨u, backward⟩
      else none := by
  simp only [addArc, Array.getElem?_push, Array.size_push]
  split
  · next h => simp [h]
  · next h =>
    split
    · next h' => simp [h']
    · next h' =>
      split
      · rfl
      · next h'' => simp [show ¬ e < net.arcs.size by omega]

theorem head_addArc (e : Nat) :
    (net.addArc u v forward backward).head e =
      if e < net.arcs.size then net.head e
      else if e = net.arcs.size then v
      else if e = net.arcs.size + 1 then u
      else 0 := by
  unfold head
  rw [arcs_addArc]
  split_ifs <;> rfl

theorem residual_addArc (e : Nat) :
    (net.addArc u v forward backward).residual e =
      if e < net.arcs.size then net.residual e
      else if e = net.arcs.size then forward
      else if e = net.arcs.size + 1 then backward
      else 0 := by
  unfold residual
  rw [arcs_addArc]
  split_ifs <;> rfl

end AddArc

theorem tail_addArc {net : FlowNetwork} (h : net.WellFormed) (u v forward backward e : Nat) :
    (net.addArc u v forward backward).tail e =
      if e < net.arcs.size then net.tail e
      else if e = net.arcs.size then u
      else if e = net.arcs.size + 1 then v
      else 0 := by
  have heven := h.even
  have hlt := @xor_one_lt _ h.even e
  unfold tail
  rw [head_addArc]
  by_cases hold : e < net.arcs.size
  · rw [if_pos (hlt.2 hold), if_pos hold]
  · rw [if_neg (mt hlt.1 hold), if_neg hold]
    rcases xor_one_cases e with ⟨he, hx⟩ | ⟨he, hx⟩ <;> split_ifs <;> omega

/-- The arcs that leave a node of a network with one more pair. -/
theorem arcsFrom_addArc {net : FlowNetwork} {u v : Nat} (hu : u < net.leaving.size)
    (hv : v < net.leaving.size) (forward backward x : Nat) :
    (net.addArc u v forward backward).arcsFrom x =
      net.arcsFrom x ++ ((if x = u then [net.arcs.size] else []) ++
        (if x = v then [net.arcs.size + 1] else [])) := by
  by_cases hx : x < net.leaving.size
  · simp only [addArc, arcsFrom, Array.getD_eq_getD_getElem?, Array.size_modify, hx,
      getElem?_pos, Option.getD_some, Array.getElem_modify, @eq_comm _ u x, @eq_comm _ v x]
    split_ifs <;> simp
  · have hxu : x ≠ u := by omega
    have hxv : x ≠ v := by omega
    simp [addArc, arcsFrom, hx, hxu, hxv]

/-- Networks are built well formed. -/
theorem WellFormed.addArc (h : net.WellFormed) {u v : Nat} (hu : u < net.leaving.size)
    (hv : v < net.leaving.size) (forward backward : Nat) :
    (net.addArc u v forward backward).WellFormed := by
  constructor
  · have heven := h.even
    rw [size_addArc]
    omega
  · intro e he
    rw [size_addArc] at he
    rw [head_addArc, nodes_addArc]
    split_ifs with h1 h2 h3
    · exact h.head_lt e h1
    · exact hv
    · exact hu
    · omega
  · intro x e
    rw [arcsFrom_addArc hu hv, tail_addArc h, size_addArc, List.mem_append, h.mem_arcsFrom]
    by_cases h1 : e < net.arcs.size
    · have hne : e ≠ net.arcs.size ∧ e ≠ net.arcs.size + 1 := by omega
      have hlt : e < net.arcs.size + 2 := by omega
      simp [h1, hne, hlt]
    · by_cases h2 : e = net.arcs.size
      · simp [h2, eq_comm]
      · by_cases h3 : e = net.arcs.size + 1
        · simp [h3, eq_comm]
        · have hge : ¬ e < net.arcs.size + 2 := by omega
          simp [h1, h2, h3, hge]
  · intro x
    rw [arcsFrom_addArc hu hv, List.nodup_append]
    refine ⟨h.nodup_arcsFrom x, by split_ifs <;> simp, ?_⟩
    intro e he f hf
    have hlt := ((h.mem_arcsFrom x e).1 he).1
    have hge : net.arcs.size ≤ f := by
      simp only [List.mem_append, List.mem_ite_nil_right, List.mem_singleton] at hf
      omega
    omega

/-! ## Capacity that leaves a node or a set of nodes -/

/-- Summing a function over a list of numbers. -/
theorem total_map_eq_sum {f : Nat → Nat} {l : List Nat} (hl : l.Nodup) :
    Word.total (l.map f) = ∑ e ∈ l.toFinset, f e := by
  induction l with
  | nil => rfl
  | cons e l ih =>
    obtain ⟨he, hl⟩ := List.nodup_cons.1 hl
    rw [List.map_cons, Word.total_cons, ih hl, List.toFinset_cons, sum_insert (by simpa using he)]

/-- The leaving capacity of a node is the sum over the arcs that leave it. -/
theorem WellFormed.capacityFrom_eq (h : net.WellFormed) (v : Nat) :
    net.capacityFrom v = ∑ e ∈ range net.arcs.size with net.tail e = v, net.residual e := by
  unfold capacityFrom
  rw [total_map_eq_sum (h.nodup_arcsFrom v)]
  congr 1
  ext e
  simp [h.mem_arcsFrom v e]

section Crossing

variable (net) (inside : Nat → Prop) [DecidablePred inside]

/-- The arcs that leave a set of nodes. -/
def crossing : Finset Nat :=
  {e ∈ range net.arcs.size | inside (net.tail e) ∧ ¬ inside (net.head e)}

/-- The arcs within a set of nodes. -/
def internal : Finset Nat :=
  {e ∈ range net.arcs.size | inside (net.tail e) ∧ inside (net.head e)}

@[simp]
theorem mem_crossing {e : Nat} : e ∈ net.crossing inside ↔
    e < net.arcs.size ∧ inside (net.tail e) ∧ ¬ inside (net.head e) := by
  simp [crossing]

@[simp]
theorem mem_internal {e : Nat} : e ∈ net.internal inside ↔
    e < net.arcs.size ∧ inside (net.tail e) ∧ inside (net.head e) := by
  simp [internal]

/-- Adding up over the arcs that leave the nodes of a set, one node after the other, adds
up over the arcs within the set and the arcs that leave it. -/
theorem sum_leaving {M : Type} [AddCommMonoid M] (h : net.WellFormed) (f : Nat → M) :
    ∑ v ∈ range net.leaving.size with inside v, ∑ e ∈ range net.arcs.size with net.tail e = v, f e =
      ∑ e ∈ net.internal inside, f e + ∑ e ∈ net.crossing inside, f e := by
  have hdisjoint : Disjoint (net.internal inside) (net.crossing inside) := by
    rw [Finset.disjoint_left]
    intro e he hc
    exact ((mem_crossing net inside).1 hc).2.2 ((mem_internal net inside).1 he).2.2
  have hunion : net.internal inside ∪ net.crossing inside =
      {e ∈ range net.arcs.size | inside (net.tail e)} := by
    ext e
    by_cases hh : inside (net.head e) <;> simp [hh]
  rw [← sum_union hdisjoint, hunion]
  have hmaps : ∀ e ∈ ({e ∈ range net.arcs.size | inside (net.tail e)} : Finset Nat),
      net.tail e ∈ ({v ∈ range net.leaving.size | inside v} : Finset Nat) := by
    intro e he
    obtain ⟨he, hin⟩ := mem_filter.1 he
    exact mem_filter.2 ⟨mem_range.2 (h.tail_lt (mem_range.1 he)), hin⟩
  rw [← sum_fiberwise_of_maps_to hmaps]
  · refine sum_congr rfl fun v hv => sum_congr ?_ fun _ _ => rfl
    ext e
    have hin := (mem_filter.1 hv).2
    simp only [mem_filter, mem_range]
    constructor
    · rintro ⟨he, rfl⟩
      exact ⟨⟨he, hin⟩, rfl⟩
    · rintro ⟨⟨he, -⟩, heq⟩
      exact ⟨he, heq⟩

/-- The leaving capacities of the nodes of a set are those of the arcs within it
and of the arcs that leave it. -/
theorem sum_capacityFrom (h : net.WellFormed) :
    ∑ v ∈ range net.leaving.size with inside v, net.capacityFrom v =
      ∑ e ∈ net.internal inside, net.residual e + ∑ e ∈ net.crossing inside, net.residual e := by
  simp_rw [h.capacityFrom_eq]
  exact sum_leaving net inside h net.residual

end Crossing

/-! ## Flows -/

/-- `net'` is what sending `amount` from `u` to `v` leaves of `net`. -/
structure Moves (net net' : FlowNetwork) (u v amount : Nat) : Prop where
  leaving_eq : net'.leaving = net.leaving
  size_eq : net'.arcs.size = net.arcs.size
  head_eq : ∀ e, net'.head e = net.head e
  pair_eq : ∀ e, net'.residual e + net'.residual (e ^^^ 1) =
    net.residual e + net.residual (e ^^^ 1)
  balance : ∀ x, net'.capacityFrom x + (if x = u then amount else 0) =
    net.capacityFrom x + (if x = v then amount else 0)

namespace Moves

variable {u v w amount more : Nat}

theorem tail_eq (h : Moves net net' u v amount) (e : Nat) : net'.tail e = net.tail e :=
  h.head_eq _

theorem wellFormed (h : Moves net net' u v amount) (hwf : net.WellFormed) : net'.WellFormed :=
  hwf.of_shape h.leaving_eq h.size_eq h.head_eq

/-- Nothing is moved, or it ends where it starts. -/
theorem refl (net : FlowNetwork) (h : u = v ∨ amount = 0) : Moves net net u v amount where
  leaving_eq := rfl
  size_eq := rfl
  head_eq _ := rfl
  pair_eq _ := rfl
  balance x := by
    rcases h with rfl | rfl
    · rfl
    · simp

/-- A flow that goes on where another one ended. -/
theorem trans (h : Moves net net' v w amount) (h' : Moves net' net'' u v amount) :
    Moves net net'' u w amount where
  leaving_eq := h'.leaving_eq.trans h.leaving_eq
  size_eq := h'.size_eq.trans h.size_eq
  head_eq e := (h'.head_eq e).trans (h.head_eq e)
  pair_eq e := (h'.pair_eq e).trans (h.pair_eq e)
  balance x := by
    have h1 := h.balance x
    have h2 := h'.balance x
    omega

/-- A flow on top of another one. -/
theorem add (h : Moves net net' u v amount) (h' : Moves net' net'' u v more) :
    Moves net net'' u v (amount + more) where
  leaving_eq := h'.leaving_eq.trans h.leaving_eq
  size_eq := h'.size_eq.trans h.size_eq
  head_eq e := (h'.head_eq e).trans (h.head_eq e)
  pair_eq e := (h'.pair_eq e).trans (h.pair_eq e)
  balance x := by
    have h1 := h.balance x
    have h2 := h'.balance x
    split_ifs at h1 h2 ⊢ <;> omega

/-- The start of a flow loses its amount. -/
theorem capacityFrom_start (h : Moves net net' u v amount) (hne : u ≠ v) :
    net'.capacityFrom u + amount = net.capacityFrom u := by
  have hb := h.balance u
  rw [if_pos rfl, if_neg hne] at hb
  exact hb

section Cut

variable (inside : Nat → Prop) [DecidablePred inside]

theorem crossing_eq (h : Moves net net' u v amount) :
    net'.crossing inside = net.crossing inside := by
  ext e
  simp [h.size_eq, h.tail_eq, h.head_eq]

theorem internal_eq (h : Moves net net' u v amount) :
    net'.internal inside = net.internal inside := by
  ext e
  simp [h.size_eq, h.tail_eq, h.head_eq]

end Cut

end Moves

section Cut

variable (inside : Nat → Prop) [DecidablePred inside]

/-- The arcs within a set of nodes can be added up in either direction. -/
theorem WellFormed.sum_internal_reverse {M : Type} [AddCommMonoid M] (h : net.WellFormed)
    (f : Nat → M) :
    ∑ e ∈ net.internal inside, f (e ^^^ 1) = ∑ e ∈ net.internal inside, f e := by
  refine sum_nbij' (· ^^^ 1) (· ^^^ 1) ?_ ?_ ?_ ?_ ?_
  · intro e he
    rw [mem_internal] at he ⊢
    rw [xor_one_lt h.even, tail_xor_one, head_xor_one]
    exact ⟨he.1, he.2.2, he.2.1⟩
  · intro e he
    rw [mem_internal] at he ⊢
    rw [xor_one_lt h.even, tail_xor_one, head_xor_one]
    exact ⟨he.1, he.2.2, he.2.1⟩
  · intro e _
    simp
  · intro e _
    simp
  · intro e _
    rfl

/-- A flow does not change the capacity within a set of nodes. -/
theorem Moves.sum_internal {u v amount : Nat} (hwf : net.WellFormed)
    (h : Moves net net' u v amount) :
    ∑ e ∈ net.internal inside, net'.residual e = ∑ e ∈ net.internal inside, net.residual e := by
  have hpairs : ∑ e ∈ net.internal inside, (net'.residual e + net'.residual (e ^^^ 1)) =
      ∑ e ∈ net.internal inside, (net.residual e + net.residual (e ^^^ 1)) :=
    sum_congr rfl fun e _ => h.pair_eq e
  rw [sum_add_distrib, sum_add_distrib, hwf.sum_internal_reverse inside net'.residual,
    hwf.sum_internal_reverse inside net.residual] at hpairs
  omega

/-- The capacity that leaves a set of nodes changes by the amount that starts or
ends in it. -/
theorem Moves.cut {u v amount : Nat} (hwf : net.WellFormed) (h : Moves net net' u v amount)
    (hu : u < net.leaving.size) (hv : v < net.leaving.size) :
    ∑ e ∈ net.crossing inside, net'.residual e + (if inside u then amount else 0) =
      ∑ e ∈ net.crossing inside, net.residual e + (if inside v then amount else 0) := by
  have hone : ∀ {x : Nat}, x < net.leaving.size →
      ∑ y ∈ range net.leaving.size with inside y, (if y = x then amount else 0) =
        if inside x then amount else 0 := by
    intro x hx
    rw [sum_ite_eq']
    simp [hx]
  have hsum : ∑ y ∈ range net.leaving.size with inside y,
        (net'.capacityFrom y + if y = u then amount else 0) =
      ∑ y ∈ range net.leaving.size with inside y,
        (net.capacityFrom y + if y = v then amount else 0) :=
    sum_congr rfl fun y _ => h.balance y
  have hafter := sum_capacityFrom net' inside (h.wellFormed hwf)
  have hbefore := sum_capacityFrom net inside hwf
  rw [h.leaving_eq, h.internal_eq inside, h.crossing_eq inside, h.sum_internal inside hwf] at hafter
  rw [sum_add_distrib, sum_add_distrib, hone hu, hone hv, hafter, hbefore] at hsum
  omega

end Cut

end FlowNetwork

end TaskLoom
