import Mathlib.Data.List.Nodup
import Mathlib.Data.Fintype.Order
import TaskLoom.Proofs.Graph.Paths
import TaskLoom.TaskGraph.Order

/-!
# The topological order

`drain` lists tasks one by one and stops when every task that is left waits for
another one that is left.  A finite set in which everything has a predecessor
holds a cycle, so on an acyclic graph nothing is left, and the listing is an order
of all tasks in which edges only run forward.  A listing of all tasks in turn
excludes cycles, because positions grow along edges.

On any other graph the tasks that are left are those on a cycle and those that come
after one.  The lowest of them is reported.

## Main results

* `drain_perm`, `drain_forward`, `drain_stuck` — what one run of `drain` gives.
* `WellFormed.topologicalOrder_ok` — an acyclic graph has an order.
* `IsOrder.acyclic` — a graph that has an order is acyclic.
* `WellFormed.mem_left_iff` — what is left when a graph has no order.
-/

namespace TaskLoom.TaskGraph

variable {g : TaskGraph}

/-! ## One run of `drain` -/

section Drain

variable {table : Array (List Nat)}

theorem drain_of_none {waiting : List Nat}
    (h : (waiting.find? fun v => (table.getD v []).all (!waiting.contains ·)) = none) :
    drain table waiting = ([], waiting) := by
  rw [drain]
  split
  · rfl
  · next hfound => cases hfound.symm.trans h

theorem drain_of_some {waiting : List Nat} {v : Nat}
    (h : (waiting.find? fun v => (table.getD v []).all (!waiting.contains ·)) = some v) :
    drain table waiting =
      (v :: (drain table (waiting.erase v)).1, (drain table (waiting.erase v)).2) := by
  rw [drain]
  split
  · next hnone => cases hnone.symm.trans h
  · next w hfound =>
    obtain rfl := Option.some.inj (hfound.symm.trans h)
    rfl

variable (table)

/-- Every waiting task is listed or left, once. -/
theorem drain_perm (waiting : List Nat) :
    ((drain table waiting).1 ++ (drain table waiting).2).Perm waiting := by
  fun_induction drain table waiting with
  | case1 waiting found => simp
  | case2 waiting v found order stuck result ih =>
    have hv : v ∈ waiting := List.mem_of_find?_eq_some found
    rw [result] at ih
    exact (ih.cons v).trans (List.perm_cons_erase hv).symm

/-- A task waits for nothing that is listed after it, is left, or is itself. -/
theorem drain_forward (waiting : List Nat) :
    (drain table waiting).1.Pairwise (fun v w => w ∉ table.getD v []) ∧
      ∀ v ∈ (drain table waiting).1,
        v ∉ table.getD v [] ∧ ∀ w ∈ (drain table waiting).2, w ∉ table.getD v [] := by
  fun_induction drain table waiting with
  | case1 waiting found => simp
  | case2 waiting v found order stuck result ih =>
    have hperm := drain_perm table (waiting.erase v)
    have hv : v ∈ waiting := List.mem_of_find?_eq_some found
    have hfree : ∀ w ∈ waiting, w ∉ table.getD v [] := by
      intro w hw hmem
      have hall := List.find?_some found
      rw [List.all_eq_true] at hall
      simpa [hw] using hall w hmem
    rw [result] at ih hperm
    obtain ⟨hpair, hrest⟩ := ih
    have hleft : ∀ w ∈ order ++ stuck, w ∈ waiting :=
      fun w hw => List.mem_of_mem_erase (hperm.mem_iff.1 hw)
    refine ⟨List.pairwise_cons.2 ⟨?_, hpair⟩, ?_⟩
    · intro w hw
      exact hfree w (hleft w (List.mem_append_left stuck hw))
    · intro w hw
      rcases List.mem_cons.1 hw with rfl | hw
      · exact ⟨hfree w hv, fun x hx => hfree x (hleft x (List.mem_append_right order hx))⟩
      · exact hrest w hw

/-- What is left waits for something that is left. -/
theorem drain_stuck (waiting : List Nat) :
    ∀ v ∈ (drain table waiting).2, ∃ w ∈ (drain table waiting).2, w ∈ table.getD v [] := by
  fun_induction drain table waiting with
  | case1 waiting found =>
    intro v hv
    have hno := List.find?_eq_none.1 found v hv
    simpa [and_comm] using hno
  | case2 waiting v found order stuck result ih =>
    rw [result] at ih
    exact ih

/-- What is left keeps its order. -/
theorem drain_sublist (waiting : List Nat) :
    (drain table waiting).2.Sublist waiting := by
  fun_induction drain table waiting with
  | case1 waiting found => exact List.Sublist.refl waiting
  | case2 waiting v found order stuck result ih =>
    rw [result] at ih
    exact ih.trans List.erase_sublist

end Drain

/-! ## Orders and cycles -/

/-- In a finite set of tasks off all cycles some task has no predecessor in the set. -/
theorem exists_minimal {tasks : List Nat} (h : ∀ v ∈ tasks, ¬ g.Before v v) (hne : tasks ≠ []) :
    ∃ v ∈ tasks, ∀ u ∈ tasks, ¬ g.Joins u v := by
  let before : {v // v ∈ tasks} → {v // v ∈ tasks} → Prop := fun u v => g.Before u v
  have htrans : IsTrans _ before := ⟨fun _ _ _ huv hvw => Relation.TransGen.trans huv hvw⟩
  have hirrefl : Std.Irrefl before := ⟨fun v => h v v.2⟩
  have hwf : WellFounded before := Finite.wellFounded_of_trans_of_irrefl before
  obtain ⟨v, hv⟩ := List.exists_mem_of_ne_nil tasks hne
  obtain ⟨m, -, hm⟩ := hwf.has_min Set.univ ⟨⟨v, hv⟩, trivial⟩
  exact ⟨m, m.2, fun u hu hum => hm ⟨u, hu⟩ trivial (.single hum)⟩

theorem Acyclic.exists_minimal (h : g.Acyclic) {tasks : List Nat} (hne : tasks ≠ []) :
    ∃ v ∈ tasks, ∀ u ∈ tasks, ¬ g.Joins u v :=
  TaskGraph.exists_minimal (fun v _ => h v) hne

/-- An order of a graph: all tasks, edges run forward. -/
structure IsOrder (g : TaskGraph) (order : List Nat) : Prop where
  perm : order.Perm g.ids
  forward : ∀ u v, g.Joins u v → order.idxOf u < order.idxOf v

theorem IsOrder.nodup {order : List Nat} (h : g.IsOrder order) : order.Nodup :=
  h.perm.nodup_iff.2 (nodup_ids g)

/-- A graph that has an order is acyclic. -/
theorem IsOrder.acyclic {order : List Nat} (h : g.IsOrder order) : g.Acyclic :=
  .of_rank h.forward

/-- In an order of a graph no task waits for itself or for a later one. -/
theorem IsOrder.pairwise {order : List Nat} (h : g.IsOrder order) :
    order.Pairwise fun v w => ¬ g.Joins w v := by
  refine List.pairwise_iff_getElem.2 fun i j hi hj hij hjoins => ?_
  have hlt := h.forward _ _ hjoins
  rw [h.nodup.idxOf_getElem, h.nodup.idxOf_getElem] at hlt
  omega

/-- Of two entries of a list without repeats one stands before the other. -/
private theorem idxOf_lt_of_pairwise {R : Nat → Nat → Prop} {order : List Nat}
    (hpair : order.Pairwise R) {u v : Nat} (hu : u ∈ order) (hv : v ∈ order) (hne : u ≠ v)
    (hnot : ¬ R v u) : order.idxOf u < order.idxOf v := by
  rcases Nat.lt_trichotomy (order.idxOf u) (order.idxOf v) with hlt | heq | hgt
  · exact hlt
  · exact absurd ((List.idxOf_inj hu).1 heq) hne
  · have hrel := List.pairwise_iff_getElem.1 hpair _ _ (List.idxOf_lt_length_of_mem hv)
      (List.idxOf_lt_length_of_mem hu) hgt
    rw [List.getElem_idxOf, List.getElem_idxOf] at hrel
    exact absurd hrel hnot

/-- A listed task stands after those that it waits for, which are listed too. -/
theorem WellFormed.drain_joins (hg : g.WellFormed) {u v : Nat} (huv : g.Joins u v)
    (hv : v ∈ (drain g.predecessorTable g.ids).1) :
    u ∈ (drain g.predecessorTable g.ids).1 ∧
      (drain g.predecessorTable g.ids).1.idxOf u < (drain g.predecessorTable g.ids).1.idxOf v := by
  obtain ⟨hpair, hrest⟩ := drain_forward g.predecessorTable g.ids
  have hwait : u ∈ g.predecessorTable.getD v [] :=
    (mem_predecessorTable (lt_size_of_mem_ids (hg.joins_right huv))).2 huv
  have hsplit : u ∈ (drain g.predecessorTable g.ids).1 ++ (drain g.predecessorTable g.ids).2 :=
    (drain_perm g.predecessorTable g.ids).mem_iff.2 (hg.joins_left huv)
  have hu : u ∈ (drain g.predecessorTable g.ids).1 := by
    rcases List.mem_append.1 hsplit with hlisted | hleft
    · exact hlisted
    · exact absurd hwait ((hrest v hv).2 u hleft)
  have hne : u ≠ v := by
    rintro rfl
    exact (hrest u hv).1 hwait
  exact ⟨hu, idxOf_lt_of_pairwise hpair hu hv hne (fun hnot => hnot hwait)⟩

/-- What the order lists is an order. -/
theorem WellFormed.isOrder_of_topologicalOrder (hg : g.WellFormed) {order : List Nat}
    (h : g.topologicalOrder = .ok order) : g.IsOrder order := by
  unfold topologicalOrder at h
  split at h
  · next listed hdrain =>
    cases h
    have hperm := drain_perm g.predecessorTable g.ids
    rw [hdrain, List.append_nil] at hperm
    refine ⟨hperm, ?_⟩
    intro u v huv
    have hforward := hg.drain_joins huv
    rw [hdrain] at hforward
    exact (hforward (hperm.mem_iff.2 (hg.joins_right huv))).2
  · cases h

/-- An acyclic graph has an order. -/
theorem WellFormed.topologicalOrder_ok (hg : g.WellFormed) (hacyclic : g.Acyclic) :
    ∃ order, g.topologicalOrder = .ok order ∧ g.IsOrder order := by
  have hleft : (drain g.predecessorTable g.ids).2 = [] := by
    by_contra hne
    obtain ⟨v, hv, hmin⟩ := hacyclic.exists_minimal hne
    obtain ⟨w, hw, hwait⟩ := drain_stuck g.predecessorTable g.ids v hv
    have hids : v ∈ g.ids :=
      (drain_perm g.predecessorTable g.ids).mem_iff.1 (List.mem_append_right _ hv)
    exact hmin w hw ((mem_predecessorTable (lt_size_of_mem_ids hids)).1 hwait)
  have hok : g.topologicalOrder = .ok (drain g.predecessorTable g.ids).1 := by
    unfold topologicalOrder
    split
    · next listed hdrain => rw [hdrain]
    · next listed stuck rest hdrain => simp [hdrain] at hleft
  exact ⟨_, hok, hg.isOrder_of_topologicalOrder hok⟩

/-! ## What is left -/

/-- A task on a cycle, or one to which a cycle leads. -/
def Tangled (g : TaskGraph) (v : Nat) : Prop :=
  ∃ c, g.Before c c ∧ g.Leads c v

theorem Tangled.of_before {v : Nat} (h : g.Before v v) : g.Tangled v :=
  ⟨v, h, .refl⟩

/-- A listed task stands after all that comes before it. -/
theorem WellFormed.drain_before (hg : g.WellFormed) {u v : Nat} (huv : g.Before u v)
    (hv : v ∈ (drain g.predecessorTable g.ids).1) :
    u ∈ (drain g.predecessorTable g.ids).1 ∧
      (drain g.predecessorTable g.ids).1.idxOf u < (drain g.predecessorTable g.ids).1.idxOf v := by
  induction huv with
  | single step => exact hg.drain_joins step hv
  | tail _ step ih =>
    obtain ⟨hw, hlt⟩ := hg.drain_joins step hv
    obtain ⟨hu, hlt'⟩ := ih hw
    exact ⟨hu, Nat.lt_trans hlt' hlt⟩

/-- A tangled task is never listed: the cycle would be listed before itself. -/
theorem WellFormed.not_tangled_of_listed (hg : g.WellFormed) {v : Nat}
    (hv : v ∈ (drain g.predecessorTable g.ids).1) : ¬ g.Tangled v := by
  rintro ⟨c, hcycle, hleads⟩
  have hc : c ∈ (drain g.predecessorTable g.ids).1 := by
    rcases Relation.reflTransGen_iff_eq_or_transGen.1 hleads with rfl | hbefore
    · exact hv
    · exact (hg.drain_before hbefore hv).1
  exact Nat.lt_irrefl _ (hg.drain_before hcycle hc).2

open Classical in
/-- A task that is left is tangled.  What is left and leads to it is a finite set in which
everything has a predecessor. -/
theorem tangled_of_left {v : Nat} (hv : v ∈ (drain g.predecessorTable g.ids).2) : g.Tangled v := by
  by_contra hfree
  have hmem : ∀ u, u ∈ (drain g.predecessorTable g.ids).2.filter (g.Leads · v) ↔
      u ∈ (drain g.predecessorTable g.ids).2 ∧ g.Leads u v := by
    simp
  have hoff : ∀ u ∈ (drain g.predecessorTable g.ids).2.filter (g.Leads · v), ¬ g.Before u u :=
    fun u hu hcycle => hfree ⟨u, hcycle, ((hmem u).1 hu).2⟩
  obtain ⟨m, hm, hmin⟩ :=
    exists_minimal hoff (List.ne_nil_of_mem ((hmem v).2 ⟨hv, Relation.ReflTransGen.refl⟩))
  obtain ⟨hleft, hleads⟩ := (hmem m).1 hm
  obtain ⟨w, hw, hwait⟩ := drain_stuck g.predecessorTable g.ids m hleft
  have hids : m ∈ g.ids :=
    (drain_perm g.predecessorTable g.ids).mem_iff.1 (List.mem_append_right _ hleft)
  have hjoins : g.Joins w m := (mem_predecessorTable (lt_size_of_mem_ids hids)).1 hwait
  exact hmin w ((hmem w).2 ⟨hw, hleads.head hjoins⟩) hjoins

/-- Exactly the tangled tasks are left. -/
theorem WellFormed.mem_left_iff (hg : g.WellFormed) {v : Nat} :
    v ∈ (drain g.predecessorTable g.ids).2 ↔ g.Tangled v := by
  constructor
  · exact tangled_of_left
  · intro htangled
    have hv : v ∈ g.ids := by
      obtain ⟨c, hcycle, hleads⟩ := htangled
      rcases Relation.reflTransGen_iff_eq_or_transGen.1 hleads with rfl | hbefore
      · exact hg.before_left hcycle
      · exact hg.before_right hbefore
    rcases List.mem_append.1 ((drain_perm g.predecessorTable g.ids).mem_iff.2 hv) with
      hlisted | hleft
    · exact absurd htangled (hg.not_tangled_of_listed hlisted)
    · exact hleft

/-- A graph with a cycle is reported under the name of its lowest tangled task. -/
theorem WellFormed.topologicalOrder_tangled (hg : g.WellFormed) (hcyclic : ¬ g.Acyclic) :
    ∃ v, IsLeast {v | g.Tangled v} v ∧ g.topologicalOrder = .error (.cyclic (g.name v)) := by
  have hsorted := (pairwise_ids g).sublist (drain_sublist g.predecessorTable g.ids)
  have hleft : ∀ v, v ∈ (drain g.predecessorTable g.ids).2 ↔ g.Tangled v :=
    fun v => hg.mem_left_iff
  unfold topologicalOrder
  split
  · next listed hdrain =>
    rw [hdrain] at hleft
    exact absurd (fun v hv => List.not_mem_nil ((hleft v).2 (.of_before hv))) hcyclic
  · next listed v rest hdrain =>
    rw [hdrain] at hleft hsorted
    refine ⟨v, ⟨(hleft v).1 List.mem_cons_self, ?_⟩, rfl⟩
    intro w hw
    rcases List.mem_cons.1 ((hleft w).2 hw) with rfl | hrest
    · exact Nat.le_refl w
    · exact Nat.le_of_lt (List.rel_of_pairwise_cons hsorted hrest)

/-- A graph with a cycle is reported as such. -/
theorem WellFormed.topologicalOrder_cyclic (hg : g.WellFormed) (hcyclic : ¬ g.Acyclic) :
    ∃ name, g.topologicalOrder = .error (.cyclic name) := by
  obtain ⟨v, -, hreport⟩ := hg.topologicalOrder_tangled hcyclic
  exact ⟨g.name v, hreport⟩

/-! ## Positions -/

/-- Noting positions from `k` on. -/
theorem getD_foldl_setIfInBounds {order : List Nat} (hnodup : order.Nodup) (k : Nat)
    (ranks : Array Nat) {id : Nat} (hid : id < ranks.size) :
    ((order.zipIdx k).foldl (fun ranks (id, position) => ranks.setIfInBounds id position)
      ranks).getD id 0 = if id ∈ order then k + order.idxOf id else ranks.getD id 0 := by
  induction order generalizing k ranks with
  | nil => simp
  | cons first order ih =>
    obtain ⟨hfirst, hnodup⟩ := List.nodup_cons.1 hnodup
    rw [List.zipIdx_cons, List.foldl_cons, ih hnodup (k + 1) _ (by simpa using hid)]
    by_cases heq : id = first
    · subst heq
      simp [hfirst, hid]
    · have hne : first ≠ id := fun h => heq h.symm
      by_cases hmem : id ∈ order
      · rw [if_pos hmem, if_pos (List.mem_cons_of_mem first hmem), List.idxOf_cons_ne _ hne]
        omega
      · simp [hmem, heq, hne]

end TaskLoom.TaskGraph
