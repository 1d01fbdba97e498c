import Mathlib.Data.List.Sort
import TaskLoom.Proofs.Graph.Order
import TaskLoom.Word

/-!
# The order by counting

`drain` looks through all waiting tasks for the lowest that waits for no other.  The same
order comes out when each task has a count of the edges that hold it back: the lowest task
with a count of zero is listed, and each of its edges takes one off the count of its
target.  Tasks whose count becomes zero join the ready ones.

A count is the number of edges from waiting tasks.  Parallel edges count each, so a target
becomes ready with the last of them, and a task on a loop never does.  A listed task has no
edge from a waiting one, because its count was zero when it was listed, and so a count is
never taken below zero and no task becomes ready twice.

## Main results

* `crossAll_spec` — what the edges of one task do to the counts and the ready tasks.
* `Counts.next` — what listing one task keeps.
* `Counts.listReady` — counting lists what `drain` lists.
* `WellFormed.countedOrder_eq` — counting gives the order, or the same error.
-/

namespace TaskLoom.TaskGraph

/-- The number of edges that hold back each task, and the tasks that none holds back. -/
structure Tally where
  counts : Array Nat
  ready : List Nat

namespace Tally

/-- The edges that hold back a task. -/
def count (t : Tally) (v : Nat) : Nat :=
  t.counts.getD v 0

/-- An edge to a task no longer holds it back. -/
def cross (t : Tally) (target : Nat) : Except Fault Tally := do
  let left ← Word.sub (t.count target) 1
  return {
    counts := t.counts.setIfInBounds target left
    ready := if left = 0 then t.ready.orderedInsert (· ≤ ·) target else t.ready }

/-- The same for a list of edges, by their targets. -/
def crossAll (t : Tally) : List Nat → Except Fault Tally
  | [] => .ok t
  | target :: targets => do (← t.cross target).crossAll targets

end Tally

/-- The targets of a task's edges, one for each edge. -/
def targets (g : TaskGraph) (v : Nat) : List Nat :=
  (g.edges.filter (·.source = v)).map (·.target)

/-- Lists ready tasks, the lowest first, until there is none or `limit` are listed. -/
def listReady (g : TaskGraph) : Nat → Tally → Except Fault (List Nat × Tally)
  | 0, t => .ok ([], t)
  | limit + 1, t =>
    match t.ready with
    | [] => .ok ([], t)
    | v :: ready => do
      let (order, t) ← g.listReady limit (← { t with ready }.crossAll (g.targets v))
      return (v :: order, t)

/-- All edges into each task. -/
def tally (g : TaskGraph) : Tally :=
  let counts := ((List.range g.tasks.size).map fun v => g.edges.countP (·.target = v)).toArray
  { counts, ready := g.ids.filter (counts.getD · 0 = 0) }

/-- The order by counting.  A task is reported if not all are listed: the lowest that is
still held back. -/
def countedOrder (g : TaskGraph) : Except Fault (Except ScheduleError (List Nat)) := do
  let (order, t) ← g.listReady g.ids.length g.tally
  if order.length = g.ids.length then
    return .ok order
  else
    return .error (.cyclic (g.name ((g.ids.find? (0 < t.count ·)).getD 0)))

variable {g : TaskGraph}

/-! ## Edges of one task -/

/-- The ready tasks are in ascending order, and no edge holds one back. -/
structure Tally.Sound (t : Tally) : Prop where
  ascending : t.ready.Pairwise (· < ·)
  count_eq_zero : ∀ v ∈ t.ready, t.count v = 0

theorem Tally.count_cross {t : Tally} {target : Nat} (htarget : target < t.counts.size)
    (left v : Nat) (ready : List Nat) :
    Tally.count ⟨t.counts.setIfInBounds target left, ready⟩ v =
      if v = target then left else t.count v := by
  unfold count
  by_cases heq : v = target
  · subst heq
    simp [htarget]
  · simp [heq, Ne.symm heq]

/-- A new element among ascending ones. -/
theorem pairwise_orderedInsert {α : Type} [LinearOrder α] {xs : List α} (h : xs.Pairwise (· < ·))
    {x : α} (hx : x ∉ xs) : (xs.orderedInsert (· ≤ ·) x).Pairwise (· < ·) := by
  have hsorted := (h.imp le_of_lt).orderedInsert x
  have hnodup : (xs.orderedInsert (· ≤ ·) x).Nodup :=
    (List.perm_orderedInsert _ x xs).nodup_iff.2 (List.nodup_cons.2 ⟨hx, h.imp ne_of_lt⟩)
  exact (hsorted.and hnodup).imp fun h => lt_of_le_of_ne h.1 h.2

/-- One edge takes one off the count of its target, which is ready if that was the last. -/
theorem Tally.Sound.cross {t : Tally} (h : t.Sound) {target : Nat}
    (htarget : target < t.counts.size) (hheld : 0 < t.count target) :
    ∃ t', t.cross target = .ok t' ∧ t'.Sound ∧ t'.counts.size = t.counts.size ∧
      (∀ v, t'.count v + (if v = target then 1 else 0) = t.count v) ∧
      ∀ v, v ∈ t'.ready ↔ v ∈ t.ready ∨ 0 < t.count v ∧ t'.count v = 0 := by
  have hsub : Word.sub (t.count target) 1 = .ok (t.count target - 1) :=
    Word.sub_eq_ok_iff.2 ⟨hheld, rfl⟩
  have hnot : target ∉ t.ready := fun hmem => by
    have hzero := h.count_eq_zero target hmem
    omega
  simp only [Tally.cross, hsub, bind, Except.bind, pure, Except.pure]
  have hcount := count_cross htarget (t.count target - 1)
  refine ⟨_, rfl, ⟨?_, ?_⟩, by simp, ?_, ?_⟩
  · by_cases hlast : t.count target - 1 = 0
    · rw [if_pos hlast]
      exact pairwise_orderedInsert h.ascending hnot
    · rw [if_neg hlast]
      exact h.ascending
  · intro v hv
    rw [hcount]
    by_cases hlast : t.count target - 1 = 0
    · rw [if_pos hlast, List.mem_orderedInsert] at hv
      rcases hv with rfl | hv
      · rw [if_pos rfl, hlast]
      · rw [if_neg (ne_of_mem_of_not_mem hv hnot), h.count_eq_zero v hv]
    · rw [if_neg hlast] at hv
      rw [if_neg (ne_of_mem_of_not_mem hv hnot), h.count_eq_zero v hv]
  · intro v
    rw [hcount]
    by_cases heq : v = target
    · subst heq
      rw [if_pos rfl, if_pos rfl]
      omega
    · rw [if_neg heq, if_neg heq, Nat.add_zero]
  · intro v
    rw [hcount]
    by_cases hlast : t.count target - 1 = 0
    · rw [if_pos hlast, List.mem_orderedInsert]
      by_cases heq : v = target
      · subst heq
        simp [hlast, hheld]
      · simp only [heq, if_false, false_or]
        exact ⟨Or.inl, fun hv => hv.elim id fun hzero => absurd hzero.2 (by omega)⟩
    · rw [if_neg hlast]
      by_cases heq : v = target
      · subst heq
        simp [hlast]
      · simp only [heq, if_false]
        exact ⟨Or.inl, fun hv => hv.elim id fun hzero => absurd hzero.2 (by omega)⟩

/-- The edges of one task each take one off the count of their targets.  The targets that
none holds back any more are ready, beside those that were. -/
theorem Tally.Sound.crossAll {t : Tally} (h : t.Sound) (targets : List Nat)
    (htargets : ∀ v ∈ targets, v < t.counts.size)
    (hheld : ∀ v, targets.count v ≤ t.count v) :
    ∃ t', t.crossAll targets = .ok t' ∧ t'.Sound ∧ t'.counts.size = t.counts.size ∧
      (∀ v, t'.count v + targets.count v = t.count v) ∧
      ∀ v, v ∈ t'.ready ↔ v ∈ t.ready ∨ 0 < t.count v ∧ t'.count v = 0 := by
  induction targets generalizing t with
  | nil =>
    refine ⟨t, rfl, h, rfl, by simp, fun v => ⟨Or.inl, ?_⟩⟩
    rintro (hv | ⟨hpos, hzero⟩)
    · exact hv
    · omega
  | cons target targets ih =>
    obtain ⟨htarget, htargets⟩ := List.forall_mem_cons.1 htargets
    have hfirst : 0 < t.count target := by
      have := hheld target
      simp only [List.count_cons_self] at this
      omega
    obtain ⟨t₁, hcross, hsound₁, hsize₁, hcount₁, hready₁⟩ := h.cross htarget hfirst
    have hsplit : ∀ v, (target :: targets).count v =
        targets.count v + if v = target then 1 else 0 := by
      intro v
      simp only [List.count_cons, beq_iff_eq, eq_comm (a := target)]
    obtain ⟨t', hall, hsound, hsize, hcount, hready⟩ := ih hsound₁
      (fun v hv => hsize₁ ▸ htargets v hv)
      (fun v => by have := hheld v; have := hsplit v; have := hcount₁ v; omega)
    refine ⟨t', ?_, hsound, hsize.trans hsize₁, ?_, ?_⟩
    · simp only [Tally.crossAll, hcross, bind, Except.bind]
      exact hall
    · intro v
      have := hcount v
      have := hcount₁ v
      have := hsplit v
      omega
    · intro v
      have hle := hcount v
      have hle₁ := hcount₁ v
      rw [hready, hready₁]
      constructor
      · rintro ((hv | ⟨hpos, hzero⟩) | ⟨hpos, hzero⟩)
        · exact Or.inl hv
        · exact Or.inr ⟨hpos, by omega⟩
        · exact Or.inr ⟨by omega, hzero⟩
      · rintro (hv | ⟨hpos, hzero⟩)
        · exact Or.inl (Or.inl hv)
        · by_cases hnow : t₁.count v = 0
          · exact Or.inl (Or.inr ⟨hpos, hnow⟩)
          · exact Or.inr ⟨by omega, hzero⟩

/-! ## Edges from waiting tasks -/

/-- The number of edges into a task from tasks of a list. -/
def incoming (g : TaskGraph) (waiting : List Nat) (v : Nat) : Nat :=
  g.edges.countP fun e => e.target = v ∧ e.source ∈ waiting

theorem incoming_eq_zero_iff {waiting : List Nat} {v : Nat} :
    g.incoming waiting v = 0 ↔ ∀ u ∈ waiting, ¬ g.Joins u v := by
  simp only [incoming, List.countP_eq_zero, decide_eq_true_eq, Joins]
  constructor
  · rintro h u hu ⟨e, he, rfl, htarget⟩
    exact h e he ⟨htarget, hu⟩
  · rintro h e he ⟨htarget, hsource⟩
    exact h e.source hsource ⟨e, he, rfl, htarget⟩

/-- Edges from all tasks are all edges. -/
theorem WellFormed.incoming_ids (hg : g.WellFormed) (v : Nat) :
    g.incoming g.ids v = g.edges.countP (·.target = v) := by
  unfold incoming
  refine List.countP_congr fun e he => ?_
  simp [mem_ids.1 (hg.source_mem e he)]

/-- The edges from one of the tasks and those from the others. -/
theorem incoming_erase {waiting : List Nat} (hnodup : waiting.Nodup) {v : Nat}
    (hv : v ∈ waiting) (w : Nat) :
    g.incoming (waiting.erase v) w + (g.targets v).count w = g.incoming waiting w := by
  have hown : (g.edges.filter (·.source = v)).countP (fun e => e.target = w ∧ e.source ∈ waiting)
      = (g.targets v).count w := by
    unfold targets
    rw [List.count, List.countP_map]
    refine List.countP_congr fun e he => ?_
    have hsource : e.source = v := of_decide_eq_true (List.mem_filter.1 he).2
    simp [hsource, hv]
  have hothers : (g.edges.filter fun e => !decide (e.source = v)).countP
      (fun e => e.target = w ∧ e.source ∈ waiting) = g.incoming (waiting.erase v) w := by
    unfold incoming
    rw [List.countP_filter]
    refine List.countP_congr fun e _ => ?_
    simp only [Bool.and_eq_true, Bool.not_eq_true', decide_eq_true_eq, decide_eq_false_iff_not,
      hnodup.mem_erase_iff]
    exact ⟨fun h => ⟨h.1.1, h.2, h.1.2⟩, fun h => ⟨⟨h.1, h.2.2⟩, h.2.1⟩⟩
  rw [← hown, ← hothers, Nat.add_comm]
  exact (List.countP_eq_countP_filter_add _ _ _).symm

/-! ## Listing -/

/-- The counts are the edges from waiting tasks, none of which goes to a listed task, and
the ready tasks are the waiting ones without such an edge. -/
structure Counts (g : TaskGraph) (waiting : List Nat) (t : Tally) : Prop where
  size_eq : t.counts.size = g.tasks.size
  count_eq : ∀ v, t.count v = g.incoming waiting v
  listed : ∀ v, v ∉ waiting → g.incoming waiting v = 0
  ready_eq : t.ready = waiting.filter (g.incoming waiting · = 0)

namespace Counts

variable {waiting : List Nat} {t : Tally}

theorem mem_ready (h : g.Counts waiting t) {v : Nat} :
    v ∈ t.ready ↔ v ∈ waiting ∧ g.incoming waiting v = 0 := by
  rw [h.ready_eq, List.mem_filter, decide_eq_true_eq]

theorem sound (h : g.Counts waiting t) (hsorted : waiting.Pairwise (· < ·)) : t.Sound where
  ascending := h.ready_eq ▸ hsorted.filter _
  count_eq_zero := fun v hv => (h.count_eq v).trans (h.mem_ready.1 hv).2

/-- Listing a ready task and crossing its edges. -/
theorem next (h : g.Counts waiting t) (hg : g.WellFormed) (hsorted : waiting.Pairwise (· < ·))
    {v : Nat} {ready : List Nat} (hready : t.ready = v :: ready) :
    ∃ t', { t with ready }.crossAll (g.targets v) = .ok t' ∧ g.Counts (waiting.erase v) t' := by
  have hnodup : waiting.Nodup := hsorted.imp Nat.ne_of_lt
  have hsound := h.sound hsorted
  obtain ⟨hv, hfree⟩ := h.mem_ready.1 (hready ▸ List.mem_cons_self)
  have hascending := hsound.ascending
  rw [hready, List.pairwise_cons] at hascending
  have hrest : Tally.Sound { t with ready } :=
    ⟨hascending.2, fun w hw => hsound.count_eq_zero w (hready ▸ List.mem_cons_of_mem v hw)⟩
  have htail : ∀ w, w ∈ ready ↔ w ≠ v ∧ w ∈ waiting ∧ g.incoming waiting w = 0 := by
    intro w
    rw [← h.mem_ready, hready, List.mem_cons]
    refine ⟨fun hw => ⟨?_, Or.inr hw⟩, fun hw => hw.2.resolve_left hw.1⟩
    have hlt := hascending.1 w hw
    omega
  have hedges := incoming_erase (g := g) hnodup hv
  obtain ⟨t', hcross, hsound', hsize, hcount, hmem⟩ := hrest.crossAll (g.targets v)
    (by
      intro w hw
      obtain ⟨e, he, rfl⟩ := List.mem_map.1 hw
      exact h.size_eq ▸ lt_size_of_mem_ids (hg.target_mem e (List.mem_of_mem_filter he)))
    (fun w => (Nat.le.intro ((Nat.add_comm _ _).trans (hedges w))).trans_eq (h.count_eq w).symm)
  have hcount' : ∀ w, t'.count w = g.incoming (waiting.erase v) w := by
    intro w
    have hold : t'.count w + (g.targets v).count w = g.incoming waiting w :=
      (hcount w).trans (h.count_eq w)
    have := hedges w
    omega
  refine ⟨t', hcross, hsize.trans h.size_eq, hcount', ?_, ?_⟩
  · intro w hw
    have := hedges w
    have hzero : g.incoming waiting w = 0 := by
      by_cases heq : w = v
      · exact heq ▸ hfree
      · exact h.listed w fun hmem => hw ((List.mem_erase_of_ne heq).2 hmem)
    omega
  · refine hsound'.ascending.eq_of_mem_iff ((hsorted.sublist List.erase_sublist).filter _)
      fun w => ?_
    rw [hmem, htail, hcount', List.mem_filter, decide_eq_true_eq, hnodup.mem_erase_iff]
    have hpos : Tally.count { t with ready } w = g.incoming waiting w := h.count_eq w
    have := hedges w
    rw [hpos]
    constructor
    · rintro (⟨hne, hw, hzero⟩ | ⟨hheld, hzero⟩)
      · exact ⟨⟨hne, hw⟩, by omega⟩
      · -- a task that an edge held back was waiting, and was not the one listed now
        refine ⟨⟨?_, ?_⟩, hzero⟩
        · rintro rfl
          omega
        · by_contra hw
          have := h.listed w hw
          omega
    · rintro ⟨⟨hne, hw⟩, hzero⟩
      by_cases hheld : g.incoming waiting w = 0
      · exact Or.inl ⟨hne, hw, hheld⟩
      · exact Or.inr ⟨by omega, hzero⟩

/-- The lowest ready task is the one that `drain` finds. -/
theorem head?_ready (h : g.Counts waiting t) (hids : ∀ v ∈ waiting, v ∈ g.ids) :
    (waiting.find? fun v => (g.predecessorTable.getD v []).all (!waiting.contains ·)) =
      t.ready.head? := by
  rw [h.ready_eq, ← List.head?_filter]
  congr 1
  refine List.filter_congr fun v hv => ?_
  have hsize := lt_size_of_mem_ids (hids v hv)
  rw [Bool.eq_iff_iff, List.all_eq_true, decide_eq_true_eq, incoming_eq_zero_iff]
  simp only [mem_predecessorTable hsize, Bool.not_eq_true', List.contains_eq_mem,
    decide_eq_false_iff_not]
  exact ⟨fun hall u hu hjoins => hall u hjoins hu, fun hall u hjoins hu => hall u hu hjoins⟩

/-- Counting lists what `drain` lists, and at the end counts the edges from what is left. -/
theorem listReady (h : g.Counts waiting t) (hg : g.WellFormed)
    (hsorted : waiting.Pairwise (· < ·)) (hids : ∀ v ∈ waiting, v ∈ g.ids) {limit : Nat}
    (hlimit : waiting.length ≤ limit) :
    ∃ t', g.listReady limit t = .ok ((drain g.predecessorTable waiting).1, t') ∧
      g.Counts (drain g.predecessorTable waiting).2 t' := by
  induction limit generalizing waiting t with
  | zero =>
    obtain rfl : waiting = [] := List.length_eq_zero_iff.1 (Nat.le_zero.1 hlimit)
    rw [drain]
    exact ⟨t, rfl, h⟩
  | succ limit ih =>
    have hhead := h.head?_ready hids
    unfold TaskGraph.listReady
    cases hready : t.ready with
    | nil =>
      rw [hready, List.head?_nil] at hhead
      rw [drain_of_none hhead]
      exact ⟨t, rfl, h⟩
    | cons v ready =>
      rw [hready, List.head?_cons] at hhead
      have hlength := List.length_erase_of_mem (List.mem_of_find?_eq_some hhead)
      obtain ⟨t₁, hcross, h₁⟩ := h.next hg hsorted hready
      obtain ⟨t', hlist, h'⟩ := ih h₁ (hsorted.sublist List.erase_sublist)
        (fun w hw => hids w (List.mem_of_mem_erase hw)) (by omega)
      rw [drain_of_some hhead]
      simp only [hcross, hlist, bind, Except.bind, pure, Except.pure]
      exact ⟨t', rfl, h'⟩

end Counts

/-- At first all tasks wait. -/
theorem WellFormed.counts_tally (hg : g.WellFormed) : g.Counts g.ids g.tally := by
  have hcount : ∀ v, g.tally.count v = g.incoming g.ids v := by
    intro v
    rw [hg.incoming_ids]
    unfold tally Tally.count
    by_cases hv : v < g.tasks.size
    · simp [hv]
    · have hnone : g.edges.countP (·.target = v) = 0 := by
        rw [List.countP_eq_zero]
        intro e he heq
        exact hv (lt_size_of_mem_ids (of_decide_eq_true heq ▸ hg.target_mem e he))
      simp [hv, hnone]
  refine ⟨by simp [tally], hcount, ?_, ?_⟩
  · intro v hv
    rw [incoming_eq_zero_iff]
    exact fun u _ hjoins => hv (hg.joins_right hjoins)
  · refine List.filter_congr fun v _ => ?_
    rw [← hcount]
    rfl

/-- What is left when no task is ready is held back, and nothing else is. -/
theorem Counts.find?_held {order : List Nat} {first : Nat} {stuck : List Nat} {t : Tally}
    (hdrain : drain g.predecessorTable g.ids = (order, first :: stuck))
    (h : g.Counts (first :: stuck) t) : g.ids.find? (0 < t.count ·) = some first := by
  have hleft : (first :: stuck).Sublist g.ids := by
    have hsublist := drain_sublist g.predecessorTable g.ids
    rwa [hdrain] at hsublist
  have hheld : ∀ v, 0 < t.count v ↔ v ∈ first :: stuck := by
    intro v
    rw [h.count_eq]
    constructor
    · intro hpos
      by_contra hv
      have := h.listed v hv
      omega
    · intro hv
      have hstuck := drain_stuck g.predecessorTable g.ids v
      rw [hdrain] at hstuck
      obtain ⟨u, hu, hwait⟩ := hstuck hv
      have hjoins := (mem_predecessorTable (lt_size_of_mem_ids (hleft.subset hv))).1 hwait
      rw [Nat.pos_iff_ne_zero, ne_eq, incoming_eq_zero_iff]
      exact fun hnone => hnone u hu hjoins
  have hfilter : g.ids.filter (0 < t.count ·) = first :: stuck := by
    refine (g.pairwise_ids.filter _).eq_of_mem_iff (g.pairwise_ids.sublist hleft) fun v => ?_
    rw [List.mem_filter, decide_eq_true_eq, hheld]
    exact ⟨And.right, fun hv => ⟨hleft.subset hv, hv⟩⟩
  rw [← List.head?_filter, hfilter, List.head?_cons]

/-- Counting never fails, and gives the order, or reports the same task. -/
theorem WellFormed.countedOrder_eq (hg : g.WellFormed) :
    g.countedOrder = .ok g.topologicalOrder := by
  obtain ⟨t, hlist, hcounts⟩ := hg.counts_tally.listReady hg g.pairwise_ids
    (fun v hv => hv) (Nat.le_refl _)
  have hlength := (drain_perm g.predecessorTable g.ids).length_eq
  obtain ⟨⟨order, stuck⟩, hdrain⟩ : ∃ listed, drain g.predecessorTable g.ids = listed := ⟨_, rfl⟩
  rw [hdrain] at hlist hcounts
  simp only [hdrain, List.length_append] at hlength
  unfold countedOrder topologicalOrder
  simp only [hlist, hdrain, bind, Except.bind, pure, Except.pure]
  cases stuck with
  | nil => rw [if_pos (by simpa using hlength)]
  | cons first stuck =>
    rw [List.length_cons] at hlength
    rw [if_neg (by omega), hcounts.find?_held hdrain]
    rfl

end TaskLoom.TaskGraph
