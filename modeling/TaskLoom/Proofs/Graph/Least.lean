import Mathlib.Data.List.Lex
import Mathlib.Order.Bounds.Basic
import TaskLoom.Proofs.Graph.Counting
import TaskLoom.Proofs.Graph.Edges

/-!
# The least order

A graph has many orders.  The one that is listed takes, at each position, the lowest task
that can stand there after the tasks before it.  Any other order of the same tasks has at
the first position where it differs a task that could stand there too, and so a higher one.
The listed order is therefore the least in the lexicographic order of lists.

## Main results

* `drain_le` — no listing of the waiting tasks is below the one `drain` gives.
* `WellFormed.topologicalOrder_isLeast` — the graphs that have an order, and the one listed.
-/

namespace TaskLoom.TaskGraph

variable {g : TaskGraph}

/-- The first of an ascending list with a property is the lowest. -/
private theorem le_of_find?_eq_some {ids : List Nat} (hsorted : ids.Pairwise (· < ·))
    {p : Nat → Bool} {v w : Nat} (hfound : ids.find? p = some v) (hw : w ∈ ids)
    (hp : p w = true) : v ≤ w := by
  obtain ⟨-, before, after, rfl, hbefore⟩ := List.find?_eq_some_iff_append.1 hfound
  rcases List.mem_append.1 hw with hw | hw
  · have hnot := hbefore w hw
    rw [hp] at hnot
    cases hnot
  · have hafter := (List.pairwise_append.1 hsorted).2.1
    rcases List.mem_cons.1 hw with rfl | hw
    · exact Nat.le_refl w
    · exact Nat.le_of_lt ((List.pairwise_cons.1 hafter).1 w hw)

/-- No listing of the waiting tasks, each before those that wait for it, is below the one
that takes the lowest each time. -/
theorem drain_le {table : Array (List Nat)} {waiting other : List Nat}
    (hsorted : waiting.Pairwise (· < ·)) (hperm : other.Perm waiting)
    (hself : ∀ v ∈ other, v ∉ table.getD v [])
    (hforward : other.Pairwise fun v w => w ∉ table.getD v []) :
    (drain table waiting).1 ≤ other := by
  induction other generalizing waiting with
  | nil =>
    obtain rfl := hperm.symm.eq_nil
    rw [drain_of_none rfl]
  | cons w rest ih =>
    obtain ⟨hfirst, hrest⟩ := List.pairwise_cons.1 hforward
    -- what stands first waits for none of the others
    have hfree : (table.getD w []).all (!waiting.contains ·) = true := by
      rw [List.all_eq_true]
      intro u hu
      rw [Bool.not_eq_true', List.contains_eq_mem, decide_eq_false_iff_not, ← hperm.mem_iff]
      intro hmem
      rcases List.mem_cons.1 hmem with rfl | hmem
      · exact hself u List.mem_cons_self hu
      · exact hfirst u hmem hu
    have hw : w ∈ waiting := hperm.mem_iff.1 List.mem_cons_self
    cases hfound : waiting.find? fun v => (table.getD v []).all (!waiting.contains ·) with
    | none => exact absurd hfree (List.find?_eq_none.1 hfound w hw)
    | some v =>
      rw [drain_of_some hfound]
      rcases Nat.eq_or_lt_of_le (le_of_find?_eq_some hsorted hfound hw hfree) with rfl | hlt
      · refine List.cons_le_cons v (ih (hsorted.sublist List.erase_sublist) ?_ ?_ hrest)
        · exact List.cons_perm_iff_perm_erase.1 hperm |>.2
        · exact fun u hu => hself u (List.mem_cons_of_mem v hu)
      · exact le_of_lt (List.Lex.rel hlt)

/-- An order is listed if and only if there is no cycle.  It is then the lexicographically
least of all orders, and counting edges lists the same. -/
theorem WellFormed.topologicalOrder_isLeast (hg : g.WellFormed) :
    ((∃ order, g.topologicalOrder = .ok order) ↔ g.Acyclic) ∧
      (∀ order, g.topologicalOrder = .ok order → IsLeast {other | g.IsOrder other} order) ∧
      g.countedOrder = .ok g.topologicalOrder := by
  refine ⟨⟨?_, ?_⟩, ?_, hg.countedOrder_eq⟩
  · rintro ⟨order, horder⟩
    exact (hg.isOrder_of_topologicalOrder horder).acyclic
  · intro hacyclic
    obtain ⟨order, horder, -⟩ := hg.topologicalOrder_ok hacyclic
    exact ⟨order, horder⟩
  · intro order horder
    have hisOrder := hg.isOrder_of_topologicalOrder horder
    refine ⟨hisOrder, fun other hother => ?_⟩
    have hlisted : order = (drain g.predecessorTable g.ids).1 := by
      unfold topologicalOrder at horder
      split at horder
      · next hdrain => rw [hdrain, Except.ok.inj horder]
      · cases horder
    have hwaits : ∀ v ∈ other, ∀ u, u ∈ g.predecessorTable.getD v [] ↔ g.Joins u v :=
      fun v hv u => mem_predecessorTable (lt_size_of_mem_ids (hother.perm.mem_iff.1 hv))
    rw [hlisted]
    refine drain_le g.pairwise_ids hother.perm ?_ ?_
    · intro v hv
      rw [hwaits v hv]
      exact fun hjoins => hother.acyclic v (.single hjoins)
    · refine hother.pairwise.imp_of_mem fun hv _ hnot => ?_
      rw [hwaits _ hv]
      exact hnot

/-- Edges against the order of ids, one pair joined twice, and a vacant id. -/
theorem topologicalOrder_isLeast_backward :
    let g := { diamond with edges := [⟨2, 4, 0, .data⟩, ⟨1, 3, 1, .data⟩, ⟨0, 3, 1, .data⟩] }
    g.WellFormed ∧ g.topologicalOrder = .ok [3, 1, 4, 0] ∧
      IsLeast {other | g.IsOrder other} [3, 1, 4, 0] ∧ g.Acyclic := by
  intro g
  have hg : g.WellFormed := by constructor <;> decide
  obtain ⟨hiff, hleast, hcounted⟩ := hg.topologicalOrder_isLeast
  have hlisted : g.countedOrder = .ok (.ok [3, 1, 4, 0]) := rfl
  have horder : g.topologicalOrder = .ok [3, 1, 4, 0] :=
    Except.ok.inj (hcounted.symm.trans hlisted)
  exact ⟨hg, horder, hleast _ horder, hiff.1 ⟨_, horder⟩⟩

end TaskLoom.TaskGraph
