import Mathlib.Algebra.BigOperators.Ring.Finset
import TaskLoom.Proofs.Flow.Maximum

/-!
# Maximum flow and minimum cut

A flow gives each arc a number that its reverse has with the other sign, exceeds no residual
capacity and lets nothing start or end at a node other than source and sink.  Its value is
what leaves the source.  Adding up over the nodes of a set that holds the source and not the
sink, arcs within the set cancel in pairs, so the value is what crosses the border of the set
and is at most the capacity there.

The capacities that the maximum flow took are such a flow.  When the sink is out of reach, the
nodes that can be reached are a set whose border has no capacity left, so all of it was taken
and no flow can have a larger value.

## Main results

* `IsFlow.outflow_eq` — the value of a flow is what crosses any border between source and sink.
* `Moves.isFlow` — the capacities that were taken are a flow.
* `maxFlow_optimal` — the computed flow is a maximum one.
-/

namespace TaskLoom.FlowNetwork

open Finset

variable {net net' : FlowNetwork} {source sink : Nat}

/-! ## Networks that are built arc by arc -/

/-- Networks with some nodes to which pairs of arcs between these nodes were added. -/
inductive Built : FlowNetwork → Prop where
  | create (nodes : Nat) : Built (create nodes)
  | addArc {net : FlowNetwork} {u v : Nat} (hnet : Built net) (hu : u < net.leaving.size)
      (hv : v < net.leaving.size) (forward backward : Nat) :
      Built (net.addArc u v forward backward)

theorem Built.wellFormed (h : net.Built) : net.WellFormed := by
  induction h with
  | create nodes => exact wellFormed_create nodes
  | addArc _ hu hv forward backward ih => exact ih.addArc hu hv forward backward

/-! ## Flows -/

/-- What leaves a node.  What comes in counts with the other sign, along the reverse arcs. -/
def outflow (net : FlowNetwork) (f : Nat → Int) (v : Nat) : Int :=
  ((net.arcsFrom v).map f).sum

/-- A flow from source to sink within the residual capacities. -/
structure IsFlow (net : FlowNetwork) (source sink : Nat) (f : Nat → Int) : Prop where
  reverse : ∀ e, f (e ^^^ 1) = -f e
  le_residual : ∀ e, f e ≤ net.residual e
  conserved : ∀ v, v ≠ source → v ≠ sink → net.outflow f v = 0

theorem WellFormed.outflow_eq (h : net.WellFormed) (f : Nat → Int) (v : Nat) :
    net.outflow f v = ∑ e ∈ range net.arcs.size with net.tail e = v, f e := by
  unfold outflow
  rw [← List.sum_toFinset f (h.nodup_arcsFrom v)]
  congr 1
  ext e
  simp [h.mem_arcsFrom v e]

section Border

variable (inside : Nat → Prop) [DecidablePred inside] {f : Nat → Int}

/-- Arcs within a set of nodes cancel in pairs. -/
theorem IsFlow.sum_internal (hf : net.IsFlow source sink f) (hwf : net.WellFormed) :
    ∑ e ∈ net.internal inside, f e = 0 := by
  have hreverse := hwf.sum_internal_reverse inside f
  simp only [hf.reverse, sum_neg_distrib] at hreverse
  omega

/-- The value of a flow is what crosses the border of a set that holds the source and not the
sink. -/
theorem IsFlow.outflow_eq (hf : net.IsFlow source sink f) (hwf : net.WellFormed)
    (hs : source < net.leaving.size) (hsource : inside source) (hsink : ¬ inside sink) :
    net.outflow f source = ∑ e ∈ net.crossing inside, f e := by
  have honly : ∑ v ∈ range net.leaving.size with inside v, net.outflow f v =
      net.outflow f source := by
    refine sum_eq_single_of_mem source (by simp [hs, hsource]) fun v hv hne => ?_
    refine hf.conserved v hne ?_
    rintro rfl
    exact hsink (mem_filter.1 hv).2
  have hsplit := sum_leaving net inside hwf f
  simp only [← hwf.outflow_eq f] at hsplit
  rw [← honly, hsplit, hf.sum_internal inside hwf, zero_add]

/-- No flow exceeds the capacity of a border between source and sink. -/
theorem IsFlow.outflow_le (hf : net.IsFlow source sink f) (hwf : net.WellFormed)
    (hs : source < net.leaving.size) (hsource : inside source) (hsink : ¬ inside sink) :
    net.outflow f source ≤ ∑ e ∈ net.crossing inside, net.residual e := by
  rw [hf.outflow_eq inside hwf hs hsource hsink]
  push_cast
  exact sum_le_sum fun e _ => hf.le_residual e

end Border

/-! ## The flow that was taken -/

/-- What was taken from each arc. -/
def taken (net net' : FlowNetwork) (e : Nat) : Int :=
  net.residual e - net'.residual e

theorem Moves.outflow_taken {amount : Nat} (h : Moves net net' source sink amount)
    (hwf : net.WellFormed) (v : Nat) :
    net.outflow (taken net net') v = net.capacityFrom v - net'.capacityFrom v := by
  rw [hwf.outflow_eq, hwf.capacityFrom_eq, (h.wellFormed hwf).capacityFrom_eq, h.size_eq]
  simp only [h.tail_eq, taken, sum_sub_distrib]
  push_cast
  rfl

/-- The capacities that were taken are a flow. -/
theorem Moves.isFlow {amount : Nat} (h : Moves net net' source sink amount)
    (hwf : net.WellFormed) : net.IsFlow source sink (taken net net') where
  reverse e := by
    have hpair := h.pair_eq e
    unfold taken
    omega
  le_residual e := by
    unfold taken
    omega
  conserved v hsource hsink := by
    have hbalance := h.balance v
    rw [if_neg hsource, if_neg hsink] at hbalance
    rw [h.outflow_taken hwf]
    omega

theorem Moves.outflow_source {amount : Nat} (h : Moves net net' source sink amount)
    (hwf : net.WellFormed) (hne : source ≠ sink) :
    net.outflow (taken net net') source = amount := by
  have hstart := h.capacityFrom_start hne
  rw [h.outflow_taken hwf]
  omega

/-- When the sink is out of reach, the amount that was moved is all the capacity that there was
at the border of what can be reached. -/
theorem Moves.amount_eq {amount : Nat} (h : Moves net net' source sink amount)
    (hwf : net.WellFormed) (hs : source < net.leaving.size) (hne : source ≠ sink)
    (hend : reached (net'.distances source) sink = false) :
    amount =
      ∑ e ∈ net.crossing fun v => reached (net'.distances source) v = true, net.residual e := by
  have hdist : Measures net' source (net'.distances source) :=
    measures_distances (h.wellFormed hwf) (by rw [h.leaving_eq]; exact hs)
  have hborder : ∀ e ∈ net.crossing fun v => reached (net'.distances source) v = true,
      taken net net' e = net.residual e := by
    intro e he
    obtain ⟨hlt, htail, hhead⟩ := (mem_crossing net _).1 he
    have hempty : net'.residual e = 0 := by
      by_contra hpos
      rw [← h.tail_eq] at htail
      rw [← h.head_eq] at hhead
      exact hhead (hdist.reached_head (by rw [h.size_eq]; exact hlt) (Nat.pos_of_ne_zero hpos)
        htail)
    simp [taken, hempty]
  have hvalue := (h.isFlow hwf).outflow_eq (fun v => reached (net'.distances source) v = true) hwf
    hs hdist.reached_source (by simp [hend])
  rw [h.outflow_source hwf hne, sum_congr rfl hborder] at hvalue
  exact_mod_cast hvalue

/-- The maximum flow between two nodes of a network: the method terminates without overflow,
every pair of arcs keeps its total, what was taken is a flow, the sink is out of reach in what
is left, and the value is that of a maximum flow and the capacity of the border of what can be
reached. -/
theorem maxFlow_optimal (hnet : net.Built) (hs : source < net.leaving.size) (hne : source ≠ sink)
    (hword : ∀ e, net.residual e + net.residual (e ^^^ 1) < Word.bound)
    (hcap : net.capacityFrom source < Word.bound) :
    ∃ amount net', net.maxFlow source sink = .ok (amount, net') ∧
      FlowLoop (fun dist => Descends dist sink source unbounded) source sink 0 net amount net' ∧
      (net'.leaving = net.leaving ∧ ∀ e, net'.head e = net.head e) ∧
      (∀ e, net'.residual e + net'.residual (e ^^^ 1) =
        net.residual e + net.residual (e ^^^ 1)) ∧
      net.IsFlow source sink (taken net net') ∧
      (∀ v, reached (net'.distances source) v = true ↔
        Relation.ReflTransGen net'.Flows source v) ∧
      reached (net'.distances source) sink = false ∧
      IsGreatest {value : Int | ∃ f, net.IsFlow source sink f ∧ net.outflow f source = value}
        amount ∧
      amount =
        ∑ e ∈ net.crossing fun v => reached (net'.distances source) v = true, net.residual e := by
  have hwf := hnet.wellFormed
  obtain ⟨amount, net', hrun, hmoves, hend, -, hloop⟩ := runPhases_spec hne net hwf hs hword
    ⟨0, net.capacityFrom source⟩ rfl (by simpa using hcap)
  simp only [Nat.zero_add] at hrun hloop
  have hdist : Measures net' source (net'.distances source) :=
    measures_distances (hmoves.wellFormed hwf) (by rw [hmoves.leaving_eq]; exact hs)
  have hamount := hmoves.amount_eq hwf hs hne hend
  refine ⟨amount, net', hrun, hloop, ⟨hmoves.leaving_eq, hmoves.head_eq⟩, hmoves.pair_eq,
    hmoves.isFlow hwf, fun v => hdist.reached_iff, hend, ⟨?_, ?_⟩, hamount⟩
  · exact ⟨taken net net', hmoves.isFlow hwf, hmoves.outflow_source hwf hne⟩
  · rintro value ⟨f, hf, rfl⟩
    rw [hamount]
    exact hf.outflow_le _ hwf hs hdist.reached_source (by simp [hend])

/-- Two paths have two arcs, so the first phase fills them.  What is left of the first arc goes
the longer way in a second phase. -/
theorem maxFlow_optimal_detour :
    let net := (((((create 4).addArc 0 1 2 0).addArc 0 2 1 0).addArc 1 2 1 0).addArc 1 3 1
      0).addArc 2 3 2 4
    net.Built ∧ (∀ e, net.residual e + net.residual (e ^^^ 1) < Word.bound) ∧
      net.capacityFrom 0 < Word.bound ∧
      ∃ net', net.maxFlow 0 3 = .ok (3, net') ∧
        FlowLoop (fun dist => Descends dist 3 0 unbounded) 0 3 0 net 3 net' ∧
        net.IsFlow 0 3 (taken net net') ∧ reached (net'.distances 0) 3 = false ∧
        IsGreatest {value : Int | ∃ f, net.IsFlow 0 3 f ∧ net.outflow f 0 = value} 3 := by
  intro net
  have hnet : net.Built := by
    refine .addArc (.addArc (.addArc (.addArc (.addArc (.create 4) ?_ ?_ 2 0) ?_ ?_ 1 0)
      ?_ ?_ 1 0) ?_ ?_ 1 0) ?_ ?_ 2 4 <;> decide
  have hword : ∀ e, net.residual e + net.residual (e ^^^ 1) < Word.bound := by
    intro e
    by_cases he : e < 10
    · have hall : ∀ e < 10, net.residual e + net.residual (e ^^^ 1) < Word.bound := by decide
      exact hall e he
    · have hrev : ¬ e ^^^ 1 < 10 := fun h => he ((xor_one_lt rfl).1 h)
      rw [residual_of_ge (Nat.le_of_not_lt he), residual_of_ge (Nat.le_of_not_lt hrev)]
      decide
  have hcap : net.capacityFrom 0 < Word.bound := by decide
  obtain ⟨amount, net', hrun, hloop, -, -, hflow, -, hend, hgreatest, -⟩ :=
    maxFlow_optimal hnet (by decide : 0 < net.leaving.size) (by decide : 0 ≠ 3) hword hcap
  have hvalue : (net.maxFlow 0 3).map Prod.fst = .ok 3 := by decide +kernel
  rw [hrun] at hvalue
  obtain rfl : amount = 3 := Except.ok.inj hvalue
  exact ⟨hnet, hword, hcap, net', hrun, hloop, hflow, hend, hgreatest⟩

end TaskLoom.FlowNetwork
