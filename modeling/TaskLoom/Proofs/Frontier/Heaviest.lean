import Mathlib.Order.Antichain
import TaskLoom.Proofs.Flow.Maximum
import TaskLoom.Proofs.Frontier.Network
import TaskLoom.Proofs.Graph.Edges
import TaskLoom.Proofs.Graph.Order
import TaskLoom.Proofs.Word

/-!
# The heaviest frontier

The weight of unordered tasks and the superfluous flow never exceed the weight of
all tasks together, because unordered tasks straddle a closed set of nodes.  The
maximum flow closes the set of the nodes that the sink still reaches: the arcs
without limit stay open, since no more can flow back along them than flows in all.
So the tasks that straddle this set are unordered, and together with the flow they
weigh as much as all tasks.

## Main results

* `sum_add_amount_le` — no unordered tasks weigh more than what the flow
  leaves.
* `closed_reached` — what the sink reaches after a maximum flow is closed.
* `heaviest_spec` — a measured frontier is unordered, and none is heavier.
-/

namespace TaskLoom

open Finset

/-- Tasks of a graph none of which leads to another. -/
structure TaskGraph.Unordered (g : TaskGraph) (tasks : Finset Nat) : Prop where
  mem_ids : ∀ id ∈ tasks, id ∈ g.ids
  antichain : IsAntichain g.Leads (tasks : Set Nat)

/-- No task of an unordered set comes before another, or before itself. -/
theorem TaskGraph.Unordered.not_before {g : TaskGraph} (hac : g.Acyclic) {tasks : Finset Nat}
    (h : g.Unordered tasks) {a b : Nat} (ha : a ∈ tasks) (hb : b ∈ tasks) : ¬ g.Before a b := by
  intro hab
  by_cases heq : a = b
  · subst heq
    exact hac a hab
  · exact h.antichain ha hb heq hab.to_reflTransGen

namespace Serialiser

open FlowNetwork

variable {s : Serialiser}

/-! ## Sets of nodes given by tasks -/

/-- One outer node, with the entries and the exits of some tasks. -/
def nodes (s : Serialiser) (outer : Nat) (entries exits : Nat → Prop) (x : Nat) : Prop :=
  x = outer ∨ x < 2 * s.graph.tasks.size ∧
    (x % 2 = 0 ∧ entries (x / 2) ∨ x % 2 = 1 ∧ exits (x / 2))

section Nodes

variable {outer : Nat} {entries exits : Nat → Prop}

theorem nodes_entry (houter : 2 * s.graph.tasks.size ≤ outer) {id : Nat}
    (hid : id ∈ s.graph.ids) : s.nodes outer entries exits (entry id) ↔ entries id := by
  have hlt := TaskGraph.lt_size_of_mem_ids hid
  have hne : 2 * id ≠ outer := by omega
  simp [nodes, entry, hne, hlt]

theorem nodes_exit (houter : 2 * s.graph.tasks.size ≤ outer) {id : Nat}
    (hid : id ∈ s.graph.ids) : s.nodes outer entries exits (exit id) ↔ exits id := by
  have hlt := TaskGraph.lt_size_of_mem_ids hid
  have hne : 2 * id + 1 ≠ outer := by omega
  have hbelow : 2 * id + 1 < 2 * s.graph.tasks.size := by omega
  have hhalf : (2 * id + 1) / 2 = id := by omega
  have hodd : (2 * id + 1) % 2 = 1 := by omega
  simp [nodes, exit, hne, hbelow, hhalf, hodd]

theorem nodes_outer : s.nodes outer entries exits outer := Or.inl rfl

theorem not_nodes {x : Nat} (hx : 2 * s.graph.tasks.size ≤ x) (hne : x ≠ outer) :
    ¬ s.nodes outer entries exits x := by
  rintro (h | ⟨h, -⟩)
  · exact hne h
  · omega

theorem closed_nodes (hg : s.graph.WellFormed) (houter : 2 * s.graph.tasks.size ≤ outer)
    (hthrough : ∀ id, entries id → exits id)
    (hstep : ∀ u v, s.graph.Joins u v → exits u → entries v) :
    s.Closed (s.nodes outer entries exits) := by
  constructor
  · intro id hid hentry
    exact (nodes_exit houter hid).2 (hthrough id ((nodes_entry houter hid).1 hentry))
  · intro u v huv hexit
    have hu := (nodes_exit houter (hg.joins_left huv)).1 hexit
    exact (nodes_entry houter (hg.joins_right huv)).2 (hstep u v huv hu)

end Nodes

theorem source_ne_sink (s : Serialiser) : s.sink ≠ s.source := by
  unfold source sink
  omega

/-- The exits of some tasks, everything that comes after these tasks, and the sink. -/
def beyond (s : Serialiser) (tasks : Finset Nat) : Nat → Prop :=
  s.nodes s.sink (fun id => ∃ a ∈ tasks, s.graph.Before a id)
    fun id => ∃ a ∈ tasks, s.graph.Leads a id

section Beyond

variable {tasks : Finset Nat}

theorem beyond_entry {id : Nat} (hid : id ∈ s.graph.ids) :
    s.beyond tasks (entry id) ↔ ∃ a ∈ tasks, s.graph.Before a id :=
  nodes_entry (by simp [sink]) hid

theorem beyond_exit {id : Nat} (hid : id ∈ s.graph.ids) :
    s.beyond tasks (exit id) ↔ ∃ a ∈ tasks, s.graph.Leads a id :=
  nodes_exit (by simp [sink]) hid

theorem not_beyond_source (tasks : Finset Nat) : ¬ s.beyond tasks s.source :=
  not_nodes (by simp [source]) (source_ne_sink s).symm

theorem closed_beyond (hg : s.graph.WellFormed) (tasks : Finset Nat) :
    s.Closed (s.beyond tasks) := by
  refine closed_nodes hg (by simp [sink]) ?_ ?_
  · rintro id ⟨a, ha, hbefore⟩
    exact ⟨a, ha, hbefore.to_reflTransGen⟩
  · rintro u v huv ⟨a, ha, hleads⟩
    exact ⟨a, ha, Relation.TransGen.tail' hleads huv⟩

/-- Unordered tasks straddle what comes after them. -/
theorem subset_straddling_beyond [DecidablePred (s.beyond tasks)] (hac : s.graph.Acyclic)
    (h : s.graph.Unordered tasks) : tasks ⊆ s.straddling (s.beyond tasks) := by
  intro id hid
  have hmem := h.mem_ids id hid
  refine mem_filter.2 ⟨List.mem_toFinset.2 hmem, (beyond_exit hmem).2 ⟨id, hid, .refl⟩, ?_⟩
  intro hentry
  obtain ⟨a, ha, hbefore⟩ := (beyond_entry hmem).1 hentry
  exact h.not_before hac ha hid hbefore

end Beyond

/-! ## The network fits the flow -/

/-- The two ends of a pair differ. -/
theorem source_ne_target {p : ArcPair} (hp : p ∈ s.pairs) :
    p.source ≠ p.target := by
  rcases List.mem_append.1 hp with hp | hp
  · obtain ⟨id, hid, hp⟩ := List.mem_flatMap.1 hp
    have hlt := TaskGraph.lt_size_of_mem_ids hid
    simp only [taskPairs, List.mem_cons, List.not_mem_nil, or_false] at hp
    rcases hp with rfl | rfl | rfl <;> simp only [source, sink, entry, exit] <;> omega
  · obtain ⟨e, -, rfl⟩ := List.mem_map.1 hp
    simp only [edgePair, entry, exit]
    omega

/-- No pair carries more than the weight of all tasks beside what is unbounded. -/
theorem forward_add_backward_le {p : ArcPair} (hp : p ∈ s.pairs) :
    p.forward + p.backward ≤ unbounded + Word.total (s.graph.ids.map s.weight) := by
  rcases List.mem_append.1 hp with hp | hp
  · obtain ⟨id, hid, hp⟩ := List.mem_flatMap.1 hp
    have hle : s.weight id ≤ Word.total (s.graph.ids.map s.weight) :=
      Word.le_total (List.mem_map_of_mem hid)
    simp only [taskPairs, List.mem_cons, List.not_mem_nil, or_false] at hp
    rcases hp with rfl | rfl | rfl
    · exact Nat.add_le_add_left hle _
    · exact Nat.add_le_add_left (Nat.zero_le _) _
    · exact Nat.add_le_add_left hle _
  · obtain ⟨e, -, rfl⟩ := List.mem_map.1 hp
    exact Nat.add_le_add_left (Nat.zero_le _) _

/-- Every pair of arcs fits a word. -/
theorem residual_add_reverse_lt (hg : s.graph.WellFormed)
    (htotal : Word.total (s.graph.ids.map s.weight) ≤ unbounded) (e : Nat) :
    s.network.residual e + s.network.residual (e ^^^ 1) < Word.bound := by
  have hword : unbounded + unbounded < Word.bound := by decide
  by_cases he : e < s.network.arcs.size
  · obtain ⟨p, hp, hcarries⟩ := carries_of_lt hg he
    have hle := forward_add_backward_le hp
    rcases hcarries with hc | hc
    · rw [hc.residual_eq, hc.reverse_eq]
      omega
    · have hreverse := hc.reverse_eq
      rw [xor_one_xor_one] at hreverse
      rw [hc.residual_eq, hreverse]
      omega
  · have hrev : ¬ e ^^^ 1 < s.network.arcs.size := by
      rwa [xor_one_lt (wellFormed_network hg).even]
    rw [residual_of_ge (by omega), residual_of_ge (by omega)]
    decide

/-- What can leave the sink is the weight of all tasks. -/
theorem capacityFrom_sink_le (hg : s.graph.WellFormed) :
    s.network.capacityFrom s.sink ≤ Word.total (s.graph.ids.map s.weight) := by
  have hclosed : s.Closed (· = s.sink) := by
    constructor
    · intro id hid h
      have hlt := TaskGraph.lt_size_of_mem_ids hid
      simp only [entry, sink] at h
      omega
    · intro u v huv h
      have hlt := TaskGraph.lt_size_of_mem_ids (hg.joins_left huv)
      simp only [exit, sink] at h
      omega
  have hcross := hclosed.sum_crossing hg rfl (source_ne_sink s).symm
  have hsum := sum_capacityFrom s.network (· = s.sink) (wellFormed_network hg)
  have hinternal : s.network.internal (· = s.sink) = ∅ := by
    refine Finset.eq_empty_of_forall_notMem fun e he => ?_
    obtain ⟨hlt, htail, hhead⟩ := (mem_internal _ _).1 he
    obtain ⟨p, hp, hc | hc⟩ := carries_of_lt hg hlt
    · refine source_ne_target hp ?_
      rw [← hc.tail_eq, ← hc.head_eq, htail, hhead]
    · refine source_ne_target hp ?_
      rw [← hc.tail_eq, ← hc.head_eq, tail_xor_one, head_xor_one, htail, hhead]
  have hone : ∑ v ∈ range s.network.leaving.size with v = s.sink, s.network.capacityFrom v =
      s.network.capacityFrom s.sink := by
    rw [sum_filter, sum_ite_eq', if_pos]
    simp [sink]
  rw [hone, hinternal, sum_empty, Nat.zero_add] at hsum
  omega

/-! ## What a flow leaves -/

section Flow

variable {net' : FlowNetwork} {amount : Nat}

/-- A flow, what leaves a closed set after it and the tasks that straddle the set
weigh as much as all tasks. -/
theorem amount_add_straddling (hg : s.graph.WellFormed)
    (hmoves : Moves s.network net' s.sink s.source amount) {inside : Nat → Prop}
    [DecidablePred inside] (hclosed : s.Closed inside) (hsink : inside s.sink)
    (hsource : ¬ inside s.source) :
    ∑ e ∈ s.network.crossing inside, net'.residual e + amount +
        ∑ id ∈ s.straddling inside, s.weight id =
      Word.total (s.graph.ids.map s.weight) := by
  have hcut := hmoves.cut inside (wellFormed_network hg) (by simp [sink]) (by simp [source])
  rw [if_pos hsink, if_neg hsource] at hcut
  have hcross := hclosed.sum_crossing hg hsink hsource
  omega

/-- No unordered tasks weigh more than what the flow leaves. -/
theorem sum_add_amount_le (hg : s.graph.WellFormed) (hac : s.graph.Acyclic)
    (hmoves : Moves s.network net' s.sink s.source amount) {tasks : Finset Nat}
    (h : s.graph.Unordered tasks) :
    ∑ id ∈ tasks, s.weight id + amount ≤ Word.total (s.graph.ids.map s.weight) := by
  classical
  have hweigh := amount_add_straddling hg hmoves (closed_beyond hg tasks) nodes_outer
    (not_beyond_source tasks)
  have hle : ∑ id ∈ tasks, s.weight id ≤ ∑ id ∈ s.straddling (s.beyond tasks), s.weight id :=
    sum_le_sum_of_subset (subset_straddling_beyond hac h)
  omega

theorem unordered_singleton {g : TaskGraph} {id : Nat} (hid : id ∈ g.ids) : g.Unordered {id} where
  mem_ids := by simpa using hid
  antichain := by simp

/-- Less flows than an arc without limit can take. -/
theorem amount_lt_unbounded (hg : s.graph.WellFormed) (hac : s.graph.Acyclic)
    (htotal : Word.total (s.graph.ids.map s.weight) ≤ unbounded)
    (hmoves : Moves s.network net' s.sink s.source amount) : amount < unbounded := by
  by_cases hweight : ∃ id ∈ s.graph.ids, 0 < s.weight id
  · obtain ⟨id, hid, hpos⟩ := hweight
    have hle := sum_add_amount_le hg hac hmoves (unordered_singleton hid)
    rw [sum_singleton] at hle
    omega
  · have hzero : Word.total (s.graph.ids.map s.weight) = 0 := by
      refine List.sum_eq_zero fun n hn => ?_
      obtain ⟨id, hid, rfl⟩ := List.mem_map.1 hn
      by_contra hne
      exact hweight ⟨id, hid, by omega⟩
    have hempty : s.graph.Unordered ∅ := ⟨by simp, by simp⟩
    have hle := sum_add_amount_le hg hac hmoves hempty
    have hpos : 0 < unbounded := by decide
    omega

/-- The flow keeps the arcs into the sink and out of the source as open as they were. -/
def KeepsOuter (s : Serialiser) (net' : FlowNetwork) : Prop :=
  ∀ e, s.network.head e = s.sink ∨ s.network.tail e = s.source →
    s.network.residual e ≤ net'.residual e

/-- An arc out of a closed set with the source but without the sink was empty, or
is as open as before. -/
theorem Closed.residual_of_crossing {inside : Nat → Prop} (hclosed : s.Closed inside)
    (hg : s.graph.WellFormed) (hkeeps : s.KeepsOuter net') (hsink : ¬ inside s.sink)
    (hsource : inside s.source) {e : Nat} (he : e < s.network.arcs.size)
    (htail : inside (s.network.tail e)) (hhead : ¬ inside (s.network.head e)) :
    s.network.residual e ≤ net'.residual e := by
  obtain ⟨p, hp, hc⟩ := carries_of_lt hg he
  rcases List.mem_append.1 hp with hp | hp
  · obtain ⟨id, hid, hp⟩ := List.mem_flatMap.1 hp
    have hthrough := hclosed.exit_of_entry id hid
    simp only [taskPairs, List.mem_cons, List.not_mem_nil, or_false] at hp
    rcases hc with hc | hc
    · rcases hp with rfl | rfl | rfl
      · exact hkeeps e (Or.inr hc.tail_eq)
      · rw [hc.tail_eq] at htail
        rw [hc.head_eq] at hhead
        exact absurd (hthrough htail) hhead
      · exact hkeeps e (Or.inl hc.head_eq)
    · have htail' := hc.head_eq
      have hhead' := hc.tail_eq
      have hreverse := hc.reverse_eq
      rw [head_xor_one] at htail'
      rw [tail_xor_one] at hhead'
      rw [xor_one_xor_one] at hreverse
      rcases hp with rfl | rfl | rfl
      · rw [hhead'] at hhead
        exact absurd hsource hhead
      · rw [hreverse]
        exact Nat.zero_le _
      · rw [htail'] at htail
        exact absurd htail hsink
  · obtain ⟨d, hd, rfl⟩ := List.mem_map.1 hp
    rcases hc with hc | hc
    · have hstep := hclosed.entry_of_exit _ _ ⟨d, TaskGraph.mem_dependencies.1 hd, rfl, rfl⟩
      rw [hc.tail_eq] at htail
      rw [hc.head_eq] at hhead
      exact absurd (hstep htail) hhead
    · have hreverse := hc.reverse_eq
      rw [xor_one_xor_one] at hreverse
      rw [hreverse]
      exact Nat.zero_le _

/-- No more flows out of such a set along one arc that was empty than flows in all. -/
theorem Closed.residual_le_amount {inside : Nat → Prop} [DecidablePred inside]
    (hclosed : s.Closed inside) (hg : s.graph.WellFormed) (hkeeps : s.KeepsOuter net')
    (hmoves : Moves s.network net' s.sink s.source amount) (hsink : ¬ inside s.sink)
    (hsource : inside s.source) {e : Nat} (he : e ∈ s.network.crossing inside)
    (hempty : s.network.residual e = 0) : net'.residual e ≤ amount := by
  have hcut := hmoves.cut inside (wellFormed_network hg) (by simp [sink]) (by simp [source])
  rw [if_neg hsink, if_pos hsource, ← add_sum_erase _ _ he, ← add_sum_erase _ _ he, hempty] at hcut
  have hrest : ∑ f ∈ (s.network.crossing inside).erase e, s.network.residual f ≤
      ∑ f ∈ (s.network.crossing inside).erase e, net'.residual f := by
    refine sum_le_sum fun f hf => ?_
    obtain ⟨hf, htail, hhead⟩ := (mem_crossing _ _).1 (mem_of_mem_erase hf)
    exact hclosed.residual_of_crossing hg hkeeps hsink hsource hf htail hhead
  omega

/-- An arc without limit stays open if a closed set with the source but without the
sink holds its head and not its tail. -/
theorem Closed.residual_pos {inside : Nat → Prop} (hclosed : s.Closed inside)
    (hg : s.graph.WellFormed) (hac : s.graph.Acyclic)
    (htotal : Word.total (s.graph.ids.map s.weight) ≤ unbounded) (hkeeps : s.KeepsOuter net')
    (hmoves : Moves s.network net' s.sink s.source amount) (hsink : ¬ inside s.sink)
    (hsource : inside s.source) {e u v : Nat} (hc : s.network.Carries e ⟨u, v, unbounded, 0⟩)
    (hu : ¬ inside u) (hv : inside v) : 0 < net'.residual e := by
  classical
  have hmem : e ^^^ 1 ∈ s.network.crossing inside := by
    refine (mem_crossing _ _).2 ⟨?_, ?_, ?_⟩
    · exact (xor_one_lt (wellFormed_network hg).even).2 hc.lt_size
    · rwa [tail_xor_one, hc.head_eq]
    · rwa [head_xor_one, hc.tail_eq]
  have hle := hclosed.residual_le_amount hg hkeeps hmoves hsink hsource hmem hc.reverse_eq
  have hlt := amount_lt_unbounded hg hac htotal hmoves
  have hpair : net'.residual e + net'.residual (e ^^^ 1) = unbounded + 0 := by
    rw [hmoves.pair_eq e, hc.residual_eq, hc.reverse_eq]
  omega

/-- The arc through a task stays open. -/
theorem residual_through_pos (hg : s.graph.WellFormed) (hac : s.graph.Acyclic)
    (htotal : Word.total (s.graph.ids.map s.weight) ≤ unbounded) (hkeeps : s.KeepsOuter net')
    (hmoves : Moves s.network net' s.sink s.source amount) {id e : Nat} (hid : id ∈ s.graph.ids)
    (hc : s.network.Carries e ⟨entry id, exit id, unbounded, 0⟩) : 0 < net'.residual e := by
  -- everything after the entry of the task
  have houter : 2 * s.graph.tasks.size ≤ s.source := Nat.le_refl _
  have hclosed : s.Closed (s.nodes s.source (s.graph.Before id) (s.graph.Leads id)) :=
    closed_nodes hg houter (fun _ h => h.to_reflTransGen)
      fun _ _ huv h => Relation.TransGen.tail' h huv
  refine hclosed.residual_pos hg hac htotal hkeeps hmoves
    (not_nodes (by simp [sink]) (source_ne_sink s)) nodes_outer hc ?_ ?_
  · rw [nodes_entry houter hid]
    exact hac id
  · rw [nodes_exit houter hid]
    exact .refl

/-- The arc along a dependency stays open. -/
theorem residual_edge_pos (hg : s.graph.WellFormed) (hac : s.graph.Acyclic)
    (htotal : Word.total (s.graph.ids.map s.weight) ≤ unbounded) (hkeeps : s.KeepsOuter net')
    (hmoves : Moves s.network net' s.sink s.source amount) {u v e : Nat}
    (huv : s.graph.Joins u v) (hc : s.network.Carries e ⟨exit u, entry v, unbounded, 0⟩) :
    0 < net'.residual e := by
  -- everything from the entry of the later task on
  have houter : 2 * s.graph.tasks.size ≤ s.source := Nat.le_refl _
  have hclosed : s.Closed (s.nodes s.source (s.graph.Leads v) (s.graph.Leads v)) :=
    closed_nodes hg houter (fun _ h => h) fun _ _ hjoins h => h.tail hjoins
  refine hclosed.residual_pos hg hac htotal hkeeps hmoves
    (not_nodes (by simp [sink]) (source_ne_sink s)) nodes_outer hc ?_ ?_
  · rw [nodes_exit houter (hg.joins_left huv)]
    intro hvu
    exact hac u (Relation.TransGen.head' huv hvu)
  · rw [nodes_entry houter (hg.joins_right huv)]
    exact .refl

/-- What the sink reaches after the flow is closed. -/
theorem closed_reached (hg : s.graph.WellFormed) (hac : s.graph.Acyclic)
    (htotal : Word.total (s.graph.ids.map s.weight) ≤ unbounded) (hkeeps : s.KeepsOuter net')
    (hmoves : Moves s.network net' s.sink s.source amount) :
    s.Closed (reached (net'.distances s.sink) · = true) := by
  have hwf := wellFormed_network hg
  have hnodes : s.sink < net'.leaving.size := by simp [hmoves.leaving_eq, sink]
  have hmeasures := measures_distances (hmoves.wellFormed hwf) hnodes
  -- along an arc that stays open, what is reached grows
  have hopen : ∀ {e u v : Nat}, s.network.Carries e ⟨u, v, unbounded, 0⟩ → 0 < net'.residual e →
      reached (net'.distances s.sink) u = true → reached (net'.distances s.sink) v = true := by
    intro e u v hc hpos hu
    have htail : net'.tail e = u := by rw [hmoves.tail_eq, hc.tail_eq]
    have hhead : net'.head e = v := by rw [hmoves.head_eq, hc.head_eq]
    rw [← hhead]
    refine hmeasures.reached_head ?_ hpos (htail ▸ hu)
    rw [hmoves.size_eq]
    exact hc.lt_size
  constructor
  · intro id hid hentry
    have hp : (⟨entry id, exit id, unbounded, 0⟩ : ArcPair) ∈ s.pairs :=
      List.mem_append_left _ (List.mem_flatMap.2 ⟨id, hid, by simp [taskPairs]⟩)
    obtain ⟨e, hc⟩ := exists_carries hg hp
    exact hopen hc (residual_through_pos hg hac htotal hkeeps hmoves hid hc) hentry
  · intro u v huv hexit
    obtain ⟨d, hd, rfl, rfl⟩ := huv
    have hp : edgePair d ∈ s.pairs :=
      List.mem_append_right _ (List.mem_map_of_mem (TaskGraph.mem_dependencies.2 hd))
    obtain ⟨e, hc⟩ := exists_carries hg hp
    exact hopen hc (residual_edge_pos hg hac htotal hkeeps hmoves ⟨d, hd, rfl, rfl⟩ hc) hexit

/-- After a flow that cannot grow, nothing leaves what the sink reaches. -/
theorem sum_crossing_reached (hg : s.graph.WellFormed)
    (hmoves : Moves s.network net' s.sink s.source amount) :
    ∑ e ∈ s.network.crossing (reached (net'.distances s.sink) · = true), net'.residual e = 0 := by
  have hwf := wellFormed_network hg
  have hnodes : s.sink < net'.leaving.size := by simp [hmoves.leaving_eq, sink]
  have hmeasures := measures_distances (hmoves.wellFormed hwf) hnodes
  refine sum_eq_zero fun e he => ?_
  obtain ⟨hlt, htail, hhead⟩ := (mem_crossing _ _).1 he
  by_contra hne
  refine hhead ?_
  rw [← hmoves.head_eq]
  refine hmeasures.reached_head ?_ (by omega) ?_
  · rwa [hmoves.size_eq]
  · rwa [hmoves.tail_eq]

end Flow

/-! ## Measuring -/

/-- A frontier that weighs what its tasks weigh, and no unordered tasks weigh more. -/
structure IsHeaviest (s : Serialiser) (f : Frontier) : Prop where
  sorted : f.tasks.Pairwise (· < ·)
  unordered : s.graph.Unordered f.tasks.toFinset
  weight_eq : Word.total (f.tasks.map s.weight) = f.weight
  greatest : ∀ tasks, s.graph.Unordered tasks → ∑ id ∈ tasks, s.weight id ≤ f.weight

/-- The tasks on the far side of what the sink reaches are unordered. -/
theorem unordered_frontierOf {weight : Nat} {net' : FlowNetwork} (hg : s.graph.WellFormed)
    (hclosed : s.Closed (reached (net'.distances s.sink) · = true)) :
    s.graph.Unordered (s.frontierOf weight net').tasks.toFinset := by
  constructor
  · intro id hid
    exact (List.mem_filter.1 (List.mem_toFinset.1 hid)).1
  · intro a ha b hb hne hab
    have ha := (List.mem_filter.1 (List.mem_toFinset.1 ha)).2
    have hb := (List.mem_filter.1 (List.mem_toFinset.1 hb)).2
    simp only [Bool.and_eq_true, Bool.not_eq_true'] at ha hb
    rcases Relation.reflTransGen_iff_eq_or_transGen.1 hab with heq | hbefore
    · exact hne heq.symm
    · have hentry := hclosed.entry_of_before hg hbefore ha.2
      rw [hb.1] at hentry
      exact Bool.false_ne_true hentry

/-- Measuring an acyclic graph whose weights can flow succeeds. -/
theorem heaviest_spec (hg : s.graph.WellFormed) (hac : s.graph.Acyclic)
    (htotal : Word.total (s.graph.ids.map s.weight) ≤ unbounded) :
    ∃ f, s.heaviest = .ok f ∧ IsHeaviest s f := by
  have hword : unbounded < Word.bound := by decide
  obtain ⟨amount, net', hflow, hmoves, hseparated, hkeeps⟩ :=
    maxFlow_spec (source_ne_sink s) (wellFormed_network hg) (by simp [sink])
      (residual_add_reverse_lt hg htotal)
      (Nat.lt_of_le_of_lt (capacityFrom_sink_le hg) (by omega))
  have hclosed := closed_reached hg hac htotal hkeeps hmoves
  have hmeasures := measures_distances (hmoves.wellFormed (wellFormed_network hg))
    (by simp [hmoves.leaving_eq, sink] : s.sink < net'.leaving.size)
  have hweigh := amount_add_straddling hg hmoves hclosed hmeasures.reached_source
    (by simp [hseparated])
  rw [sum_crossing_reached hg hmoves] at hweigh
  let f := s.frontierOf (Word.total (s.graph.ids.map s.weight) - amount) net'
  have hsorted : f.tasks.Pairwise (· < ·) := s.graph.pairwise_ids.filter _
  have hsum : Word.total (f.tasks.map s.weight) =
      Word.total (s.graph.ids.map s.weight) - amount := by
    have hnodup : f.tasks.Nodup := s.graph.nodup_ids.filter _
    have hset : f.tasks.toFinset = s.straddling (reached (net'.distances s.sink) · = true) := by
      ext id
      simp [f, frontierOf, straddling, and_comm]
    rw [total_map_eq_sum hnodup, hset]
    omega
  refine ⟨f, ?_, hsorted, unordered_frontierOf hg hclosed, hsum, ?_⟩
  · have htotal' : Word.sum (s.graph.ids.map s.weight) =
        .ok (Word.total (s.graph.ids.map s.weight)) :=
      Word.sum_eq_ok_iff.2 ⟨by omega, rfl⟩
    have hsub : Word.sub (Word.total (s.graph.ids.map s.weight)) amount =
        .ok (Word.total (s.graph.ids.map s.weight) - amount) :=
      Word.sub_eq_ok_iff.2 ⟨by omega, rfl⟩
    have halive : Word.sum (f.tasks.map s.weight) =
        .ok (Word.total (s.graph.ids.map s.weight) - amount) :=
      Word.sum_eq_ok_iff.2 ⟨by omega, hsum⟩
    unfold heaviest
    rw [htotal', hflow]
    simp only [bind, Except.bind, hsub]
    rw [show Word.sum ((s.frontierOf _ net').tasks.map s.weight) = _ from halive]
    simp [pure, Except.pure, f]
  · intro tasks htasks
    have hle := sum_add_amount_le hg hac hmoves htasks
    show _ ≤ Word.total (s.graph.ids.map s.weight) - amount
    omega

end Serialiser

/-! ## Preparing a graph -/

/-- The scratch memory that a task needs. -/
def TaskGraph.cmxBytes (g : TaskGraph) (id : Nat) : Nat :=
  Word.total ((g.task id).sizesIn .cmx)

theorem TaskGraph.cmxBytes_eq_zero {g : TaskGraph} {id : Nat} (hid : id ∉ g.ids) :
    g.cmxBytes id = 0 := by
  have hvacant : g.task? id = none := by
    simpa [mem_ids, has] using hid
  simp [cmxBytes, task, hvacant, Task.vacant, Task.sizesIn]

/-- A footprint that fits a word is computed, also that of a vacant id. -/
theorem TaskGraph.cmxFootprint_eq_ok {g : TaskGraph}
    (hfit : ∀ id ∈ g.ids, g.cmxBytes id < Word.bound) (id : Nat) :
    (g.task id).cmxFootprint = .ok (g.cmxBytes id) := by
  refine Word.sum_eq_ok_iff.2 ⟨?_, rfl⟩
  by_cases hid : id ∈ g.ids
  · exact hfit id hid
  · have hzero := cmxBytes_eq_zero hid
    unfold cmxBytes at hzero
    rw [hzero]
    decide

namespace Serialiser

theorem getD_positions {order : List Nat} (hnodup : order.Nodup) {count id : Nat}
    (hid : id < count) (hmem : id ∈ order) :
    (positions count order).getD id 0 = order.idxOf id := by
  unfold positions
  rw [TaskGraph.getD_foldl_setIfInBounds hnodup 0 _ (by simpa using hid), if_pos hmem, Nat.zero_add]

/-- What a serialiser carries about the graph that it was made from. -/
structure Prepares (s : Serialiser) (g : TaskGraph) (budget : Nat) : Prop where
  graph_eq : s.graph = g
  weight_eq : ∀ id, s.weight id = g.cmxBytes id
  budget_eq : s.budget = budget
  pending_eq : s.pending = []
  rank_lt : ∀ u v, g.Joins u v → s.rank u < s.rank v
  rank_inj : ∀ u ∈ g.ids, ∀ v ∈ g.ids, s.rank u = s.rank v → u = v

/-- The footprints of a graph whose scratch memory fits a word are its weights. -/
theorem mapM_cmxFootprint {g : TaskGraph} (hfit : ∀ id ∈ g.ids, g.cmxBytes id < Word.bound) :
    (List.range g.tasks.size).mapM (fun id => (g.task id).cmxFootprint) =
      .ok ((List.range g.tasks.size).map g.cmxBytes) :=
  mapM_ok fun id _ => TaskGraph.cmxFootprint_eq_ok hfit id

/-- A graph without an order is refused. -/
theorem ofGraph_of_error {g : TaskGraph} {error : ScheduleError}
    (horder : g.topologicalOrder = .error error)
    (hfit : ∀ id ∈ g.ids, g.cmxBytes id < Word.bound) (budget : Nat) :
    ofGraph g budget = .error (.refused error) := by
  unfold ofGraph
  rw [mapM_cmxFootprint hfit]
  simp only [horder, bind, Except.bind]

/-- A footprint that is no word is reported before the order is asked for. -/
theorem ofGraph_overflow {g : TaskGraph} {id : Nat} (hid : id ∈ g.ids)
    (hlarge : Word.bound ≤ g.cmxBytes id) (budget : Nat) :
    ofGraph g budget = .error .overflow := by
  have hfail : (g.task id).cmxFootprint = .error .overflow :=
    if_neg (Nat.not_lt.2 hlarge)
  have hmem : id ∈ List.range g.tasks.size :=
    List.mem_range.2 (TaskGraph.lt_size_of_mem_ids hid)
  have hall : (List.range g.tasks.size).mapM (fun id => (g.task id).cmxFootprint) =
      .error .overflow :=
    mapM_overflow (fun _ _ h => Word.overflow_of_fit h) hmem hfail
  unfold ofGraph
  rw [hall]
  rfl

theorem ofGraph_spec {g : TaskGraph} (hg : g.WellFormed) (hac : g.Acyclic)
    (hfit : ∀ id ∈ g.ids, g.cmxBytes id < Word.bound) (budget : Nat) :
    ∃ s, ofGraph g budget = .ok s ∧ s.Prepares g budget := by
  obtain ⟨order, horder, hisOrder⟩ := hg.topologicalOrder_ok hac
  have hrank : ∀ id ∈ g.ids, (positions g.tasks.size order).getD id 0 = order.idxOf id :=
    fun id hid => getD_positions hisOrder.nodup (TaskGraph.lt_size_of_mem_ids hid)
      (hisOrder.perm.mem_iff.2 hid)
  refine ⟨⟨g, ((List.range g.tasks.size).map g.cmxBytes).toArray,
    positions g.tasks.size order, budget, []⟩, ?_, rfl, ?_, rfl, rfl, ?_, ?_⟩
  · unfold ofGraph
    rw [mapM_cmxFootprint hfit]
    simp only [horder, bind, Except.bind, pure, Except.pure]
  · intro id
    by_cases hlt : id < g.tasks.size
    · simp [weight, hlt]
    · have hid : id ∉ g.ids := fun hid => hlt (TaskGraph.lt_size_of_mem_ids hid)
      simp [weight, hlt, TaskGraph.cmxBytes_eq_zero hid]
  · intro u v huv
    simp only [rank]
    rw [hrank u (hg.joins_left huv), hrank v (hg.joins_right huv)]
    exact hisOrder.forward u v huv
  · intro u hu v hv heq
    simp only [rank] at heq
    rw [hrank u hu, hrank v hv] at heq
    exact (List.idxOf_inj (hisOrder.perm.mem_iff.2 hu)).1 heq

end Serialiser

namespace TaskGraph

/-- What sets of unordered tasks need. -/
def unorderedPeaks (g : TaskGraph) : Set Nat :=
  {peak | ∃ tasks, g.Unordered tasks ∧ ∑ id ∈ tasks, g.cmxBytes id = peak}

/-- The measured frontier of an acyclic graph is a heaviest set of unordered tasks. -/
theorem heaviest_isGreatest {g : TaskGraph} (hg : g.WellFormed) (hac : g.Acyclic) (budget : Nat)
    (hbytes : Word.total (g.ids.map g.cmxBytes) ≤ FlowNetwork.unbounded) :
    ∃ s f, Serialiser.ofGraph g budget = .ok s ∧ s.heaviest = .ok f ∧
      IsGreatest g.unorderedPeaks f.weight ∧ f.tasks.Pairwise (· < ·) ∧
      g.Unordered f.tasks.toFinset ∧ Word.total (f.tasks.map g.cmxBytes) = f.weight := by
  have hword : FlowNetwork.unbounded < Word.bound := by decide
  obtain ⟨s, hs, hprepares⟩ := Serialiser.ofGraph_spec hg hac (fun id hid =>
    Nat.lt_of_le_of_lt (Word.le_total (List.mem_map_of_mem hid)) (by omega)) budget
  obtain rfl := hprepares.graph_eq
  have hweight : s.weight = s.graph.cmxBytes := funext hprepares.weight_eq
  obtain ⟨f, hf, hheaviest⟩ := Serialiser.heaviest_spec hg hac (hweight ▸ hbytes)
  have hsum := hheaviest.weight_eq
  rw [hweight] at hsum
  refine ⟨s, f, hs, hf, ⟨⟨f.tasks.toFinset, hheaviest.unordered, ?_⟩, ?_⟩, hheaviest.sorted,
    hheaviest.unordered, hsum⟩
  · rw [← FlowNetwork.total_map_eq_sum (hheaviest.sorted.imp Nat.ne_of_lt), hsum]
  · rintro peak ⟨tasks, htasks, rfl⟩
    rw [← hweight]
    exact hheaviest.greatest tasks htasks

/-- Tasks that are joined twice, hold nothing or stand beside a vacant id are measured. -/
theorem heaviest_isGreatest_diamond :
    Word.total (diamond.ids.map diamond.cmxBytes) ≤ FlowNetwork.unbounded ∧
      ∃ s f, Serialiser.ofGraph diamond 128 = .ok s ∧ s.heaviest = .ok f ∧
        IsGreatest diamond.unorderedPeaks f.weight ∧ f.tasks.Pairwise (· < ·) ∧
        diamond.Unordered f.tasks.toFinset ∧
        Word.total (f.tasks.map diamond.cmxBytes) = f.weight := by
  have hbytes : Word.total (diamond.ids.map diamond.cmxBytes) ≤ FlowNetwork.unbounded := by decide
  exact ⟨hbytes, heaviest_isGreatest wellFormed_diamond acyclic_diamond 128 hbytes⟩

end TaskGraph

end TaskLoom
