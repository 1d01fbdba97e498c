import TaskLoom.Frontier.Heaviest
import TaskLoom.Proofs.Flow.Cuts
import TaskLoom.Proofs.Graph.Paths

/-!
# The network of a graph

The network in which frontiers are measured is a list of pairs of arcs: three for
every task and one for every dependency.  What holds for every arc, and the
capacity that leaves a set of nodes, is read off this list.

A set of nodes is *closed* if it is closed under the arcs within tasks and along
dependencies.  From a closed set that holds the sink but not the source, only the
weights of tasks leave: of those whose exit is not in it, and of those whose entry
is.

## Main results

* `ofPairs_classified` — the arcs are exactly the pairs, in both directions.
* `sum_crossing_ofPairs` — the capacity that leaves a set of nodes.
* `network_eq_ofPairs`, `wellFormed_network` — the network of a graph.
* `Closed.sum_crossing` — the capacity that leaves a closed set of nodes.
-/

namespace TaskLoom

open Finset

/-- A pair of arcs between two nodes. -/
structure ArcPair where
  source : Nat
  target : Nat
  forward : Nat
  backward : Nat

/-- The capacity of a pair that leaves a set of nodes. -/
def ArcPair.leaves (inside : Nat → Prop) [DecidablePred inside] (p : ArcPair) : Nat :=
  (if inside p.source ∧ ¬ inside p.target then p.forward else 0) +
    (if inside p.target ∧ ¬ inside p.source then p.backward else 0)

namespace FlowNetwork

/-! ## Networks built from pairs of arcs -/

/-- The network of a list of pairs. -/
def ofPairs (nodes : Nat) (pairs : List ArcPair) : FlowNetwork :=
  pairs.foldl (fun net p => net.addArc p.source p.target p.forward p.backward) (create nodes)

/-- Arc `e` is the forward direction of a pair. -/
structure Carries (net : FlowNetwork) (e : Nat) (p : ArcPair) : Prop where
  lt_size : e < net.arcs.size
  tail_eq : net.tail e = p.source
  head_eq : net.head e = p.target
  residual_eq : net.residual e = p.forward
  reverse_eq : net.residual (e ^^^ 1) = p.backward

section Append

variable (nodes : Nat) (pairs : List ArcPair) (p : ArcPair)

theorem ofPairs_append : ofPairs nodes (pairs ++ [p]) =
    (ofPairs nodes pairs).addArc p.source p.target p.forward p.backward := by
  simp [ofPairs]

@[simp]
theorem nodes_ofPairs : (ofPairs nodes pairs).leaving.size = nodes := by
  induction pairs using List.reverseRecOn with
  | nil => simp [ofPairs, create]
  | append_singleton pairs p ih => rw [ofPairs_append, nodes_addArc, ih]

end Append

/-- The pairs join nodes of a network. -/
def Within (nodes : Nat) (pairs : List ArcPair) : Prop :=
  ∀ p ∈ pairs, p.source < nodes ∧ p.target < nodes

theorem Within.of_append {nodes : Nat} {pairs : List ArcPair} {p : ArcPair}
    (h : Within nodes (pairs ++ [p])) :
    Within nodes pairs ∧ p.source < nodes ∧ p.target < nodes :=
  ⟨fun q hq => h q (List.mem_append_left _ hq), h p (by simp)⟩

theorem wellFormed_ofPairs {nodes : Nat} {pairs : List ArcPair} (h : Within nodes pairs) :
    (ofPairs nodes pairs).WellFormed := by
  induction pairs using List.reverseRecOn with
  | nil => exact wellFormed_create nodes
  | append_singleton pairs p ih =>
    obtain ⟨hpairs, hs, ht⟩ := h.of_append
    rw [ofPairs_append]
    exact (ih hpairs).addArc (by simpa using hs) (by simpa using ht) p.forward p.backward

/-- Another pair leaves the arcs before it alone. -/
theorem Carries.addArc {net : FlowNetwork} (hwf : net.WellFormed) {e : Nat} {q : ArcPair}
    (h : net.Carries e q) (p : ArcPair) :
    (net.addArc p.source p.target p.forward p.backward).Carries e q := by
  have hrev : e ^^^ 1 < net.arcs.size := (xor_one_lt hwf.even).2 h.lt_size
  constructor
  · rw [size_addArc]
    exact Nat.lt_add_right 2 h.lt_size
  · rw [tail_addArc hwf, if_pos h.lt_size, h.tail_eq]
  · rw [head_addArc, if_pos h.lt_size, h.head_eq]
  · rw [residual_addArc, if_pos h.lt_size, h.residual_eq]
  · rw [residual_addArc, if_pos hrev, h.reverse_eq]

/-- The reverse of the next arc is the one after it. -/
theorem xor_one_size {net : FlowNetwork} (hwf : net.WellFormed) :
    net.arcs.size ^^^ 1 = net.arcs.size + 1 := by
  have heven := hwf.even
  rcases xor_one_cases net.arcs.size with ⟨-, h⟩ | ⟨hodd, -⟩
  · exact h
  · omega

theorem carries_addArc {net : FlowNetwork} (hwf : net.WellFormed) (p : ArcPair) :
    (net.addArc p.source p.target p.forward p.backward).Carries net.arcs.size p := by
  constructor
  · simp
  · simp [tail_addArc hwf]
  · simp [head_addArc]
  · simp [residual_addArc]
  · simp [residual_addArc, xor_one_size hwf]

/-- The arcs are exactly the pairs, in both directions. -/
theorem ofPairs_classified {nodes : Nat} {pairs : List ArcPair} (h : Within nodes pairs) :
    (∀ p ∈ pairs, ∃ e, (ofPairs nodes pairs).Carries e p) ∧
      ∀ e < (ofPairs nodes pairs).arcs.size,
        ∃ p ∈ pairs, (ofPairs nodes pairs).Carries e p ∨
          (ofPairs nodes pairs).Carries (e ^^^ 1) p := by
  induction pairs using List.reverseRecOn with
  | nil => simp [ofPairs, create]
  | append_singleton pairs p ih =>
    obtain ⟨hpairs, -, -⟩ := h.of_append
    have hwf := wellFormed_ofPairs hpairs
    obtain ⟨hof, hto⟩ := ih hpairs
    rw [ofPairs_append]
    constructor
    · intro q hq
      rcases List.mem_append.1 hq with hq | hq
      · obtain ⟨e, he⟩ := hof q hq
        exact ⟨e, he.addArc hwf p⟩
      · obtain rfl := List.mem_singleton.1 hq
        exact ⟨_, carries_addArc hwf q⟩
    · intro e he
      rw [size_addArc] at he
      by_cases hlt : e < (ofPairs nodes pairs).arcs.size
      · obtain ⟨q, hq, hcarries⟩ := hto e hlt
        exact ⟨q, List.mem_append_left _ hq,
          hcarries.imp (fun hc => hc.addArc hwf p) fun hc => hc.addArc hwf p⟩
      · refine ⟨p, by simp, ?_⟩
        have hsize := xor_one_size hwf
        rcases (by omega : e = (ofPairs nodes pairs).arcs.size ∨
            e = (ofPairs nodes pairs).arcs.size + 1) with rfl | rfl
        · exact Or.inl (carries_addArc hwf p)
        · rw [← hsize, xor_one_xor_one]
          exact Or.inr (carries_addArc hwf p)

/-- The capacity that leaves a set of nodes, pair by pair. -/
theorem sum_crossing_ofPairs {nodes : Nat} {pairs : List ArcPair} (h : Within nodes pairs)
    (inside : Nat → Prop) [DecidablePred inside] :
    ∑ e ∈ (ofPairs nodes pairs).crossing inside, (ofPairs nodes pairs).residual e =
      Word.total (pairs.map (·.leaves inside)) := by
  induction pairs using List.reverseRecOn with
  | nil => simp [ofPairs, create, crossing]
  | append_singleton pairs p ih =>
    obtain ⟨hpairs, -, -⟩ := h.of_append
    have hwf := wellFormed_ofPairs hpairs
    have hold := ih hpairs
    simp only [crossing, sum_filter] at hold ⊢
    rw [ofPairs_append, size_addArc, sum_range_succ, sum_range_succ, List.map_append,
      Word.total_append, ← hold]
    simp only [tail_addArc hwf, head_addArc, residual_addArc, List.map_cons, List.map_nil,
      Word.total_cons, Word.total_nil, ArcPair.leaves]
    rw [Nat.add_assoc]
    congr 1
    · refine sum_congr rfl fun e he => ?_
      simp only [mem_range] at he
      simp [he]
    · simp

end FlowNetwork

namespace Serialiser

open FlowNetwork

/-! ## The pairs of a graph -/

/-- The pairs of one task, with its weight flowing through it. -/
def taskPairs (s : Serialiser) (id : Nat) : List ArcPair :=
  [⟨s.source, entry id, unbounded, s.weight id⟩, ⟨entry id, exit id, unbounded, 0⟩,
    ⟨exit id, s.sink, unbounded, s.weight id⟩]

/-- The pair of a dependency. -/
def edgePair (e : Edge) : ArcPair :=
  ⟨exit e.source, entry e.target, unbounded, 0⟩

/-- The pairs of the network of a graph. -/
def pairs (s : Serialiser) : List ArcPair :=
  s.graph.ids.flatMap s.taskPairs ++ s.graph.dependencies.map edgePair

theorem network_eq_ofPairs (s : Serialiser) :
    s.network = ofPairs (2 * s.graph.tasks.size + 2) s.pairs := by
  unfold network ofPairs pairs
  rw [List.foldl_append, List.foldl_flatMap, List.foldl_map]
  rfl

variable {s : Serialiser}

theorem within_pairs (hg : s.graph.WellFormed) :
    Within (2 * s.graph.tasks.size + 2) s.pairs := by
  intro p hp
  rcases List.mem_append.1 hp with hp | hp
  · obtain ⟨id, hid, hp⟩ := List.mem_flatMap.1 hp
    have hlt := TaskGraph.lt_size_of_mem_ids hid
    simp only [taskPairs, List.mem_cons, List.not_mem_nil, or_false] at hp
    rcases hp with rfl | rfl | rfl <;> simp only [source, sink, entry, exit] <;> omega
  · obtain ⟨e, he, rfl⟩ := List.mem_map.1 hp
    have hedge := TaskGraph.mem_dependencies.1 he
    have hu := TaskGraph.lt_size_of_mem_ids (hg.source_mem e hedge)
    have hv := TaskGraph.lt_size_of_mem_ids (hg.target_mem e hedge)
    simp only [edgePair, entry, exit]
    omega

@[simp]
theorem nodes_network (s : Serialiser) :
    s.network.leaving.size = 2 * s.graph.tasks.size + 2 := by
  rw [network_eq_ofPairs, nodes_ofPairs]

theorem wellFormed_network (hg : s.graph.WellFormed) : s.network.WellFormed := by
  rw [network_eq_ofPairs]
  exact wellFormed_ofPairs (within_pairs hg)

/-- Every pair has its arc. -/
theorem exists_carries (hg : s.graph.WellFormed) {p : ArcPair} (hp : p ∈ s.pairs) :
    ∃ e, s.network.Carries e p := by
  rw [network_eq_ofPairs]
  exact (ofPairs_classified (within_pairs hg)).1 p hp

/-- Every arc is a pair, in one direction. -/
theorem carries_of_lt (hg : s.graph.WellFormed) {e : Nat} (he : e < s.network.arcs.size) :
    ∃ p ∈ s.pairs, s.network.Carries e p ∨ s.network.Carries (e ^^^ 1) p := by
  rw [network_eq_ofPairs] at he ⊢
  exact (ofPairs_classified (within_pairs hg)).2 e he

/-! ## Closed sets of nodes -/

/-- The set is closed under the arcs within tasks and along dependencies. -/
structure Closed (s : Serialiser) (inside : Nat → Prop) : Prop where
  exit_of_entry : ∀ id ∈ s.graph.ids, inside (entry id) → inside (exit id)
  entry_of_exit : ∀ u v, s.graph.Joins u v → inside (exit u) → inside (entry v)

section Closed

variable {inside : Nat → Prop}

theorem Closed.entry_of_before (h : s.Closed inside) (hg : s.graph.WellFormed) {u v : Nat}
    (huv : s.graph.Before u v) (hu : inside (exit u)) : inside (entry v) := by
  induction huv with
  | single step => exact h.entry_of_exit _ _ step hu
  | tail _ step ih =>
    exact h.entry_of_exit _ _ step (h.exit_of_entry _ (hg.joins_left step) ih)

variable [DecidablePred inside]

variable (s inside) in
/-- The tasks whose exit, but not whose entry, is in a set of nodes. -/
def straddling : Finset Nat :=
  {id ∈ s.graph.ids.toFinset | inside (exit id) ∧ ¬ inside (entry id)}

/-- Either the weight of a task leaves a closed set, or the task straddles it. -/
theorem Closed.total_taskPairs (h : s.Closed inside) (hsink : inside s.sink)
    (hsource : ¬ inside s.source) {id : Nat} (hid : id ∈ s.graph.ids) :
    Word.total ((s.taskPairs id).map (·.leaves inside)) +
      (if inside (exit id) ∧ ¬ inside (entry id) then s.weight id else 0) = s.weight id := by
  have hthrough := h.exit_of_entry id hid
  by_cases hentry : inside (entry id)
  · simp [taskPairs, ArcPair.leaves, hsink, hsource, hentry, hthrough hentry]
  · by_cases hexit : inside (exit id) <;>
      simp [taskPairs, ArcPair.leaves, hsink, hsource, hentry, hexit]

/-- No dependency leaves a closed set. -/
theorem Closed.leaves_edgePair (h : s.Closed inside) {e : Edge} (he : e ∈ s.graph.dependencies) :
    (edgePair e).leaves inside = 0 := by
  have hjoins : s.graph.Joins e.source e.target := ⟨e, TaskGraph.mem_dependencies.1 he, rfl, rfl⟩
  have hstep := h.entry_of_exit _ _ hjoins
  by_cases hexit : inside (exit e.source)
  · simp [ArcPair.leaves, edgePair, hexit, hstep hexit]
  · simp [ArcPair.leaves, edgePair, hexit]

/-- Of all tasks, the weight leaves a closed set or straddles it. -/
theorem Closed.sum_crossing (h : s.Closed inside) (hg : s.graph.WellFormed)
    (hsink : inside s.sink) (hsource : ¬ inside s.source) :
    ∑ e ∈ s.network.crossing inside, s.network.residual e +
        ∑ id ∈ s.straddling inside, s.weight id =
      Word.total (s.graph.ids.map s.weight) := by
  have hedges : Word.total ((s.graph.dependencies.map edgePair).map (·.leaves inside)) = 0 := by
    refine List.sum_eq_zero fun n hn => ?_
    obtain ⟨p, hp, rfl⟩ := List.mem_map.1 hn
    obtain ⟨e, he, rfl⟩ := List.mem_map.1 hp
    exact h.leaves_edgePair he
  have htasks : ∀ l : List Nat, (∀ id ∈ l, id ∈ s.graph.ids) →
      Word.total ((l.flatMap s.taskPairs).map (·.leaves inside)) +
          Word.total (l.map fun id =>
            if inside (exit id) ∧ ¬ inside (entry id) then s.weight id else 0) =
        Word.total (l.map s.weight) := by
    intro l
    induction l with
    | nil => intro _; rfl
    | cons id l ih =>
      intro hl
      obtain ⟨hid, hl⟩ := List.forall_mem_cons.1 hl
      have hone := h.total_taskPairs hsink hsource hid
      have hrest := ih hl
      rw [List.flatMap_cons, List.map_append, Word.total_append, List.map_cons, Word.total_cons,
        List.map_cons, Word.total_cons]
      omega
  have hids := htasks s.graph.ids fun id hid => hid
  rw [total_map_eq_sum s.graph.nodup_ids, ← sum_filter] at hids
  rw [network_eq_ofPairs, sum_crossing_ofPairs (within_pairs hg), pairs, List.map_append,
    Word.total_append, hedges]
  exact hids

end Closed

end Serialiser

end TaskLoom
