import TaskLoom.Proofs.Frontier.Serialise
import TaskLoom.Proofs.Graph.Matching

/-!
# The frontier next to the sink

A graph may have several heaviest frontiers, and its network several maximum flows.  Which
flow is found depends on the order of the arcs, that is of the edges.  The frontier that
is measured does not: whatever the maximum flow is, the sink reaches the least closed set
of nodes that is straddled by tasks of the heaviest weight.  Nothing is left to flow out of
any such set, so the sink reaches nothing outside it.

Which sets are closed depends on the order of the tasks only, not on the edges that give
this order.  So the frontiers of two graphs have the same weight and the same tasks if the
edges of both lead the same way, also where one joins tasks directly and the other through
a third.  If the graphs match, the same dependencies lead past these frontiers.

## Main results

* `Closed.of_reached` — what the sink reaches is least.
* `Closed.image` — closed sets of one network are closed sets of the other.
* `Compares.nearSink_iff` — both sinks reach the same tasks.
* `heaviest_congr` — the frontiers measured on matching graphs are alike.
* `heaviest_of_sameOrder` — so are those on graphs with the same order, but for what leads past.
-/

namespace TaskLoom

open Finset

theorem TaskGraph.SameOrder.unordered {g g' : TaskGraph} (h : g.SameOrder g')
    {tasks : Finset Nat} (hunordered : g.Unordered tasks) : g'.Unordered tasks where
  mem_ids id hid := h.ids_eq.symm ▸ hunordered.mem_ids id hid
  antichain := by
    intro a ha b hb hne hleads
    exact hunordered.antichain ha hb hne ((h.leads_iff a b).1 hleads)

theorem TaskGraph.SameOrder.cmxBytes_eq {g g' : TaskGraph} (h : g.SameOrder g') :
    g'.cmxBytes = g.cmxBytes := by
  funext id
  rw [cmxBytes, cmxBytes, task_of_task?_eq h.task?_eq]

/-- Two frontiers of the same weight and tasks, past which the same dependencies lead, in
whatever order and however often they are listed. -/
structure Frontier.Alike (f f' : Frontier) : Prop where
  weight_eq : f'.weight = f.weight
  tasks_eq : f'.tasks = f.tasks
  crossing_iff : ∀ u v, (u, v) ∈ f'.crossing ↔ (u, v) ∈ f.crossing

namespace Serialiser

open FlowNetwork

variable {s s' : Serialiser} {f f' : Frontier} {net net' : FlowNetwork} {amount amount' : Nat}

/-! ## What the sink reaches -/

/-- The nodes that the sink reaches. -/
abbrev NearSink (s : Serialiser) (net : FlowNetwork) (x : Nat) : Prop :=
  reached (net.distances s.sink) x = true

/-- If a closed set is straddled by all the weight that the flow leaves, the sink reaches
nothing outside it. -/
theorem Closed.of_reached {inside : Nat → Prop} [DecidablePred inside] (hclosed : s.Closed inside)
    (hg : s.graph.WellFormed) (hmoves : Moves s.network net s.sink s.source amount)
    (hsink : inside s.sink) (hsource : ¬ inside s.source)
    (hweight : ∑ id ∈ s.straddling inside, s.weight id + amount =
      Word.total (s.graph.ids.map s.weight)) {x : Nat}
    (hx : s.NearSink net x) : inside x := by
  have hweigh := amount_add_straddling hg hmoves hclosed hsink hsource
  have hfull : ∑ e ∈ s.network.crossing inside, net.residual e = 0 := by omega
  have hwf := wellFormed_network hg
  have hnodes : s.sink < net.leaving.size := by simp [hmoves.leaving_eq, sink]
  have hpath := (measures_distances (hmoves.wellFormed hwf) hnodes).reached_iff.1 hx
  clear hx
  induction hpath with
  | refl => exact hsink
  | tail hpath step ih =>
    obtain ⟨e, he, hpos, rfl, rfl⟩ := step
    -- an arc that leaves the set is full
    by_contra hout
    have hmem : e ∈ s.network.crossing inside := by
      refine (mem_crossing _ _).2 ⟨hmoves.size_eq ▸ he, ?_, ?_⟩
      · rw [← hmoves.tail_eq]
        exact ih
      · rwa [← hmoves.head_eq]
    exact absurd (Finset.sum_eq_zero_iff.1 hfull e hmem) (Nat.ne_of_gt hpos)

/-- A frontier was measured: it is what a maximum flow leaves. -/
structure IsMeasured (s : Serialiser) (f : Frontier) (net : FlowNetwork) (amount : Nat) : Prop where
  moves : Moves s.network net s.sink s.source amount
  closed : s.Closed (s.NearSink net)
  mem_tasks : ∀ id, id ∈ f.tasks ↔
    id ∈ s.graph.ids ∧ s.NearSink net (exit id) ∧ ¬ s.NearSink net (entry id)
  mem_crossing : ∀ u v, (u, v) ∈ f.crossing ↔
    s.graph.Joins u v ∧ ¬ s.NearSink net (exit u) ∧ s.NearSink net (entry v)
  weight_add : f.weight + amount = Word.total (s.graph.ids.map s.weight)

/-- Measuring succeeds with the frontier that some maximum flow leaves. -/
theorem heaviest_done (h : s.heaviest = .ok f) : ∃ amount net,
    s.network.maxFlow s.sink s.source = .ok (amount, net) ∧
    f = s.frontierOf (Word.total (s.graph.ids.map s.weight) - amount) net ∧
    amount ≤ Word.total (s.graph.ids.map s.weight) := by
  unfold heaviest at h
  simp only [bind, Except.bind] at h
  split at h
  · cases h
  · next total htotal =>
    obtain ⟨-, rfl⟩ := Word.sum_eq_ok_iff.1 htotal
    split at h
    · cases h
    · next flow hflow =>
      split at h
      · cases h
      · next weight hweight =>
        obtain ⟨hle, rfl⟩ := Word.sub_eq_ok_iff.1 hweight
        split at h
        · cases h
        · split at h
          · cases h
            exact ⟨flow.1, flow.2, hflow, rfl, hle⟩
          · cases h

theorem exists_isMeasured (hg : s.graph.WellFormed) (hac : s.graph.Acyclic)
    (htotal : Word.total (s.graph.ids.map s.weight) ≤ unbounded) (h : s.heaviest = .ok f) :
    ∃ net amount, s.IsMeasured f net amount ∧ f = s.frontierOf f.weight net := by
  have hword : unbounded < Word.bound := by decide
  obtain ⟨amount, net, hflow, hmoves, -, hkeeps⟩ :=
    maxFlow_spec (source_ne_sink s) (wellFormed_network hg) (by simp [sink])
      (residual_add_reverse_lt hg htotal)
      (Nat.lt_of_le_of_lt (capacityFrom_sink_le hg) (by omega))
  obtain ⟨amount', net', hflow', rfl, hle⟩ := heaviest_done h
  cases hflow.symm.trans hflow'
  refine ⟨net, amount, ⟨hmoves, closed_reached hg hac htotal hkeeps hmoves, fun id => ?_,
    fun u v => ?_, Nat.sub_add_cancel hle⟩, rfl⟩
  · simp [frontierOf, and_comm]
  · simp only [frontierOf, List.mem_map, List.mem_filter, TaskGraph.mem_dependencies,
      Bool.and_eq_true, Bool.not_eq_true', Bool.not_eq_true, Prod.mk.injEq]
    constructor
    · rintro ⟨e, ⟨he, hcross⟩, rfl, rfl⟩
      exact ⟨⟨e, he, rfl, rfl⟩, hcross⟩
    · rintro ⟨⟨e, he, rfl, rfl⟩, hcross⟩
      exact ⟨e, ⟨he, hcross⟩, rfl, rfl⟩

/-- Measuring an acyclic graph whose weights can flow succeeds with the frontier that some
maximum flow leaves. -/
theorem exists_measured (hg : s.graph.WellFormed) (hac : s.graph.Acyclic)
    (htotal : Word.total (s.graph.ids.map s.weight) ≤ unbounded) :
    ∃ f net amount, s.heaviest = .ok f ∧ s.IsHeaviest f ∧ s.IsMeasured f net amount := by
  obtain ⟨f, hmeasure, hf⟩ := heaviest_spec hg hac htotal
  obtain ⟨net, amount, hm, -⟩ := exists_isMeasured hg hac htotal hmeasure
  exact ⟨f, net, amount, hmeasure, hf, hm⟩

/-! ## The same nodes of another network -/

/-- Two serialisers over graphs without cycles that have the same order and weights. -/
structure Compares (s s' : Serialiser) : Prop where
  order : s.graph.SameOrder s'.graph
  wellFormed : s.graph.WellFormed
  wellFormed' : s'.graph.WellFormed
  acyclic : s.graph.Acyclic
  acyclic' : s'.graph.Acyclic
  weight_eq : s'.weight = s.weight

theorem Compares.symm (h : s.Compares s') : s'.Compares s where
  order := h.order.symm
  wellFormed := h.wellFormed'
  wellFormed' := h.wellFormed
  acyclic := h.acyclic'
  acyclic' := h.acyclic
  weight_eq := h.weight_eq.symm

theorem Compares.total_eq (h : s.Compares s') :
    Word.total (s'.graph.ids.map s'.weight) = Word.total (s.graph.ids.map s.weight) := by
  rw [h.order.ids_eq, h.weight_eq]

/-- The nodes of the tasks of a graph that are in a set, and the sink. -/
def image (s : Serialiser) (inside : Nat → Prop) : Nat → Prop :=
  s.nodes s.sink (fun id => id ∈ s.graph.ids ∧ inside (entry id)) fun id => inside (exit id)

section Image

variable {inside : Nat → Prop} {id : Nat}

theorem image_entry (hid : id ∈ s.graph.ids) : s.image inside (entry id) ↔ inside (entry id) :=
  (nodes_entry (by simp [sink]) hid).trans (and_iff_right hid)

theorem image_exit (hid : id ∈ s.graph.ids) : s.image inside (exit id) ↔ inside (exit id) :=
  nodes_exit (by simp [sink]) hid

/-- What is closed in a network is closed in that of a graph with the same order. -/
theorem Closed.image (hclosed : s'.Closed inside) (h : s.Compares s') :
    s.Closed (s.image inside) := by
  apply closed_nodes h.wellFormed (by simp [sink])
  · rintro id ⟨hid, hentry⟩
    exact hclosed.exit_of_entry id (h.order.ids_eq.symm ▸ hid) hentry
  · intro u v huv hexit
    -- the other graph has a path, if not an edge
    have hbefore : s'.graph.Before u v :=
      (h.order.before_iff h.acyclic h.acyclic' u v).2 (.single huv)
    exact ⟨h.wellFormed.joins_right huv, hclosed.entry_of_before h.wellFormed' hbefore hexit⟩

theorem mem_straddling_image [DecidablePred (s.image inside)] :
    id ∈ s.straddling (s.image inside) ↔
      id ∈ s.graph.ids ∧ inside (exit id) ∧ ¬ inside (entry id) := by
  rw [straddling, mem_filter, List.mem_toFinset]
  exact and_congr_right fun hid => and_congr (image_exit hid) (not_congr (image_entry hid))

end Image

/-- The measured frontier of the other graph is heaviest here as well. -/
theorem Compares.weight_le (h : s.Compares s') (hf : s.IsHeaviest f) (hf' : s'.IsHeaviest f') :
    f'.weight ≤ f.weight := by
  have hle := hf.greatest _ (h.order.symm.unordered hf'.unordered)
  rwa [← total_map_eq_sum (hf'.sorted.imp Nat.ne_of_lt), ← h.weight_eq, hf'.weight_eq] at hle

theorem Compares.frontier_weight_eq (h : s.Compares s') (hf : s.IsHeaviest f)
    (hf' : s'.IsHeaviest f') : f'.weight = f.weight :=
  Nat.le_antisymm (h.weight_le hf hf') (h.symm.weight_le hf' hf)

/-- The sink of one network reaches no more tasks than that of the other. -/
theorem Compares.image_of_nearSink (h : s.Compares s') (hf : s.IsHeaviest f)
    (hf' : s'.IsHeaviest f') (hm : s.IsMeasured f net amount)
    (hm' : s'.IsMeasured f' net' amount') {x : Nat} (hx : s.NearSink net x) :
    s.image (s'.NearSink net') x := by
  classical
  have hstraddling : s.straddling (s.image (s'.NearSink net')) = f'.tasks.toFinset := by
    ext id
    rw [mem_straddling_image, List.mem_toFinset, hm'.mem_tasks, h.order.ids_eq]
  have hweigh : ∑ id ∈ s.straddling (s.image (s'.NearSink net')), s.weight id + amount =
      Word.total (s.graph.ids.map s.weight) := by
    rw [hstraddling, ← total_map_eq_sum (hf'.sorted.imp Nat.ne_of_lt), ← h.weight_eq,
      hf'.weight_eq, h.frontier_weight_eq hf hf', h.weight_eq]
    exact hm.weight_add
  exact (hm'.closed.image h).of_reached h.wellFormed hm.moves nodes_outer
    (not_nodes (by simp [source]) (source_ne_sink s).symm) hweigh hx

/-- Both sinks reach the same tasks. -/
theorem Compares.nearSink_iff (h : s.Compares s') (hf : s.IsHeaviest f) (hf' : s'.IsHeaviest f')
    (hm : s.IsMeasured f net amount) (hm' : s'.IsMeasured f' net' amount') {id : Nat}
    (hid : id ∈ s.graph.ids) :
    (s'.NearSink net' (entry id) ↔ s.NearSink net (entry id)) ∧
      (s'.NearSink net' (exit id) ↔ s.NearSink net (exit id)) := by
  have hid' : id ∈ s'.graph.ids := h.order.ids_eq.symm ▸ hid
  have hto : ∀ x, s.NearSink net x → s.image (s'.NearSink net') x :=
    fun x hx => h.image_of_nearSink hf hf' hm hm' hx
  have hfrom : ∀ x, s'.NearSink net' x → s'.image (s.NearSink net) x :=
    fun x hx => h.symm.image_of_nearSink hf' hf hm' hm hx
  constructor
  · constructor
    · intro hx
      exact (image_entry hid').1 (hfrom _ hx)
    · intro hx
      exact (image_entry hid).1 (hto _ hx)
  · constructor
    · intro hx
      exact (image_exit hid').1 (hfrom _ hx)
    · intro hx
      exact (image_exit hid).1 (hto _ hx)

/-- The measured frontiers consist of the same tasks. -/
theorem Compares.tasks_eq (h : s.Compares s') (hf : s.IsHeaviest f) (hf' : s'.IsHeaviest f')
    (hm : s.IsMeasured f net amount) (hm' : s'.IsMeasured f' net' amount') :
    f'.tasks = f.tasks := by
  apply hf'.sorted.eq_of_mem_iff hf.sorted
  intro id
  rw [hm.mem_tasks, hm'.mem_tasks, h.order.ids_eq]
  apply and_congr_right
  intro hid
  obtain ⟨hentry, hexit⟩ := h.nearSink_iff hf hf' hm hm' hid
  rw [hentry, hexit]

/-! ## Matching graphs -/

theorem compares_of_matches (hmatch : s.graph.Matches s'.graph) (hg : s.graph.WellFormed)
    (hg' : s'.graph.WellFormed) (hac : s.graph.Acyclic) (hweight : s'.weight = s.weight) :
    s.Compares s' :=
  ⟨hmatch.sameOrder, hg, hg', hac, hmatch.acyclic_iff.2 hac, hweight⟩

/-- The frontiers measured on matching graphs are alike. -/
theorem heaviest_congr (hmatch : s.graph.Matches s'.graph) (hg : s.graph.WellFormed)
    (hg' : s'.graph.WellFormed) (hac : s.graph.Acyclic) (hweight : s'.weight = s.weight)
    (htotal : Word.total (s.graph.ids.map s.weight) ≤ unbounded) :
    ∃ f f', s.heaviest = .ok f ∧ s'.heaviest = .ok f' ∧ s.IsHeaviest f ∧ s'.IsHeaviest f' ∧
      f.Alike f' := by
  have h := compares_of_matches hmatch hg hg' hac hweight
  obtain ⟨f, net, amount, hmeasure, hf, hm⟩ := exists_measured hg hac htotal
  obtain ⟨f', net', amount', hmeasure', hf', hm'⟩ :=
    exists_measured hg' h.acyclic' (h.total_eq.trans_le htotal)
  refine ⟨f, f', hmeasure, hmeasure', hf, hf', h.frontier_weight_eq hf hf',
    h.tasks_eq hf hf' hm hm', ?_⟩
  intro u v
  rw [hm.mem_crossing, hm'.mem_crossing, hmatch.joins_iff]
  apply and_congr_right
  intro huv
  have hu := (h.nearSink_iff hf hf' hm hm' (hg.joins_left huv)).2
  have hv := (h.nearSink_iff hf hf' hm hm' (hg.joins_right huv)).1
  rw [hu, hv]

end Serialiser

/-! ## Graphs with the same order -/

namespace TaskGraph

/-- The frontiers measured on graphs without cycles that have the same tasks and the same
order have the same weight and the same tasks. -/
theorem heaviest_of_sameOrder {g g' : TaskGraph} (hg : g.WellFormed) (hg' : g'.WellFormed)
    (hac : g.Acyclic) (hac' : g'.Acyclic) (horder : g.SameOrder g')
    (hbytes : Word.total (g.ids.map g.cmxBytes) ≤ FlowNetwork.unbounded) (budget budget' : Nat) :
    ∃ s f s' f', Serialiser.ofGraph g budget = .ok s ∧ s.heaviest = .ok f ∧
      Serialiser.ofGraph g' budget' = .ok s' ∧ s'.heaviest = .ok f' ∧
      f'.weight = f.weight ∧ f'.tasks = f.tasks := by
  have hbytes' : Word.total (g'.ids.map g'.cmxBytes) ≤ FlowNetwork.unbounded := by
    rwa [horder.ids_eq, horder.cmxBytes_eq]
  obtain ⟨s, hs, hprepares⟩ := Serialiser.ofGraph_spec hg hac (cmxBytes_lt_bound hbytes) budget
  obtain ⟨s', hs', hprepares'⟩ :=
    Serialiser.ofGraph_spec hg' hac' (cmxBytes_lt_bound hbytes') budget'
  obtain rfl := hprepares.graph_eq
  obtain rfl := hprepares'.graph_eq
  have hweight : s.weight = s.graph.cmxBytes := funext hprepares.weight_eq
  have hweight' : s'.weight = s'.graph.cmxBytes := funext hprepares'.weight_eq
  have h : s.Compares s' :=
    ⟨horder, hg, hg', hac, hac', by rw [hweight, hweight', horder.cmxBytes_eq]⟩
  obtain ⟨f, net, amount, hmeasure, hf, hm⟩ := Serialiser.exists_measured hg hac (hweight ▸ hbytes)
  obtain ⟨f', net', amount', hmeasure', hf', hm'⟩ :=
    Serialiser.exists_measured hg' hac' (hweight' ▸ hbytes')
  exact ⟨s, f, s', f', hs, hmeasure, hs', hmeasure', h.frontier_weight_eq hf hf',
    h.tasks_eq hf hf' hm hm'⟩

/-- Three tasks in a row that need the same, so that each alone is a heaviest frontier. -/
def row : TaskGraph where
  tasks := #[
    some { name := "a", kind := .dma, buffers := [⟨"a", 100, .cmx, none⟩] },
    some { name := "b", kind := .compute 2, buffers := [⟨"b", 100, .cmx, none⟩] },
    some { name := "c", kind := .dma, buffers := [⟨"c", 100, .cmx, none⟩] }]
  edges := [⟨1, 1, 2, .data⟩, ⟨0, 0, 1, .data⟩]
  slotCount := 2

/-- The same row with a direct edge from the first task to the last, and with two tasks
joined twice. -/
def rowDirect : TaskGraph :=
  { row with
    edges := [⟨3, 0, 1, .data⟩, ⟨2, 1, 2, .control⟩, ⟨1, 0, 2, .data⟩, ⟨0, 1, 2, .data⟩]
    slotCount := 4 }

theorem sameOrder_rowDirect : row.SameOrder rowDirect where
  task?_eq _ := rfl
  leads_iff u v := by
    have hfirst : row.Joins 0 1 := by decide
    have hlast : row.Joins 1 2 := by decide
    have hfirst' : rowDirect.Joins 0 1 := by decide
    have hlast' : rowDirect.Joins 1 2 := by decide
    constructor
    · apply Relation.reflTransGen_closed
      rintro a b ⟨e, he, rfl, rfl⟩
      simp only [rowDirect, List.mem_cons, List.not_mem_nil, or_false] at he
      rcases he with rfl | rfl | rfl | rfl
      · exact .single hfirst
      · exact .single hlast
      · -- the direct edge goes beside a path
        exact .tail (.single hfirst) hlast
      · exact .single hlast
    · apply Relation.reflTransGen_closed
      rintro a b ⟨e, he, rfl, rfl⟩
      simp only [row, List.mem_cons, List.not_mem_nil, or_false] at he
      rcases he with rfl | rfl
      · exact .single hlast'
      · exact .single hfirst'

/-- Of the three heaviest frontiers the same one is measured with and without the direct
edge. -/
theorem heaviest_of_sameOrder_row :
    row.SameOrder rowDirect ∧
      Word.total (row.ids.map row.cmxBytes) ≤ FlowNetwork.unbounded ∧
      ∃ s f s' f', Serialiser.ofGraph row 128 = .ok s ∧ s.heaviest = .ok f ∧
        Serialiser.ofGraph rowDirect 256 = .ok s' ∧ s'.heaviest = .ok f' ∧
        f'.weight = f.weight ∧ f'.tasks = f.tasks := by
  have hrow : row.WellFormed := by constructor <;> decide
  have hrowDirect : rowDirect.WellFormed := by constructor <;> decide
  have hbytes : Word.total (row.ids.map row.cmxBytes) ≤ FlowNetwork.unbounded := by decide
  refine ⟨sameOrder_rowDirect, hbytes, ?_⟩
  exact heaviest_of_sameOrder hrow hrowDirect (.of_forward (by decide)) (.of_forward (by decide))
    sameOrder_rowDirect hbytes 128 256

end TaskGraph

end TaskLoom
