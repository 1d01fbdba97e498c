import TaskLoom.Proofs.Frontier.Committed
import TaskLoom.Proofs.Frontier.Nearest

/-!
# Serialising matching graphs

Two serialisers over matching graphs go through the same rounds.  They measure frontiers of
the same tasks, order the same pair, and their working copies match again.  So bounding
the peak adds the same pairs to both graphs, or refuses both for the same reason.

## Main results

* `InStep.orderPair` — one round orders the same pair of both.
* `serialiseRounds_congr` — all rounds.
* `boundPeak_congr` — the pass over matching graphs.
-/

namespace TaskLoom

namespace TaskGraph

variable {g g' : TaskGraph}

theorem Matches.cmxBytes_eq (h : g.Matches g') : g'.cmxBytes = g.cmxBytes :=
  h.sameOrder.cmxBytes_eq

theorem Matches.total_eq (h : g.Matches g') :
    Word.total (g'.ids.map g'.cmxBytes) = Word.total (g.ids.map g.cmxBytes) := by
  rw [h.ids_eq, h.cmxBytes_eq]

/-- Control edges are counted, wherever they stand. -/
theorem Extends.controlCount_eq {pairs : List (Nat × Nat)} (h : g.Extends pairs g') :
    g'.controlCount = pairs.length + g.controlCount := by
  obtain ⟨added, hedges, hlength, hcontrol⟩ := h.gains.edges_eq
  rw [controlCount_append hedges fun e he => (hcontrol e he).1, hlength]

end TaskGraph

namespace Serialiser

open FlowNetwork (unbounded)

variable {s s' : Serialiser} {g g' : TaskGraph} {budget : Nat} {f f' : Frontier}

/-! ## One round -/

/-- Two serialisers that have ordered the same pairs of matching graphs. -/
structure InStep (s s' : Serialiser) (g g' : TaskGraph) (budget : Nat) : Prop where
  tracks : s.Tracks g budget
  tracks' : s'.Tracks g' budget
  graphs : s.graph.Matches s'.graph
  weight_eq : s'.weight = s.weight
  rank_eq : ∀ id ∈ s.graph.ids, s'.rank id = s.rank id
  pending_eq : s'.pending = s.pending

theorem InStep.budget_eq (h : InStep s s' g g' budget) : s'.budget = s.budget :=
  h.tracks'.serialises.budget_eq.trans h.tracks.serialises.budget_eq.symm

theorem InStep.heaviest (h : InStep s s' g g' budget)
    (hbytes : Word.total (g.ids.map g.cmxBytes) ≤ unbounded) (hmeasure : s.heaviest = .ok f) :
    ∃ f', s'.heaviest = .ok f' ∧ s.IsHeaviest f ∧ s'.IsHeaviest f' ∧ f.Alike f' := by
  have hserialises := h.tracks.serialises
  have htotal : Word.total (s.graph.ids.map s.weight) ≤ unbounded := by
    rwa [hserialises.weight_eq, hserialises.ids_eq]
  obtain ⟨f₁, f', hmeasure₁, hmeasure', hmeasured⟩ := heaviest_congr h.graphs
    hserialises.wellFormed h.tracks'.serialises.wellFormed hserialises.acyclic h.weight_eq htotal
  cases hmeasure.symm.trans hmeasure₁
  exact ⟨f', hmeasure', hmeasured⟩

theorem InStep.byWeight_eq (h : InStep s s' g g' budget) (halike : f.Alike f') :
    s'.byWeight f'.tasks = s.byWeight f.tasks := by
  rw [byWeight, byWeight, h.weight_eq, halike.tasks_eq]

theorem InStep.shortage_eq (h : InStep s s' g g' budget) (halike : f.Alike f') :
    s'.shortage f' = s.shortage f := by
  rw [Serialiser.shortage, Serialiser.shortage, h.byWeight_eq halike, h.graphs.name_eq, h.weight_eq,
    h.budget_eq, halike.weight_eq]

/-- The two heaviest tasks, the one that comes first in the order at the start in front. -/
theorem InStep.orderPair_eq (h : InStep s s' g g' budget) (hf : s.IsHeaviest f)
    (halike : f.Alike f') :
    (∃ fault, s.orderPair f = .error fault ∧ s'.orderPair f' = .error fault) ∨
    ∃ a b, s.orderPair f = .ok ((a, b), { s with
        graph := (s.graph.addEdge a b .control).2
        pending := s.pending ++ [(a, b)] }) ∧
      s'.orderPair f' = .ok ((a, b), { s' with
        graph := (s'.graph.addEdge a b .control).2
        pending := s'.pending ++ [(a, b)] }) := by
  have hmem : ∀ id ∈ s.byWeight f.tasks, id ∈ s.graph.ids := fun id hid =>
    hf.unordered.mem_ids id
      (List.mem_toFinset.2 (List.mem_filter.1 ((s.byWeight_perm _).mem_iff.1 hid)).1)
  unfold Serialiser.orderPair
  rw [h.byWeight_eq halike, h.shortage_eq halike]
  split
  · next first second rest heq =>
    rw [heq] at hmem
    have hfirst := hmem first (by simp)
    have hsecond := hmem second (by simp)
    rw [h.rank_eq first hfirst, h.rank_eq second hsecond]
    generalize hpair : (if s.rank first < s.rank second then (first, second)
      else (second, first)) = pair
    obtain ⟨a, b⟩ := pair
    have hb : b ∈ s.graph.ids := by
      split at hpair <;> cases hpair
      · exact hsecond
      · exact hfirst
    simp only [h.graphs.name_eq,
      h.graphs.hasPath_eq h.tracks.serialises.wellFormed h.tracks'.serialises.wellFormed hb]
    split
    · exact Or.inl ⟨_, rfl, rfl⟩
    · exact Or.inr ⟨a, b, rfl, rfl⟩
  · exact Or.inl ⟨_, rfl, rfl⟩

/-- One round orders the same pair of both working copies, or fails for the same reason. -/
theorem InStep.orderPair (h : InStep s s' g g' budget) (hf : s.IsHeaviest f)
    (hf' : s'.IsHeaviest f') (halike : f.Alike f') :
    (∃ fault, s.orderPair f = .error fault ∧ s'.orderPair f' = .error fault) ∨
    ∃ a b t t', s.orderPair f = .ok ((a, b), t) ∧ s'.orderPair f' = .ok ((a, b), t') ∧
      InStep t t' g g' budget := by
  rcases h.orderPair_eq hf halike with hfault | ⟨a, b, hpair, hpair'⟩
  · exact Or.inl hfault
  · refine Or.inr ⟨a, b, _, _, hpair, hpair', ?_⟩
    exact {
      tracks := (h.tracks.orderPair hf hpair).1
      tracks' := (h.tracks'.orderPair hf' hpair').1
      graphs := h.graphs.addEdge a b .control
      weight_eq := h.weight_eq
      rank_eq := fun id hid => h.rank_eq id (TaskGraph.ids_addEdge s.graph a b .control ▸ hid)
      pending_eq := congrArg (· ++ [(a, b)]) h.pending_eq }

/-! ## All rounds -/

/-- Both measure and order until the peak fits, and end alike. -/
theorem serialiseRounds_congr {s s' : Serialiser}
    (hbytes : Word.total (g.ids.map g.cmxBytes) ≤ unbounded) (h : InStep s s' g g' budget)
    (observed : Bool) (rounds : Nat) (events events' : List FrontierEvent) :
    Outcome.Agree (fun _ state _ state' => InStep state.1 state'.1 g g' budget)
      (serialiseRounds observed rounds s events) (serialiseRounds observed rounds s' events') := by
  obtain ⟨f, hmeasure, -⟩ := h.tracks.serialises.heaviest hbytes
  obtain ⟨f', hmeasure', hf, hf', halike⟩ := h.heaviest hbytes hmeasure
  rw [serialiseRounds, serialiseRounds, hmeasure, hmeasure']
  simp only [halike.weight_eq, h.budget_eq]
  by_cases hfits : f.weight ≤ s.budget
  · simp only [if_pos hfits]
    exact .done h
  simp only [if_neg hfits]
  cases observedPercent observed f.weight s.budget with
  | error fault => exact .failed fault _ _
  | ok _ =>
    match rounds with
    | 0 =>
      simp only [h.shortage_eq halike]
      exact .failed _ _ _
    | rounds + 1 =>
      rcases h.orderPair hf hf' halike with
        ⟨fault, hfault, hfault'⟩ | ⟨a, b, t, t', hpair, hpair', hnext⟩
      · simp only [hfault, hfault']
        exact .failed fault _ _
      · simp only [hpair, hpair']
        exact serialiseRounds_congr hbytes hnext observed rounds _ _

theorem serialise_congr (hbytes : Word.total (g.ids.map g.cmxBytes) ≤ unbounded)
    (h : InStep s s' g g' budget) (observed : Bool) :
    Outcome.Agree (fun _ state _ state' => InStep state.1 state'.1 g g' budget)
      (s.serialise observed) (s'.serialise observed) := by
  have hagree := serialiseRounds_congr hbytes h observed (s.graph.size * s.graph.size) [] []
  unfold serialise
  rw [h.graphs.size_eq]
  generalize serialiseRounds observed (s.graph.size * s.graph.size) s [] = o,
    serialiseRounds observed (s.graph.size * s.graph.size) s' [] = o' at hagree ⊢
  cases hagree with
  | failed fault state state' => exact .failed fault _ _
  | done h => exact .done h

/-! ## Starting -/

/-- The rank of a task is its place in the order at the start. -/
theorem rank_ofGraph (hg : g.WellFormed) (hac : g.Acyclic) (h : ofGraph g budget = .ok s) :
    ∃ order, g.topologicalOrder = .ok order ∧ ∀ id ∈ g.ids, s.rank id = order.idxOf id := by
  obtain ⟨order, horder, hisOrder⟩ := hg.topologicalOrder_ok hac
  refine ⟨order, horder, fun id hid => ?_⟩
  unfold ofGraph at h
  simp only [horder, bind, Except.bind, pure, Except.pure] at h
  split at h
  · cases h
  · cases h
    exact getD_positions hisOrder.nodup (TaskGraph.lt_size_of_mem_ids hid)
      (hisOrder.perm.mem_iff.2 hid)

theorem ofGraph_congr (hmatch : g.Matches g') (hg : g.WellFormed) (hg' : g'.WellFormed)
    (hac : g.Acyclic) (hbytes : Word.total (g.ids.map g.cmxBytes) ≤ unbounded) (budget : Nat) :
    ∃ s s', ofGraph g budget = .ok s ∧ ofGraph g' budget = .ok s' ∧ s.Prepares g budget ∧
      s'.Prepares g' budget ∧ InStep s s' g g' budget := by
  have hac' := hmatch.acyclic_iff.2 hac
  obtain ⟨s, hs, hprepares⟩ := ofGraph_spec hg hac (cmxBytes_lt_bound hbytes) budget
  obtain ⟨s', hs', hprepares'⟩ := ofGraph_spec hg' hac'
    (cmxBytes_lt_bound (hmatch.total_eq.trans_le hbytes)) budget
  refine ⟨s, s', hs, hs', hprepares, hprepares', ?_⟩
  obtain ⟨order, horder, hrank⟩ := rank_ofGraph hg hac hs
  obtain ⟨order', horder', hrank'⟩ := rank_ofGraph hg' hac' hs'
  cases horder'.symm.trans (hmatch.topologicalOrder_eq.trans horder)
  exact {
    tracks := hprepares.tracks hg
    tracks' := hprepares'.tracks hg'
    graphs := by rwa [hprepares.graph_eq, hprepares'.graph_eq]
    weight_eq := by
      rw [funext hprepares.weight_eq, funext hprepares'.weight_eq, hmatch.cmxBytes_eq]
    rank_eq := fun id hid => by
      rw [hprepares.graph_eq] at hid
      rw [hrank id hid, hrank' id (hmatch.ids_eq.symm ▸ hid)]
    pending_eq := hprepares'.pending_eq.trans hprepares.pending_eq.symm }

end Serialiser

/-! ## The pass over matching graphs -/

open Serialiser

variable {g g' : TaskGraph} {budget : Nat}

/-- What bounding the peak of two graphs leaves is the same: the graphs match again, without
a cycle, and have gained as many control edges, and the peaks are alike. -/
structure SamePeak (g g' : TaskGraph) (cut : Frontier) (h : TaskGraph) (cut' : Frontier)
    (h' : TaskGraph) : Prop where
  graphs : h.Matches h'
  acyclic : h.Acyclic
  inserted_eq : h'.controlCount - g'.controlCount = h.controlCount - g.controlCount
  peaks : cut.Alike cut'

/-- The peaks of matching graphs that were committed. -/
theorem Serialiser.InStep.samePeak {s s' : Serialiser} {cut cut' : Frontier}
    (hbytes : Word.total (g.ids.map g.cmxBytes) ≤ FlowNetwork.unbounded)
    (h : InStep s s' g g' budget) (hcommits : Commits g s.graph budget cut)
    (hcommits' : Commits g' s'.graph budget cut') :
    SamePeak g g' cut s.graph cut' s'.graph := by
  have hserialises := h.tracks.serialises
  have hbytes' : Word.total (s.graph.ids.map s.graph.cmxBytes) ≤ FlowNetwork.unbounded := by
    rwa [TaskGraph.cmxBytes_congr hserialises.tasks_eq, hserialises.ids_eq]
  obtain ⟨t, t', ht, ht', -, -, hstep⟩ := ofGraph_congr h.graphs hserialises.wellFormed
    h.tracks'.serialises.wellFormed hcommits.acyclic hbytes' budget
  obtain ⟨t₁, ht₁, hmeasure⟩ := hcommits.measured
  obtain ⟨t₁', ht₁', hmeasure'⟩ := hcommits'.measured
  cases ht.symm.trans ht₁
  cases ht'.symm.trans ht₁'
  obtain ⟨cut₁, hcut₁, -, -, halike⟩ := hstep.heaviest hbytes' hmeasure
  cases hmeasure'.symm.trans hcut₁
  refine ⟨h.graphs, hcommits.acyclic, ?_, halike⟩
  rw [h.tracks.pairs.controlCount_eq, h.tracks'.pairs.controlCount_eq, h.pending_eq]
  omega

/-- Bounding the peak of matching graphs is refused for the same reason, or leaves the same
peak. -/
theorem boundPeak_congr (hmatch : g.Matches g') (hg : g.WellFormed) (hg' : g'.WellFormed)
    (hbytes : Word.total (g.ids.map g.cmxBytes) ≤ FlowNetwork.unbounded) (observed : Bool)
    (budget : Nat) :
    Outcome.Agree (fun cut state cut' state' => SamePeak g g' cut state.1 cut' state'.1)
      (boundPeak observed budget g) (boundPeak observed budget g') := by
  have hbytes' := hmatch.total_eq.trans_le hbytes
  by_cases hac : g.Acyclic
  · obtain ⟨s, s', hs, hs', hprepares, hprepares', hstep⟩ :=
      ofGraph_congr hmatch hg hg' hac hbytes budget
    obtain ⟨f, hmeasure, -⟩ := hstep.tracks.serialises.heaviest hbytes
    obtain ⟨f', hmeasure', -, -, halike⟩ := hstep.heaviest hbytes hmeasure
    have hagree := serialise_congr hbytes hstep observed
    unfold boundPeak
    simp only [hs, hs', hmeasure, hmeasure', halike.weight_eq]
    cases observedPercent observed f.weight budget with
    | error fault => exact .failed fault _ _
    | ok _ =>
      generalize hrun : s.serialise observed = o, hrun' : s'.serialise observed = o' at hagree
      cases hagree with
      | failed fault state state' => exact .failed fault _ _
      | @done f₁ state f₁' state' hend =>
        obtain ⟨t, more⟩ := state
        obtain ⟨t', more'⟩ := state'
        obtain ⟨hcommit, cut, _, hconfirm, hcommits⟩ := commit_confirms hg hbytes hprepares hrun
          ([.measured f, .required f.weight budget] ++ more)
        obtain ⟨hcommit', cut', _, hconfirm', hcommits'⟩ := commit_confirms hg' hbytes' hprepares'
          hrun' ([.measured f', .required f.weight budget] ++ more')
        simp only [hcommit, hcommit', hconfirm, hconfirm']
        exact .done (hend.samePeak hbytes hcommits hcommits')
  · -- both are left with the same task to report
    obtain ⟨name, hcyclic⟩ := hg.topologicalOrder_cyclic hac
    have hcyclic' := hmatch.topologicalOrder_eq.trans hcyclic
    unfold boundPeak
    rw [ofGraph_of_error hcyclic (cmxBytes_lt_bound hbytes),
      ofGraph_of_error hcyclic' (cmxBytes_lt_bound hbytes')]
    exact .failed _ _ _

end TaskLoom
