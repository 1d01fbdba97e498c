import TaskLoom.Proofs.Frontier.Budget

/-!
# The working copy and the graph

A serialiser orders pairs on a working copy and notes them.  Committing adds the noted
pairs to the graph itself.  The two stay in step: every pair comes from a frontier, so
no path joined its tasks until then, and on the graph each of them is a new edge again.
The committed graph is therefore the working copy, edge by edge and slot by slot, and
measuring it once more finds what the last round has found.

So the pass either leaves a graph alone or succeeds.  It cannot fail after it has
changed the graph.

## Main results

* `Extends.addControlEdges` — pairs that no path joined are all added.
* `serialiseRounds_done` — the working copy is the graph with the noted pairs.
* `Tracks.commit_eq` — committing turns the graph into the working copy.
* `boundPeak_commits` — the pass commits a peak that fits, or changes nothing.
-/

namespace TaskLoom

namespace TaskGraph

variable {g g' : TaskGraph} {a b : Nat} {pairs : List (Nat × Nat)}

/-! ## Ordering pairs one after the other -/

/-- Control edges were added for some pairs of tasks, one after the other, each between
two tasks that no path joined in either direction until then. -/
inductive Extends : TaskGraph → List (Nat × Nat) → TaskGraph → Prop where
  | nil (g : TaskGraph) : Extends g [] g
  | cons {g g' : TaskGraph} {a b : Nat} {pairs : List (Nat × Nat)}
      (source_mem : a ∈ g.ids) (target_mem : b ∈ g.ids)
      (not_leads : ¬ g.Leads a b) (not_leads_back : ¬ g.Leads b a)
      (rest : Extends (g.addEdge a b .control).2 pairs g') : Extends g ((a, b) :: pairs) g'

/-- One more pair at the end. -/
theorem Extends.concat (h : g.Extends pairs g') (ha : a ∈ g'.ids) (hb : b ∈ g'.ids)
    (hab : ¬ g'.Leads a b) (hba : ¬ g'.Leads b a) :
    g.Extends (pairs ++ [(a, b)]) (g'.addEdge a b .control).2 := by
  induction h with
  | nil g => exact .cons ha hb hab hba (.nil _)
  | cons hsource htarget hnot hback _ ih =>
    exact .cons hsource htarget hnot hback (ih ha hb hab hba)

theorem Extends.gains (h : g.Extends pairs g') : g.Gains g' pairs pairs.length := by
  induction h with
  | nil g => exact .nil g
  | cons _ _ _ _ _ ih => exact ih.cons_new

/-- A guarded insertion takes every pair: none is joined, and none closes a cycle. -/
theorem Extends.addControlEdges (h : g.Extends pairs g') (hg : g.WellFormed) :
    g.addControlEdges pairs = .done pairs.length g' := by
  induction h with
  | nil g => rfl
  | cons hsource htarget hnot hback _ ih =>
    have hjoin := fun hjoins => hnot (Relation.ReflTransGen.single hjoins)
    simp [TaskGraph.addControlEdges, hg.linked.addControlEdge_new htarget hjoin hback,
      ih (hg.addEdge hsource htarget .control)]

end TaskGraph

namespace Serialiser

variable {s s' : Serialiser} {g : TaskGraph} {budget : Nat} {f : Frontier} {observed : Bool}

/-! ## The working copy -/

/-- What the rounds keep: the working copy is the graph with the noted pairs. -/
structure Tracks (s : Serialiser) (g : TaskGraph) (budget : Nat) : Prop where
  serialises : s.Serialises g budget
  pairs : g.Extends s.pending s.graph

theorem Prepares.tracks (h : s.Prepares g budget) (hg : g.WellFormed) : s.Tracks g budget := by
  refine ⟨h.serialises hg, ?_⟩
  rw [h.pending_eq, h.graph_eq]
  exact .nil g

/-- Whatever is measured on the working copy is a heaviest frontier. -/
theorem Serialises.isHeaviest (h : s.Serialises g budget)
    (hbytes : Word.total (g.ids.map g.cmxBytes) ≤ FlowNetwork.unbounded)
    (hmeasure : s.heaviest = .ok f) : s.IsHeaviest f := by
  obtain ⟨f', hmeasure', hf'⟩ := h.heaviest hbytes
  cases hmeasure.symm.trans hmeasure'
  exact hf'

/-- Ordering a pair of a heaviest frontier notes a pair that no path joined. -/
theorem Tracks.orderPair (h : s.Tracks g budget) (hf : s.IsHeaviest f) {a b : Nat}
    (hpair : s.orderPair f = .ok ((a, b), s')) :
    s'.Tracks g budget ∧ s'.pending = s.pending ++ [(a, b)] := by
  have hids : ∀ id ∈ f.tasks, id ∈ g.ids := fun id hid =>
    h.serialises.ids_eq ▸ hf.unordered.mem_ids id (List.mem_toFinset.2 hid)
  rcases h.serialises.orderPair (hf.sorted.imp Nat.ne_of_lt) hids with
    ⟨a', ha, b', hb, hlt, hpair'⟩ | ⟨hshort, -⟩
  · cases hpair.symm.trans hpair'
    have ha' := List.mem_toFinset.2 ha
    have hb' := List.mem_toFinset.2 hb
    have hne : a ≠ b := by
      rintro rfl
      exact Nat.lt_irrefl _ hlt
    refine ⟨⟨h.serialises.add (hids a ha) (hids b hb) hlt, ?_⟩, rfl⟩
    exact h.pairs.concat (hf.unordered.mem_ids a ha') (hf.unordered.mem_ids b hb')
      (hf.unordered.antichain ha' hb' hne) (hf.unordered.antichain hb' ha' hne.symm)
  · cases hpair.symm.trans hshort

/-- If the rounds end with a frontier, it is a heaviest one of a working copy that is the
graph with the noted pairs. -/
theorem serialiseRounds_done (hbytes : Word.total (g.ids.map g.cmxBytes) ≤ FlowNetwork.unbounded)
    {rounds : Nat} {events events' : List FrontierEvent} (h : s.Tracks g budget)
    (hdone : serialiseRounds observed rounds s events = .done f (s', events')) :
    s'.Tracks g budget ∧ s'.IsHeaviest f ∧ f.weight ≤ budget := by
  fun_induction serialiseRounds observed rounds s events with
  | case1 => cases hdone
  | case2 rounds s events f₀ hmeasure _ hfits =>
    simp only [Outcome.done.injEq, Prod.mk.injEq] at hdone
    obtain ⟨rfl, rfl, -⟩ := hdone
    exact ⟨h, h.serialises.isHeaviest hbytes hmeasure, h.serialises.budget_eq ▸ hfits⟩
  | case3 => cases hdone
  | case4 => cases hdone
  | case5 => cases hdone
  | case6 s events f₀ hmeasure _ _ _ _ rounds a b s₁ hpair ih =>
    exact ih (h.orderPair (h.serialises.isHeaviest hbytes hmeasure) hpair).1 hdone

theorem serialise_done (hbytes : Word.total (g.ids.map g.cmxBytes) ≤ FlowNetwork.unbounded)
    {more : List FrontierEvent} (h : s.Tracks g budget)
    (hdone : s.serialise observed = .done f (s', more)) :
    s'.Tracks g budget ∧ s'.IsHeaviest f ∧ f.weight ≤ budget := by
  unfold serialise at hdone
  split at hdone
  · next f₁ s₁ events hrounds =>
    cases hdone
    exact serialiseRounds_done hbytes h hrounds
  · cases hdone

/-- Committing adds every noted pair, which makes the graph the working copy. -/
theorem Tracks.commit_eq (h : s.Tracks g budget) (hg : g.WellFormed) :
    s.commit g = .done s.pending.length ({ s with pending := [] }, s.graph) := by
  rw [Serialiser.commit, h.pairs.addControlEdges hg]

/-- A heaviest frontier weighs what the heaviest unordered tasks need. -/
theorem Serialises.isGreatest (h : s.Serialises s.graph budget) (hf : s.IsHeaviest f) :
    IsGreatest s.graph.unorderedPeaks f.weight := by
  refine ⟨h.weight_mem hf, ?_⟩
  rintro peak ⟨tasks, htasks, rfl⟩
  rw [← h.weight_eq]
  exact hf.greatest tasks htasks

end Serialiser

/-! ## The pass over a graph -/

open Serialiser

variable {g g' : TaskGraph} {observed : Bool} {budget : Nat} {cut : Frontier}

/-- What the pass leaves of a graph when it succeeds: only control edges are new, each
between two tasks that were unordered when it was added, and the peak that it tells is
that of the graph as it is now. -/
structure Commits (g g' : TaskGraph) (budget : Nat) (cut : Frontier) : Prop where
  acyclic : g'.Acyclic
  tasks_eq : g'.tasks = g.tasks
  edges_eq : ∃ added, g'.edges = added ++ g.edges ∧ ∀ e ∈ added, e.kind = .control
  unordered : ∃ pairs, g.Extends pairs g'
  measured : ∃ s, ofGraph g' budget = .ok s ∧ s.heaviest = .ok cut
  tasks_unordered : g'.Unordered cut.tasks.toFinset
  weight_eq : Word.total (cut.tasks.map g'.cmxBytes) = cut.weight
  greatest : IsGreatest g'.unorderedPeaks cut.weight
  fits : cut.weight ≤ budget

/-- Measuring a committed graph again finds a peak that fits. -/
theorem confirmPeak_done {s : Serialiser} {f : Frontier}
    (hbytes : Word.total (g.ids.map g.cmxBytes) ≤ FlowNetwork.unbounded)
    (h : s.Tracks g budget) (hf : s.IsHeaviest f) (hfits : f.weight ≤ budget)
    (inserted : Nat) (events : List FrontierEvent) :
    ∃ cut events', confirmPeak budget inserted s.graph events = .done cut (s.graph, events') ∧
      Commits g s.graph budget cut := by
  have hwf := h.serialises.wellFormed
  have hac := h.serialises.acyclic
  have htasks := h.serialises.tasks_eq
  obtain ⟨s', cut, events', hconfirm, hs', hmeasure, hle⟩ :=
    confirmPeak_spec hbytes h.serialises hf hfits h.pairs.gains hwf hac inserted events
  have hbytes' : Word.total (s.graph.ids.map s.graph.cmxBytes) ≤ FlowNetwork.unbounded := by
    rwa [TaskGraph.cmxBytes_congr htasks, h.serialises.ids_eq]
  obtain ⟨s₁, hs₁, hprepares⟩ := ofGraph_spec hwf hac (cmxBytes_lt_bound hbytes') budget
  cases hs'.symm.trans hs₁
  have hserialises := hprepares.serialises hwf
  have hcut := hserialises.isHeaviest hbytes' hmeasure
  obtain ⟨added, hedges, -, hcontrol⟩ := h.pairs.gains.edges_eq
  have hgraph := hprepares.graph_eq
  refine ⟨cut, events', hconfirm, hac, htasks, ⟨added, hedges, fun e he => (hcontrol e he).1⟩,
    ⟨_, h.pairs⟩, ⟨s', hs', hmeasure⟩, hgraph ▸ hcut.unordered, ?_, ?_, hle⟩
  · rw [← hcut.weight_eq, hserialises.weight_eq]
  · rw [← hgraph] at hserialises ⊢
    exact hserialises.isGreatest hcut

/-- Once the rounds have ended with a frontier, nothing can fail any more: the noted pairs
make the graph the working copy, and its peak fits. -/
theorem commit_confirms (hg : g.WellFormed)
    (hbytes : Word.total (g.ids.map g.cmxBytes) ≤ FlowNetwork.unbounded) {s s' : Serialiser}
    {f : Frontier} {more : List FrontierEvent} (hs : s.Prepares g budget)
    (hdone : s.serialise observed = .done f (s', more)) (events : List FrontierEvent) :
    s'.commit g = .done s'.pending.length ({ s' with pending := [] }, s'.graph) ∧
      ∃ cut events', confirmPeak budget s'.pending.length s'.graph events =
        .done cut (s'.graph, events') ∧ Commits g s'.graph budget cut := by
  obtain ⟨hs', hf, hfits⟩ := serialise_done hbytes (hs.tracks hg) hdone
  exact ⟨hs'.commit_eq hg, confirmPeak_done hbytes hs' hf hfits _ events⟩

/-- The pass changes nothing, or it succeeds. -/
theorem boundPeak_cases (hg : g.WellFormed)
    (hbytes : Word.total (g.ids.map g.cmxBytes) ≤ FlowNetwork.unbounded) (observed : Bool)
    (budget : Nat) :
    (∃ fault events, boundPeak observed budget g = .failed fault (g, events)) ∨
    ∃ cut g' events, boundPeak observed budget g = .done cut (g', events) ∧
      Commits g g' budget cut := by
  by_cases hac : g.Acyclic
  · obtain ⟨s, hs, hprepares⟩ := ofGraph_spec hg hac (cmxBytes_lt_bound hbytes) budget
    obtain ⟨initial, hmeasure, -⟩ := (hprepares.serialises hg).heaviest hbytes
    unfold boundPeak
    simp only [hs, hmeasure]
    cases observedPercent observed initial.weight budget with
    | error fault => exact Or.inl ⟨_, _, rfl⟩
    | ok _ =>
      cases hserialise : s.serialise observed with
      | failed fault state => exact Or.inl ⟨_, _, rfl⟩
      | done f state =>
        obtain ⟨s', more⟩ := state
        obtain ⟨hcommit, cut, events, hconfirm, hcommits⟩ :=
          commit_confirms hg hbytes hprepares hserialise
            ([.measured initial, .required initial.weight budget] ++ more)
        refine Or.inr ⟨cut, s'.graph, events, ?_, hcommits⟩
        simp only [hcommit, hconfirm]
  · obtain ⟨name, hcyclic⟩ := boundPeak_cyclic hg hac hbytes budget
    exact Or.inl ⟨_, _, hcyclic⟩

/-- What the pass leaves when it succeeds. -/
theorem commits_of_boundPeak (hg : g.WellFormed)
    (hbytes : Word.total (g.ids.map g.cmxBytes) ≤ FlowNetwork.unbounded)
    {events : List FrontierEvent} (hdone : boundPeak observed budget g = .done cut (g', events)) :
    Commits g g' budget cut := by
  rcases boundPeak_cases hg hbytes observed budget with
    ⟨fault, events', hfailed⟩ | ⟨cut', g'', events', hdone', hcommits⟩
  · cases hdone.symm.trans hfailed
  · cases hdone.symm.trans hdone'
    exact hcommits

/-- No task of a committed graph exceeds the budget. -/
theorem Commits.cmxBytes_le (h : Commits g g' budget cut) {id : Nat} (hid : id ∈ g.ids) :
    g.cmxBytes id ≤ budget := by
  have hmem : g'.cmxBytes id ∈ g'.unorderedPeaks := by
    refine ⟨{id}, unordered_singleton (TaskGraph.ids_congr h.tasks_eq ▸ hid), ?_⟩
    rw [Finset.sum_singleton]
  rw [TaskGraph.cmxBytes_congr h.tasks_eq] at hmem
  exact Nat.le_trans (h.greatest.2 hmem) h.fits

/-- When the pass succeeds. -/
theorem exists_boundPeak_iff (hg : g.WellFormed)
    (hbytes : Word.total (g.ids.map g.cmxBytes) ≤ FlowNetwork.unbounded) (observed : Bool)
    (budget : Nat) :
    (∃ cut state, boundPeak observed budget g = .done cut state) ↔
      g.Acyclic ∧ (∀ id ∈ g.ids, g.cmxBytes id ≤ budget) ∧
        (observed = true → ∀ peak ∈ g.unorderedPeaks, peak * 100 < Word.bound) := by
  constructor
  · rintro ⟨cut, state, hdone⟩
    have hac : g.Acyclic := by
      by_contra hcyclic
      obtain ⟨name, hfailed⟩ : ∃ name, boundPeak observed budget g = _ :=
        boundPeak_cyclic hg hcyclic hbytes budget
      cases hfailed.symm.trans hdone
    refine ⟨hac, ?_, ?_⟩
    · rcases boundPeak_cases hg hbytes observed budget with
        ⟨fault, events, hfailed⟩ | ⟨cut, g', events, -, hcommits⟩
      · cases hfailed.symm.trans hdone
      · exact fun id hid => hcommits.cmxBytes_le hid
    · rintro rfl peak hpeak
      by_contra hlarge
      obtain ⟨events, hfailed⟩ := boundPeak_overflow hg hac hbytes hpeak (by omega) budget
      cases hfailed.symm.trans hdone
  · rintro ⟨hac, hall, hshare⟩
    rcases boundPeak_spec hg hac hbytes hshare budget with
      ⟨cut, g', events, _, _, hdone, -⟩ | ⟨task, events, hoversized, -⟩
    · exact ⟨_, _, hdone⟩
    · exact absurd (hall task hoversized.mem_ids) (Nat.not_le.2 hoversized.budget_lt)

/-- The pass over a graph leaves it exactly as it was if it fails, whatever the reason.
If it succeeds, it has committed a peak that fits: the committed graph is the working copy
of the last round, so the peak that is measured on it at the end never exceeds the
budget.  It succeeds on the acyclic graphs all tasks of which fit alone, unless someone is
told of a peak that cannot be given in percent. -/
theorem boundPeak_commits (hg : g.WellFormed)
    (hbytes : Word.total (g.ids.map g.cmxBytes) ≤ FlowNetwork.unbounded) (observed : Bool)
    (budget : Nat) :
    (∀ fault g' events, boundPeak observed budget g = .failed fault (g', events) → g' = g) ∧
    (∀ cut g' events, boundPeak observed budget g = .done cut (g', events) →
      Commits g g' budget cut) ∧
    (∀ s f s' more, ofGraph g budget = .ok s → s.serialise observed = .done f (s', more) →
      (∃ inserted s'', s'.commit g = .done inserted (s'', s'.graph)) ∧
      ∃ s'' cut, ofGraph s'.graph budget = .ok s'' ∧ s''.heaviest = .ok cut ∧
        ¬ budget < cut.weight) ∧
    ((∃ cut state, boundPeak observed budget g = .done cut state) ↔
      g.Acyclic ∧ (∀ id ∈ g.ids, g.cmxBytes id ≤ budget) ∧
        (observed = true → ∀ peak ∈ g.unorderedPeaks, peak * 100 < Word.bound)) := by
  refine ⟨?_, ?_, ?_, exists_boundPeak_iff hg hbytes observed budget⟩
  · intro fault g' events hfailed
    rcases boundPeak_cases hg hbytes observed budget with
      ⟨fault', events', hfailed'⟩ | ⟨cut, g'', events', hdone, -⟩
    · cases hfailed.symm.trans hfailed'
      rfl
    · cases hfailed.symm.trans hdone
  · intro cut g' events hdone
    exact commits_of_boundPeak hg hbytes hdone
  · intro s f s' more hs hdone
    have hac : g.Acyclic := by
      by_contra hcyclic
      obtain ⟨name, hfailed⟩ := hg.topologicalOrder_cyclic hcyclic
      cases hs.symm.trans (ofGraph_of_error hfailed (cmxBytes_lt_bound hbytes) budget)
    obtain ⟨s₁, hs₁, hprepares⟩ := ofGraph_spec hg hac (cmxBytes_lt_bound hbytes) budget
    cases hs.symm.trans hs₁
    obtain ⟨hcommit, cut, -, -, hcommits⟩ := commit_confirms hg hbytes hprepares hdone []
    obtain ⟨s'', hs'', hmeasure⟩ := hcommits.measured
    exact ⟨⟨_, _, hcommit⟩, s'', cut, hs'', hmeasure, Nat.not_lt.2 hcommits.fits⟩

/-- Two unordered tasks that fit the budget one at a time are put in order. -/
theorem boundPeak_commits_heavyPair :
    heavyPair.WellFormed ∧
      Word.total (heavyPair.ids.map heavyPair.cmxBytes) ≤ FlowNetwork.unbounded ∧
      ∃ cut g' events, boundPeak false (2 ^ 57) heavyPair = .done cut (g', events) ∧
        Commits heavyPair g' (2 ^ 57) cut := by
  have hwf : heavyPair.WellFormed := by constructor <;> decide
  have hbytes : Word.total (heavyPair.ids.map heavyPair.cmxBytes) ≤ FlowNetwork.unbounded := by
    decide
  obtain ⟨-, hcommits, -, hdone⟩ := boundPeak_commits hwf hbytes false (2 ^ 57)
  obtain ⟨cut, ⟨g', events⟩, hcut⟩ := hdone.2
    ⟨TaskGraph.Acyclic.of_forward (by decide), by decide, by rintro ⟨⟩⟩
  exact ⟨hwf, hbytes, cut, g', events, hcut, hcommits cut g' events hcut⟩

end TaskLoom
