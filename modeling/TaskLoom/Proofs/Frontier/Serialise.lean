import Mathlib.Data.Finset.Prod
import TaskLoom.Frontier.Serialise
import TaskLoom.Proofs.Frontier.Heaviest

/-!
# Bounding the peak

A serialiser only adds edges that run forward in the order that it started with, so
its working copy stays acyclic and its edges can all be committed.  Every round
orders two tasks that were unordered, so the rounds come to an end: the peak fits, or
one task alone is too heavy.  The committed graph orders the same tasks as the
working copy, so measuring it again confirms the peak.

## Main results

* `Serialises.orderPair` — one round keeps the working copy in step with the graph.
* `serialiseRounds_spec` — the rounds end with a peak that fits, or at a task that
  is too heavy alone.
* `boundPeak_spec` — the same of the pass over a graph, which only gains control
  edges.
* `boundPeak_overflow`, `boundPeak_cyclic` — the other ways in which the pass ends.
-/

namespace TaskLoom

open Finset

/-! ## Graphs that order more -/

namespace TaskGraph

variable {g g' : TaskGraph}

/-- More edges leave fewer tasks unordered. -/
theorem Unordered.of_joins {tasks : Finset Nat} (h : g'.Unordered tasks) (hids : g'.ids = g.ids)
    (hjoins : ∀ u v, g.Joins u v → g'.Joins u v) : g.Unordered tasks where
  mem_ids id hid := hids ▸ h.mem_ids id hid
  antichain _ ha _ hb hne hab := h.antichain ha hb hne (hab.lift id hjoins)

theorem cmxBytes_congr (h : g'.tasks = g.tasks) : g'.cmxBytes = g.cmxBytes := by
  funext id
  unfold cmxBytes
  rw [task_congr h]

open Classical in
/-- The pairs of tasks the first of which comes before the second. -/
noncomputable def orderedPairs (g : TaskGraph) : Finset (Nat × Nat) :=
  (g.ids.toFinset ×ˢ g.ids.toFinset).filter fun p => g.Before p.1 p.2

theorem mem_orderedPairs {u v : Nat} :
    (u, v) ∈ g.orderedPairs ↔ u ∈ g.ids ∧ v ∈ g.ids ∧ g.Before u v := by
  simp [orderedPairs, and_assoc]

/-- An edge between tasks that were not ordered puts one more pair in order. -/
theorem card_orderedPairs_lt {a b : Nat} (ha : a ∈ g.ids) (hb : b ∈ g.ids)
    (hnot : ¬ g.Before a b) (kind : Dependency) :
    g.orderedPairs.card < (g.addEdge a b kind).2.orderedPairs.card := by
  refine card_lt_card (ssubset_iff_of_subset ?_ |>.2 ⟨(a, b), ?_, ?_⟩)
  · rintro ⟨u, v⟩ huv
    obtain ⟨hu, hv, hbefore⟩ := mem_orderedPairs.1 huv
    refine mem_orderedPairs.2 ⟨by simpa using hu, by simpa using hv, ?_⟩
    exact hbefore.lift id fun _ _ hjoin => joins_addEdge.2 (Or.inr hjoin)
  · refine mem_orderedPairs.2 ⟨by simpa using ha, by simpa using hb, ?_⟩
    exact .single (joins_addEdge.2 (Or.inl ⟨rfl, rfl⟩))
  · exact fun hmem => hnot (mem_orderedPairs.1 hmem).2.2

/-- In an acyclic graph with tasks not every pair is in order. -/
theorem Acyclic.card_orderedPairs_lt (hac : g.Acyclic) (hne : g.ids ≠ []) :
    g.orderedPairs.card < g.size * g.size := by
  classical
  obtain ⟨v, hv⟩ := List.exists_mem_of_ne_nil _ hne
  have hcard : (g.ids.toFinset ×ˢ g.ids.toFinset).card = g.size * g.size := by
    rw [card_product, List.toFinset_card_of_nodup g.nodup_ids]
    rfl
  rw [← hcard]
  refine card_lt_card (ssubset_iff_of_subset (filter_subset _ _) |>.2 ⟨(v, v), ?_, ?_⟩)
  · simp [hv]
  · exact fun hmem => hac v (mem_orderedPairs.1 hmem).2.2

end TaskGraph

/-! ## The share of the budget -/

theorem observedPercent_ok {observed : Bool} {weight : Nat} (budget : Nat)
    (h : observed = true → weight * 100 < Word.bound) :
    observedPercent observed weight budget = .ok () := by
  unfold observedPercent percentOf Word.mul Word.fit
  cases observed with
  | false => rfl
  | true =>
    rw [if_pos rfl, if_pos (h rfl)]
    rfl

theorem observedPercent_overflow {weight : Nat} (budget : Nat) (h : Word.bound ≤ weight * 100) :
    observedPercent true weight budget = .error .overflow := by
  unfold observedPercent percentOf Word.mul Word.fit
  rw [if_pos rfl, if_neg (by omega)]
  rfl

namespace Serialiser

variable {s : Serialiser} {g : TaskGraph} {budget : Nat} {f : Frontier}

/-! ## One round -/

/-- The working copy is the graph with the pending edges, which run forward in the
order at the start. -/
structure Serialises (s : Serialiser) (g : TaskGraph) (budget : Nat) : Prop where
  wellFormed : s.graph.WellFormed
  tasks_eq : s.graph.tasks = g.tasks
  weight_eq : s.weight = g.cmxBytes
  budget_eq : s.budget = budget
  joins_iff : ∀ u v, s.graph.Joins u v ↔ g.Joins u v ∨ (u, v) ∈ s.pending
  rank_lt : ∀ u v, s.graph.Joins u v → s.rank u < s.rank v
  rank_inj : ∀ u ∈ g.ids, ∀ v ∈ g.ids, s.rank u = s.rank v → u = v

theorem Prepares.serialises (h : s.Prepares g budget) (hg : g.WellFormed) :
    s.Serialises g budget := by
  obtain rfl := h.graph_eq
  exact ⟨hg, rfl, funext h.weight_eq, h.budget_eq, by simp [h.pending_eq], h.rank_lt, h.rank_inj⟩

theorem Serialises.ids_eq (h : s.Serialises g budget) : s.graph.ids = g.ids :=
  TaskGraph.ids_congr h.tasks_eq

theorem Serialises.acyclic (h : s.Serialises g budget) : s.graph.Acyclic :=
  .of_rank h.rank_lt

/-- A forward edge is noted and added to the working copy. -/
theorem Serialises.add (h : s.Serialises g budget) {a b : Nat} (ha : a ∈ g.ids) (hb : b ∈ g.ids)
    (hlt : s.rank a < s.rank b) :
    Serialises { s with
      graph := (s.graph.addEdge a b .control).2
      pending := s.pending ++ [(a, b)] } g budget where
  wellFormed := h.wellFormed.addEdge (h.ids_eq ▸ ha) (h.ids_eq ▸ hb) .control
  tasks_eq := (TaskGraph.tasks_addEdge _ _ _ _).trans h.tasks_eq
  weight_eq := h.weight_eq
  budget_eq := h.budget_eq
  joins_iff := by
    intro u v
    show (s.graph.addEdge a b .control).2.Joins u v ↔ g.Joins u v ∨ (u, v) ∈ s.pending ++ [(a, b)]
    rw [TaskGraph.joins_addEdge, h.joins_iff, List.mem_append, List.mem_singleton, Prod.mk.injEq]
    tauto
  rank_lt := by
    intro u v huv
    rcases TaskGraph.joins_addEdge.1 huv with ⟨rfl, rfl⟩ | huv
    · exact hlt
    · exact h.rank_lt u v huv
  rank_inj := h.rank_inj

theorem byWeight_perm (s : Serialiser) (tasks : List Nat) :
    (s.byWeight tasks).Perm (tasks.filter (0 < s.weight ·)) :=
  List.mergeSort_perm _ _

/-- Two tasks that hold memory are put in order, if there are two. -/
theorem Serialises.orderPair (h : s.Serialises g budget) (hnodup : f.tasks.Nodup)
    (hids : ∀ id ∈ f.tasks, id ∈ g.ids) :
    (∃ a ∈ f.tasks, ∃ b ∈ f.tasks, s.rank a < s.rank b ∧
      s.orderPair f = .ok ((a, b), { s with
        graph := (s.graph.addEdge a b .control).2
        pending := s.pending ++ [(a, b)] })) ∨
    s.orderPair f = .error (s.shortage f) ∧ (s.byWeight f.tasks).length ≤ 1 := by
  have hperm := s.byWeight_perm f.tasks
  have hmem : ∀ id ∈ s.byWeight f.tasks, id ∈ f.tasks := fun id hid =>
    (List.mem_filter.1 (hperm.mem_iff.1 hid)).1
  have hdistinct : (s.byWeight f.tasks).Nodup := hperm.nodup_iff.2 (hnodup.filter _)
  unfold Serialiser.orderPair
  split
  · next first second rest heq =>
    rw [heq] at hmem hdistinct
    have hfirst := hmem first (by simp)
    have hsecond := hmem second (by simp)
    have hne : first ≠ second := by
      rintro rfl
      simp at hdistinct
    -- whichever comes first in the order at the start stays first
    obtain ⟨a, b, hpair, ha, hb, hlt⟩ : ∃ a b, (if s.rank first < s.rank second then
        (first, second) else (second, first)) = (a, b) ∧ a ∈ f.tasks ∧ b ∈ f.tasks ∧
        s.rank a < s.rank b := by
      by_cases hlt : s.rank first < s.rank second
      · exact ⟨first, second, if_pos hlt, hfirst, hsecond, hlt⟩
      · refine ⟨second, first, if_neg hlt, hsecond, hfirst, ?_⟩
        have hrank : s.rank first ≠ s.rank second := fun heq =>
          hne (h.rank_inj first (hids first hfirst) second (hids second hsecond) heq)
        omega
    have hpath : ¬ s.graph.hasPath b a = true := by
      rw [h.wellFormed.hasPath_iff (h.ids_eq ▸ hids b hb)]
      intro hlead
      rcases Relation.reflTransGen_iff_eq_or_transGen.1 hlead with rfl | hbefore
      · exact Nat.lt_irrefl _ hlt
      · exact Nat.lt_asymm hlt (TaskGraph.Before.lt_of_rank h.rank_lt hbefore)
    refine Or.inl ⟨a, ha, b, hb, hlt, ?_⟩
    rw [hpair]
    simp only [hpath, Bool.false_eq_true, if_false]
  · next hfew =>
    refine Or.inr ⟨rfl, ?_⟩
    match hsorted : s.byWeight f.tasks with
    | [] => simp
    | [_] => simp
    | first :: second :: rest => exact absurd hsorted (hfew first second rest)

/-- A task that is too heavy alone, and none is heavier. -/
structure Oversized (g : TaskGraph) (budget task : Nat) : Prop where
  mem_ids : task ∈ g.ids
  budget_lt : budget < g.cmxBytes task
  heaviest : ∀ u ∈ g.ids, g.cmxBytes u ≤ g.cmxBytes task

/-- The refusal of a task that is too heavy alone. -/
def tooHeavy (g : TaskGraph) (budget task : Nat) : Fault :=
  .refused (.infeasible .frontier (g.name task) .scratch (g.cmxBytes task) budget)

/-- Every single task is measured, so none exceeds a heaviest frontier. -/
theorem Serialises.cmxBytes_le (h : s.Serialises g budget) (hf : s.IsHeaviest f) {id : Nat}
    (hid : id ∈ g.ids) : g.cmxBytes id ≤ f.weight := by
  have hle := hf.greatest {id} (unordered_singleton (h.ids_eq.symm ▸ hid))
  rwa [sum_singleton, h.weight_eq] at hle

/-- A heaviest frontier over budget whose weight one task has at most is that task. -/
theorem Serialises.shortage (h : s.Serialises g budget) (hf : s.IsHeaviest f)
    (hover : budget < f.weight) (hfew : (s.byWeight f.tasks).length ≤ 1) :
    ∃ task, Oversized g budget task ∧ s.shortage f = tooHeavy g budget task := by
  have hperm := s.byWeight_perm f.tasks
  have hweight : Word.total ((s.byWeight f.tasks).map s.weight) = f.weight := by
    rw [Word.total_perm (hperm.map _), ← hf.weight_eq]
    exact Word.total_filter_pos _ _
  match hsorted : s.byWeight f.tasks with
  | [] =>
    rw [hsorted] at hweight
    simp only [List.map_nil, Word.total_nil] at hweight
    omega
  | [task] =>
    rw [hsorted, List.map_singleton, Word.total_cons, Word.total_nil, Nat.add_zero] at hweight
    have hmem : task ∈ f.tasks :=
      (List.mem_filter.1 (hperm.mem_iff.1 (hsorted ▸ List.mem_singleton_self task))).1
    have hid : task ∈ s.graph.ids := hf.unordered.mem_ids task (List.mem_toFinset.2 hmem)
    refine ⟨task, ⟨h.ids_eq ▸ hid, ?_, ?_⟩, ?_⟩
    · rw [← h.weight_eq]
      omega
    · intro u hu
      have hle := h.cmxBytes_le hf hu
      rwa [← hweight, h.weight_eq] at hle
    · have hname : s.graph.name task = g.name task := by
        unfold TaskGraph.name
        rw [TaskGraph.task_congr h.tasks_eq]
      simp [Serialiser.shortage, hsorted, tooHeavy, hname, h.weight_eq, h.budget_eq]
  | first :: second :: rest =>
    rw [hsorted] at hfew
    simp at hfew

/-! ## All rounds -/

/-- More edges never make the heaviest frontier heavier. -/
theorem IsHeaviest.weight_le {s' : Serialiser} {f' : Frontier} (hf : s.IsHeaviest f)
    (hf' : s'.IsHeaviest f') (hids : s'.graph.ids = s.graph.ids) (hweight : s'.weight = s.weight)
    (hjoins : ∀ u v, s.graph.Joins u v → s'.graph.Joins u v) : f'.weight ≤ f.weight := by
  have hle := hf.greatest _ (hf'.unordered.of_joins hids hjoins)
  rwa [← FlowNetwork.total_map_eq_sum (hf'.sorted.imp Nat.ne_of_lt), ← hweight,
    hf'.weight_eq] at hle

theorem Serialises.heaviest (h : s.Serialises g budget)
    (hbytes : Word.total (g.ids.map g.cmxBytes) ≤ FlowNetwork.unbounded) :
    ∃ f, s.heaviest = .ok f ∧ s.IsHeaviest f := by
  refine heaviest_spec h.wellFormed h.acyclic ?_
  rwa [h.weight_eq, h.ids_eq]

/-- The weight of a heaviest frontier of the working copy is one that the graph
allows. -/
theorem Serialises.weight_mem (h : s.Serialises g budget) (hf : s.IsHeaviest f) :
    f.weight ∈ g.unorderedPeaks := by
  refine ⟨f.tasks.toFinset, hf.unordered.of_joins h.ids_eq ?_, ?_⟩
  · exact fun u v huv => (h.joins_iff u v).2 (Or.inl huv)
  · rw [← FlowNetwork.total_map_eq_sum (hf.sorted.imp Nat.ne_of_lt), ← h.weight_eq, hf.weight_eq]

/-- If as many pairs are in order as there are pairs of tasks, there are no tasks, and
nothing weighs anything. -/
theorem Serialises.weight_eq_zero (h : s.Serialises g budget) (hf : s.IsHeaviest f)
    (hall : g.size * g.size ≤ s.graph.orderedPairs.card) : f.weight = 0 := by
  have hnone : s.graph.ids = [] := by
    by_contra hne
    have hlt := h.acyclic.card_orderedPairs_lt hne
    rw [TaskGraph.size, h.ids_eq, ← TaskGraph.size] at hlt
    omega
  have hempty : f.tasks = [] := by
    refine List.eq_nil_iff_forall_not_mem.2 fun id hid => ?_
    have hmem := hf.unordered.mem_ids id (List.mem_toFinset.2 hid)
    rw [hnone] at hmem
    cases hmem
  rw [← hf.weight_eq, hempty]
  rfl

/-- Putting two tasks of a heaviest frontier in order uses up one round and one
unordered pair. -/
theorem Serialises.rounds_left (h : s.Serialises g budget) (hf : s.IsHeaviest f) {a b : Nat}
    (ha : a ∈ f.tasks) (hb : b ∈ f.tasks) {rounds : Nat}
    (hrounds : g.size * g.size ≤ rounds + 1 + s.graph.orderedPairs.card) :
    g.size * g.size ≤ rounds + (s.graph.addEdge a b .control).2.orderedPairs.card := by
  have ha' := List.mem_toFinset.2 ha
  have hb' := List.mem_toFinset.2 hb
  have hgrows := TaskGraph.card_orderedPairs_lt (hf.unordered.mem_ids a ha')
    (hf.unordered.mem_ids b hb') (hf.unordered.not_before h.acyclic ha' hb') .control
  omega

/-- The rounds end with a peak that fits, or at a task that is too heavy alone. -/
theorem serialiseRounds_spec {observed : Bool}
    (hbytes : Word.total (g.ids.map g.cmxBytes) ≤ FlowNetwork.unbounded)
    (hshare : observed = true → ∀ peak ∈ g.unorderedPeaks, budget < peak →
      peak * 100 < Word.bound)
    (rounds : Nat) (events : List FrontierEvent) (h : s.Serialises g budget)
    (hrounds : g.size * g.size ≤ rounds + s.graph.orderedPairs.card) :
    (∃ f s' events', serialiseRounds observed rounds s events = .done f (s', events') ∧
      s'.Serialises g budget ∧ s'.IsHeaviest f ∧ f.weight ≤ budget) ∨
    ∃ task state, Oversized g budget task ∧
      serialiseRounds observed rounds s events = .failed (tooHeavy g budget task) state := by
  induction rounds generalizing s events with
  | zero =>
    obtain ⟨f, hmeasure, hf⟩ := h.heaviest hbytes
    have hzero := h.weight_eq_zero hf (by omega)
    rw [serialiseRounds, hmeasure]
    exact Or.inl ⟨f, s, _, if_pos (by omega), h, hf, by omega⟩
  | succ rounds ih =>
    obtain ⟨f, hmeasure, hf⟩ := h.heaviest hbytes
    rw [serialiseRounds, hmeasure]
    by_cases hfits : f.weight ≤ s.budget
    · exact Or.inl ⟨f, s, _, if_pos hfits, h, hf, h.budget_eq ▸ hfits⟩
    · have hover : budget < f.weight := by
        rw [← h.budget_eq]
        omega
      have hpercent : observedPercent observed f.weight s.budget = .ok () :=
        observedPercent_ok _ fun hobserved => hshare hobserved _ (h.weight_mem hf) hover
      have hids : ∀ id ∈ f.tasks, id ∈ g.ids := fun id hid =>
        h.ids_eq ▸ hf.unordered.mem_ids id (List.mem_toFinset.2 hid)
      simp only [if_neg hfits, hpercent]
      rcases h.orderPair (hf.sorted.imp Nat.ne_of_lt) hids with
        ⟨a, ha, b, hb, hlt, hpair⟩ | ⟨hshort, hfew⟩
      · simp only [hpair]
        exact ih _ (h.add (hids a ha) (hids b hb) hlt) (h.rounds_left hf ha hb hrounds)
      · obtain ⟨task, hoversized, hshortage⟩ := h.shortage hf hover hfew
        simp only [hshort, hshortage]
        exact Or.inr ⟨task, _, hoversized, rfl⟩

/-- The working copy starts as the graph, and there are rounds enough. -/
theorem serialise_spec {observed : Bool}
    (hbytes : Word.total (g.ids.map g.cmxBytes) ≤ FlowNetwork.unbounded)
    (hshare : observed = true → ∀ peak ∈ g.unorderedPeaks, budget < peak →
      peak * 100 < Word.bound)
    (h : s.Serialises g budget) :
    (∃ f s' events, s.serialise observed = .done f (s', events) ∧
      s'.Serialises g budget ∧ s'.IsHeaviest f ∧ f.weight ≤ budget) ∨
    ∃ task state, Oversized g budget task ∧
      s.serialise observed = .failed (tooHeavy g budget task) state := by
  have hsize : s.graph.size = g.size := by rw [TaskGraph.size, TaskGraph.size, h.ids_eq]
  rcases serialiseRounds_spec hbytes hshare (s.graph.size * s.graph.size) [] h
    (by rw [hsize]; exact Nat.le_add_right _ _) with
    ⟨f, s', events, hdone, hs', hf, hfits⟩ | ⟨task, ⟨s', events⟩, hoversized, hfailed⟩
  · refine Or.inl ⟨f, s', events.reverse, ?_, hs', hf, hfits⟩
    rw [serialise, hdone]
  · refine Or.inr ⟨task, (s', events.reverse), hoversized, ?_⟩
    rw [serialise, hfailed]

/-- The pending edges can all be committed, and then the graph orders the same tasks
as the working copy. -/
theorem Serialises.commit (h : s.Serialises g budget) (hg : g.WellFormed) :
    ∃ count g' s', s.commit g = .done count (s', g') ∧ g.Gains g' s.pending count ∧
      g'.WellFormed ∧ g'.Acyclic := by
  have hrank : ∀ u v, g.Joins u v → s.rank u < s.rank v := fun u v huv =>
    h.rank_lt u v ((h.joins_iff u v).2 (Or.inl huv))
  have hpairs : ∀ p ∈ s.pending, p.1 ∈ g.ids ∧ p.2 ∈ g.ids ∧ s.rank p.1 < s.rank p.2 := by
    rintro ⟨u, v⟩ hp
    have huv := (h.joins_iff u v).2 (Or.inr hp)
    exact ⟨h.ids_eq ▸ h.wellFormed.joins_left huv, h.ids_eq ▸ h.wellFormed.joins_right huv,
      h.rank_lt u v huv⟩
  obtain ⟨count, g', hdone, hgains, hwf, hforward⟩ :=
    hg.addControlEdges_forward hrank s.pending hpairs
  refine ⟨count, g', { s with pending := [] }, ?_, hgains, hwf, .of_rank hforward⟩
  rw [Serialiser.commit, hdone]

end Serialiser

/-! ## The pass over a graph -/

open Serialiser

variable {g : TaskGraph} {observed : Bool}

theorem cmxBytes_lt_bound (hbytes : Word.total (g.ids.map g.cmxBytes) ≤ FlowNetwork.unbounded) :
    ∀ id ∈ g.ids, g.cmxBytes id < Word.bound := fun id hid =>
  have hword : FlowNetwork.unbounded < Word.bound := by decide
  Nat.lt_of_le_of_lt (Word.le_total (List.mem_map_of_mem hid)) (by omega)

/-- Measuring the committed graph confirms a peak that fits. -/
theorem confirmPeak_spec {g' : TaskGraph} {s : Serialiser} {f : Frontier} {budget count : Nat}
    (hbytes : Word.total (g.ids.map g.cmxBytes) ≤ FlowNetwork.unbounded)
    (h : s.Serialises g budget) (hf : s.IsHeaviest f) (hfits : f.weight ≤ budget)
    (hgains : g.Gains g' s.pending count) (hwf : g'.WellFormed) (hac : g'.Acyclic)
    (inserted : Nat) (events : List FrontierEvent) :
    ∃ s' f' events', confirmPeak budget inserted g' events = .done f' (g', events') ∧
      ofGraph g' budget = .ok s' ∧ s'.heaviest = .ok f' ∧ f'.weight ≤ budget := by
  have hbytes' : Word.total (g'.ids.map g'.cmxBytes) ≤ FlowNetwork.unbounded := by
    rwa [TaskGraph.cmxBytes_congr hgains.tasks_eq, hgains.ids_eq]
  obtain ⟨s', hs', hprepares⟩ := ofGraph_spec hwf hac (cmxBytes_lt_bound hbytes') budget
  have hserialises := hprepares.serialises hwf
  obtain ⟨f', hmeasure, hf'⟩ := hserialises.heaviest hbytes'
  -- the committed graph has the edges of the working copy
  have hle : f'.weight ≤ f.weight := by
    apply hf.weight_le hf'
    · exact hserialises.ids_eq.trans (hgains.ids_eq.trans h.ids_eq.symm)
    · rw [hserialises.weight_eq, h.weight_eq, TaskGraph.cmxBytes_congr hgains.tasks_eq]
    · intro u v huv
      have hgained := (hgains.joins_iff u v).2 ((h.joins_iff u v).1 huv)
      exact (hserialises.joins_iff u v).2 (Or.inl hgained)
  unfold confirmPeak
  simp only [hs', hmeasure]
  rw [if_neg (by omega)]
  exact ⟨s', f', _, rfl, rfl, hmeasure, by omega⟩

/-- The pass over an acyclic graph ends with a peak that fits and new control edges,
or at a task that is too heavy alone. -/
theorem boundPeak_spec (hg : g.WellFormed) (hac : g.Acyclic)
    (hbytes : Word.total (g.ids.map g.cmxBytes) ≤ FlowNetwork.unbounded)
    (hshare : observed = true → ∀ peak ∈ g.unorderedPeaks, peak * 100 < Word.bound)
    (budget : Nat) :
    (∃ f g' events pairs count, boundPeak observed budget g = .done f (g', events) ∧
      g.Gains g' pairs count ∧ g'.WellFormed ∧ g'.Acyclic ∧
      (∃ s, ofGraph g' budget = .ok s ∧ s.heaviest = .ok f) ∧ f.weight ≤ budget) ∨
    ∃ task events, Oversized g budget task ∧
      boundPeak observed budget g = .failed (tooHeavy g budget task) (g, events) := by
  obtain ⟨s, hs, hprepares⟩ := ofGraph_spec hg hac (cmxBytes_lt_bound hbytes) budget
  have h := hprepares.serialises hg
  obtain ⟨initial, hmeasure, hinitial⟩ := h.heaviest hbytes
  have hpercent : observedPercent observed initial.weight budget = .ok () :=
    observedPercent_ok _ fun hobserved => hshare hobserved _ (h.weight_mem hinitial)
  unfold boundPeak
  simp only [hs, hmeasure, hpercent]
  rcases serialise_spec hbytes (fun hobserved peak hpeak _ => hshare hobserved peak hpeak) h with
    ⟨f, s', more, hdone, hs', hf, hfits⟩ | ⟨task, ⟨s', more⟩, hoversized, hfailed⟩
  · obtain ⟨count, g', s'', hcommit, hgains, hwf, hac'⟩ := hs'.commit hg
    obtain ⟨s₂, f', events, hconfirm, hs₂, hmeasure', hfits'⟩ :=
      confirmPeak_spec hbytes hs' hf hfits hgains hwf hac' count
        ([.measured initial, .required initial.weight budget] ++ more)
    refine Or.inl ⟨f', g', events, s'.pending, count, ?_, hgains, hwf, hac',
      ⟨s₂, hs₂, hmeasure'⟩, hfits'⟩
    simp only [hdone, hcommit, hconfirm]
  · simp only [hfailed]
    exact Or.inr ⟨task, _, hoversized, rfl⟩

/-- The share of a peak that is too large cannot be computed. -/
theorem boundPeak_overflow (hg : g.WellFormed) (hac : g.Acyclic)
    (hbytes : Word.total (g.ids.map g.cmxBytes) ≤ FlowNetwork.unbounded) {peak : Nat}
    (hpeak : peak ∈ g.unorderedPeaks) (hlarge : Word.bound ≤ peak * 100) (budget : Nat) :
    ∃ events, boundPeak true budget g = .failed .overflow (g, events) := by
  obtain ⟨s, hs, hprepares⟩ := ofGraph_spec hg hac (cmxBytes_lt_bound hbytes) budget
  have h := hprepares.serialises hg
  obtain ⟨initial, hmeasure, hinitial⟩ := h.heaviest hbytes
  obtain ⟨tasks, htasks, rfl⟩ := hpeak
  have hle := hinitial.greatest tasks (hprepares.graph_eq.symm ▸ htasks)
  rw [h.weight_eq] at hle
  have hpercent : observedPercent true initial.weight budget = .error .overflow :=
    observedPercent_overflow _ (by omega)
  refine ⟨[.measured initial], ?_⟩
  unfold boundPeak
  simp only [hs, hmeasure, hpercent]

/-- A graph with a cycle is refused as it is. -/
theorem boundPeak_cyclic (hg : g.WellFormed) (hcyclic : ¬ g.Acyclic)
    (hbytes : Word.total (g.ids.map g.cmxBytes) ≤ FlowNetwork.unbounded) (budget : Nat) :
    ∃ name, boundPeak observed budget g = .failed (.refused (.cyclic name)) (g, []) := by
  obtain ⟨name, horder⟩ := hg.topologicalOrder_cyclic hcyclic
  refine ⟨name, ?_⟩
  unfold boundPeak
  rw [ofGraph_of_error horder (cmxBytes_lt_bound hbytes)]

end TaskLoom
