import Mathlib.Computability.TuringMachine.StackTuringMachine
import Mathlib.Data.List.Permutation
import Mathlib.ModelTheory.Encoding
import TaskLoom.Proofs.Frontier.Nearest

/-!
# What leads past the frontier

After a maximum flow the sink reaches nodes of the network, also along arcs on which flow
was pushed back.  It reaches nothing but the exits of the frontier and what comes after
the frontier: these nodes are closed, and they are straddled by the frontier, which weighs
as much as the flow leaves.  So nothing is left to flow out of them.

The dependencies that lead past the frontier are read off this set.  They are those that
end after the frontier but start neither on it nor after it.

The sample is evaluated.  Equations of `Option.isNone`, `Option.join` and `Prod.snd` that this
takes are what is imported from Mathlib.

## Main results

* `IsMeasured.nearSink_entry_iff`, `IsMeasured.nearSink_exit_iff` — what the sink reaches.
* `exists_crossing_eq` — the dependencies that lead past a measured frontier.
* `heaviest_crossing` — the same for the frontier that is measured on a graph.
-/

namespace TaskLoom

open Finset

/-- A dependency that ends after one of the tasks, but starts neither at one of them nor
after one. -/
structure TaskGraph.Bypasses (g : TaskGraph) (tasks : List Nat) (e : Edge) : Prop where
  target_after : ∃ a ∈ tasks, g.Before a e.target
  source_notMem : e.source ∉ tasks
  source_not_after : ∀ a ∈ tasks, ¬ g.Before a e.source

namespace Serialiser

open FlowNetwork

variable {s : Serialiser} {f : Frontier} {net : FlowNetwork} {amount : Nat}

/-! ## What the sink reaches -/

/-- The frontier holds all the weight that straddles what comes after it. -/
theorem IsMeasured.sum_straddling_beyond [DecidablePred (s.beyond f.tasks.toFinset)]
    (hm : s.IsMeasured f net amount) (hg : s.graph.WellFormed) (hac : s.graph.Acyclic)
    (hf : s.IsHeaviest f) :
    ∑ id ∈ s.straddling (s.beyond f.tasks.toFinset), s.weight id + amount =
      Word.total (s.graph.ids.map s.weight) := by
  have hweigh := amount_add_straddling hg hm.moves (closed_beyond hg f.tasks.toFinset) nodes_outer
    (not_beyond_source _)
  have hle : ∑ id ∈ f.tasks.toFinset, s.weight id ≤
      ∑ id ∈ s.straddling (s.beyond f.tasks.toFinset), s.weight id :=
    sum_le_sum_of_subset (subset_straddling_beyond hac hf.unordered)
  rw [← total_map_eq_sum (hf.sorted.imp Nat.ne_of_lt), hf.weight_eq] at hle
  have hadd := hm.weight_add
  omega

/-- The sink reaches nothing but the frontier and what comes after it. -/
theorem IsMeasured.beyond_of_nearSink (hm : s.IsMeasured f net amount)
    (hg : s.graph.WellFormed) (hac : s.graph.Acyclic) (hf : s.IsHeaviest f) {x : Nat}
    (hx : s.NearSink net x) : s.beyond f.tasks.toFinset x := by
  classical
  exact (closed_beyond hg _).of_reached hg hm.moves nodes_outer (not_beyond_source _)
    (hm.sum_straddling_beyond hg hac hf) hx

theorem IsMeasured.nearSink_entry_iff (hm : s.IsMeasured f net amount)
    (hg : s.graph.WellFormed) (hac : s.graph.Acyclic) (hf : s.IsHeaviest f) {v : Nat}
    (hv : v ∈ s.graph.ids) :
    s.NearSink net (entry v) ↔ ∃ a ∈ f.tasks, s.graph.Before a v := by
  constructor
  · intro hnear
    obtain ⟨a, ha, hbefore⟩ := (beyond_entry hv).1 (hm.beyond_of_nearSink hg hac hf hnear)
    exact ⟨a, List.mem_toFinset.1 ha, hbefore⟩
  · rintro ⟨a, ha, hbefore⟩
    exact hm.closed.entry_of_before hg hbefore ((hm.mem_tasks a).1 ha).2.1

theorem IsMeasured.nearSink_exit_iff (hm : s.IsMeasured f net amount)
    (hg : s.graph.WellFormed) (hac : s.graph.Acyclic) (hf : s.IsHeaviest f) {u : Nat}
    (hu : u ∈ s.graph.ids) :
    s.NearSink net (exit u) ↔ u ∈ f.tasks ∨ ∃ a ∈ f.tasks, s.graph.Before a u := by
  constructor
  · intro hnear
    obtain ⟨a, ha, hleads⟩ := (beyond_exit hu).1 (hm.beyond_of_nearSink hg hac hf hnear)
    have ha := List.mem_toFinset.1 ha
    rcases Relation.reflTransGen_iff_eq_or_transGen.1 hleads with rfl | hbefore
    · exact Or.inl ha
    · exact Or.inr ⟨a, ha, hbefore⟩
  · rintro (hmem | hafter)
    · exact ((hm.mem_tasks u).1 hmem).2.1
    · -- the flow passes from the entry of a task to its exit
      exact hm.closed.exit_of_entry u hu ((hm.nearSink_entry_iff hg hac hf hu).2 hafter)

/-! ## What leads past -/

/-- A dependency starts where the sink does not reach and ends where it does, exactly if it
leads past the frontier. -/
theorem IsMeasured.bypasses_iff (hm : s.IsMeasured f net amount) (hg : s.graph.WellFormed)
    (hac : s.graph.Acyclic) (hf : s.IsHeaviest f) {e : Edge} (he : e ∈ s.graph.dependencies) :
    (¬ s.NearSink net (exit e.source) ∧ s.NearSink net (entry e.target)) ↔
      s.graph.Bypasses f.tasks e := by
  have hedge := TaskGraph.mem_dependencies.1 he
  rw [hm.nearSink_exit_iff hg hac hf (hg.source_mem e hedge),
    hm.nearSink_entry_iff hg hac hf (hg.target_mem e hedge)]
  constructor
  · rintro ⟨hsource, htarget⟩
    refine ⟨htarget, fun hmem => hsource (Or.inl hmem), fun a ha hbefore => ?_⟩
    exact hsource (Or.inr ⟨a, ha, hbefore⟩)
  · rintro ⟨htarget, hnot, hafter⟩
    refine ⟨?_, htarget⟩
    rintro (hmem | ⟨a, ha, hbefore⟩)
    · exact hnot hmem
    · exact hafter a ha hbefore

open Classical in
/-- The dependencies that lead past the measured frontier, each as often as it stands in
the graph and in the order of the slots. -/
theorem exists_crossing_eq (hg : s.graph.WellFormed) (hac : s.graph.Acyclic)
    (htotal : Word.total (s.graph.ids.map s.weight) ≤ unbounded) :
    ∃ f, s.heaviest = .ok f ∧ f.crossing =
      (s.graph.dependencies.filter (s.graph.Bypasses f.tasks ·)).map TaskGraph.ends := by
  obtain ⟨f, hmeasure, hf⟩ := heaviest_spec hg hac htotal
  obtain ⟨net, amount, hm, hfrontier⟩ := exists_isMeasured hg hac htotal hmeasure
  refine ⟨f, hmeasure, ?_⟩
  have hcrossing : f.crossing = (s.frontierOf f.weight net).crossing := congrArg _ hfrontier
  rw [hcrossing]
  refine congrArg (List.map TaskGraph.ends) (List.filter_congr fun e he => ?_)
  rw [Bool.eq_iff_iff, decide_eq_true_eq, ← hm.bypasses_iff hg hac hf he]
  simp

end Serialiser

/-! ## The frontier of a graph -/

namespace TaskGraph

open Classical in
/-- The dependencies that lead past the frontier that is measured on an acyclic graph are
those that end after it but start neither on it nor after it. -/
theorem heaviest_crossing {g : TaskGraph} (hg : g.WellFormed) (hac : g.Acyclic) (budget : Nat)
    (hbytes : Word.total (g.ids.map g.cmxBytes) ≤ FlowNetwork.unbounded) :
    ∃ s f, Serialiser.ofGraph g budget = .ok s ∧ s.heaviest = .ok f ∧
      f.crossing = (g.dependencies.filter (g.Bypasses f.tasks ·)).map ends := by
  obtain ⟨s, hs, hprepares⟩ := Serialiser.ofGraph_spec hg hac (cmxBytes_lt_bound hbytes) budget
  obtain rfl := hprepares.graph_eq
  have hweight : s.weight = s.graph.cmxBytes := funext hprepares.weight_eq
  obtain ⟨f, hf, hcrossing⟩ := Serialiser.exists_crossing_eq hg hac (hweight ▸ hbytes)
  exact ⟨s, f, hs, hf, hcrossing⟩

/-- A load that holds memory and a marker that does not, both before a store, which the
marker is joined with twice. -/
def sidestep : TaskGraph where
  tasks := #[
    some { name := "load", kind := .dma, buffers := [⟨"in", 100, .cmx, none⟩] },
    some { name := "marker", kind := .control },
    some { name := "store", kind := .dma, buffers := [⟨"out", 60, .cmx, none⟩] }]
  edges := [⟨2, 1, 2, .control⟩, ⟨1, 0, 2, .data⟩, ⟨0, 1, 2, .data⟩]
  slotCount := 3

/-- The frontier of the sample is the load, and what the marker is joined with twice leads
past it twice. -/
theorem measured_sidestep :
    (do (← Serialiser.ofGraph sidestep 128).heaviest) = .ok ⟨100, [0], [(1, 2), (1, 2)]⟩ := by
  cbv

open Classical in
theorem heaviest_crossing_sidestep :
    Word.total (sidestep.ids.map sidestep.cmxBytes) ≤ FlowNetwork.unbounded ∧
      ∃ s f, Serialiser.ofGraph sidestep 128 = .ok s ∧ s.heaviest = .ok f ∧ f.tasks = [0] ∧
        f.crossing = [(1, 2), (1, 2)] ∧
        f.crossing = (sidestep.dependencies.filter (sidestep.Bypasses f.tasks ·)).map ends := by
  have hwf : sidestep.WellFormed := by constructor <;> decide
  have hac : sidestep.Acyclic := .of_forward (by decide)
  have hbytes : Word.total (sidestep.ids.map sidestep.cmxBytes) ≤ FlowNetwork.unbounded := by decide
  obtain ⟨s, f, hs, hf, hcrossing⟩ := heaviest_crossing hwf hac 128 hbytes
  have hmeasured := measured_sidestep
  simp only [hs, hf, bind, Except.bind, Except.ok.injEq] at hmeasured
  subst hmeasured
  exact ⟨hbytes, s, _, hs, hf, rfl, rfl, hcrossing⟩

end TaskGraph

end TaskLoom
