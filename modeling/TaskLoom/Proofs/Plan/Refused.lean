import TaskLoom.Proofs.Frontier.Committed
import TaskLoom.Proofs.Plan.Finished
import TaskLoom.Proofs.Timetable.Deferral

/-!
# What a refusal leaves of a graph

Planning changes a graph at two points.  Bounding the peak commits control edges, and the
end of a run adds ordering edges and writes the decisions.  The end cannot fail, but list
scheduling stands between the two: a task that fits the peak may still exceed the rounded
memory or the slots of a barrier.  Such a refusal leaves the graph with the edges that
bound its peak.  There are some exactly if the peak exceeded the memory.

All other refusals leave the graph as it was.

## Main results

* `make_cases` — the ways in which a run ends.
* `boundPeak_eq_iff` — bounding the peak adds edges exactly if the peak does not fit.
* `make_refused_graph` — what a refused run leaves.
-/

namespace TaskLoom

/-- The stage that refused an input for want of a resource. -/
def ScheduleError.stage? : ScheduleError → Option Stage
  | .infeasible stage .. => some stage
  | _ => none

theorem ListScheduler.ListingFault.stage {error : ScheduleError}
    (h : ListingFault (.refused error)) : error.stage? = some .listing := by
  rcases h with hover | ⟨name, resource, required, available, hrefused⟩
  · cases hover
  · cases hrefused
    rfl

theorem Settings.invalid_of_validate {settings : Settings} {error : ScheduleError}
    (h : settings.validate = .error error) : ∃ defect, error = .invalidSettings defect := by
  unfold validate at h
  split at h
  · cases h
    exact ⟨_, rfl⟩
  · cases h

/-- Without edges, no tasks are ordered. -/
theorem TaskGraph.unordered_of_no_edges {g : TaskGraph} {tasks : Finset Nat} (hnone : g.edges = [])
    (hids : ∀ id ∈ tasks, id ∈ g.ids) : g.Unordered tasks := by
  refine ⟨hids, ?_⟩
  rintro u - v - hne huv
  rcases Relation.ReflTransGen.cases_head huv with heq | ⟨w, ⟨e, he, -⟩, -⟩
  · exact hne heq
  · rw [hnone] at he
    cases he

/-! ## Bounding the peak -/

section

variable {g g' : TaskGraph} {observed : Bool} {budget : Nat} {cut : Frontier}
  {events : List FrontierEvent}

/-- The pass is never refused in the name of list scheduling. -/
theorem stage_of_boundPeak (hg : g.WellFormed)
    (hbytes : Word.total (g.ids.map g.cmxBytes) ≤ FlowNetwork.unbounded) {error : ScheduleError}
    {state : TaskGraph × List FrontierEvent}
    (h : boundPeak observed budget g = .failed (.refused error) state) :
    error.stage? ≠ some .listing := by
  by_cases hac : g.Acyclic
  · by_cases hshare : observed = true → ∀ peak ∈ g.unorderedPeaks, peak * 100 < Word.bound
    · rcases boundPeak_spec hg hac hbytes hshare budget with
        ⟨_, _, _, _, _, hdone, -⟩ | ⟨task, _, -, hfailed⟩
      · cases h.symm.trans hdone
      · cases h.symm.trans hfailed
        simp [ScheduleError.stage?]
    · simp only [not_forall, Nat.not_lt] at hshare
      obtain ⟨rfl, peak, hpeak, hlarge⟩ := hshare
      obtain ⟨_, hfailed⟩ := boundPeak_overflow hg hac hbytes hpeak hlarge budget
      cases h.symm.trans hfailed
  · obtain ⟨name, hfailed⟩ : ∃ name, boundPeak observed budget g = _ :=
      boundPeak_cyclic hg hac hbytes budget
    cases h.symm.trans hfailed
    simp [ScheduleError.stage?]

/-- If the peak fits as it is, nothing is ordered. -/
theorem Serialiser.serialise_of_fits {s : Serialiser} {f : Frontier}
    (hmeasure : s.heaviest = .ok f) (hfits : f.weight ≤ s.budget) (observed : Bool) :
    s.serialise observed = .done f (s, [.measured f]) := by
  unfold serialise serialiseRounds
  simp only [hmeasure, if_pos hfits, List.reverse_singleton]

/-- Bounding the peak leaves a graph as it is exactly if its peak fits. -/
theorem boundPeak_eq_iff (hg : g.WellFormed) (hac : g.Acyclic)
    (hbytes : Word.total (g.ids.map g.cmxBytes) ≤ FlowNetwork.unbounded)
    (hbound : boundPeak observed budget g = .done cut (g', events))
    (hcommits : Commits g g' budget cut) :
    g' = g ↔ ∀ peak ∈ g.unorderedPeaks, peak ≤ budget := by
  constructor
  · rintro rfl peak hpeak
    exact Nat.le_trans (hcommits.greatest.2 hpeak) hcommits.fits
  · intro hall
    obtain ⟨s, hs, hprepares⟩ := Serialiser.ofGraph_spec hg hac (cmxBytes_lt_bound hbytes) budget
    obtain ⟨f, hmeasure, hf⟩ := (hprepares.serialises hg).heaviest hbytes
    have hfits : f.weight ≤ s.budget := by
      rw [hprepares.budget_eq]
      exact hall f.weight ((hprepares.serialises hg).weight_mem hf)
    have hdone := Serialiser.serialise_of_fits hmeasure hfits observed
    obtain ⟨hcommit, _, _, hconfirm, -⟩ := commit_confirms hg hbytes hprepares hdone
      ([.measured f, .required f.weight budget] ++ [.measured f])
    unfold boundPeak at hbound
    simp only [hs, hmeasure, hdone, hcommit, hconfirm] at hbound
    split at hbound
    · cases hbound
    · cases hbound
      exact hprepares.graph_eq

end

namespace Plan

variable {g g' : TaskGraph} {settings : Settings}

/-! ## How a run ends -/

/-- The numbers of a graph and its settings are words, and the footprints of all tasks
together can flow through a network. -/
structure Weighable (settings : Settings) (g : TaskGraph) : Prop where
  wellFormed : g.WellFormed
  slots_lt : settings.slotsPerBarrier < Word.bound
  cmx_lt : settings.cmxSize < Word.bound
  bytes_le : Word.total (g.ids.map g.cmxBytes) ≤ FlowNetwork.unbounded

theorem Weighable.of_tasks (h : Weighable settings g) (hwf : g'.WellFormed)
    (htasks : g'.tasks = g.tasks) : Weighable settings g' where
  wellFormed := hwf
  slots_lt := h.slots_lt
  cmx_lt := h.cmx_lt
  bytes_le := by
    rw [TaskGraph.cmxBytes_congr htasks, TaskGraph.ids_congr htasks]
    exact h.bytes_le

theorem Weighable.worded (h : Weighable settings g) : Worded settings g where
  wellFormed := h.wellFormed
  slots_lt := h.slots_lt
  sizes_lt id hid _ hsize :=
    Nat.lt_of_le_of_lt (Word.le_total hsize) (cmxBytes_lt_bound h.bytes_le id hid)

/-- What is placed is no more than the memory, which is a word. -/
theorem Weighable.sized (h : Weighable settings g) {placements : List Placement}
    (hfeasible : Feasible g settings placements) : Sized settings g where
  wellFormed := h.wellFormed
  slots_lt := h.slots_lt
  bytes_le := h.bytes_le
  aligned_lt id hid := Nat.lt_of_le_of_lt (hfeasible.fitsAlone id hid).1 h.cmx_lt

open ListScheduler (ListingFault)

theorem place_failed (h : Weighable settings g) (hac : g.Acyclic)
    (hvalid : settings.validate = .ok ()) {hints : Hints} {fault : Fault}
    {events : List ListingEvent} (hplace : place g settings hints = .failed fault events) :
    ListingFault fault := by
  obtain ⟨s, levels, hcreate, -, -, rfl, rfl, hranked⟩ :=
    ListScheduler.create_spec h.wellFormed hac hvalid
  unfold place at hplace
  simp only [hcreate] at hplace
  split at hplace
  · next hresult =>
    cases hplace
    have hfaults := @ListScheduler.schedule_result { s with hints }
    exact (hfaults h.wellFormed hac hvalid h.slots_lt hranked.ranksApart).2 _ hresult
  · cases hplace

/-- Once all tasks are placed, they can be placed again. -/
theorem placeAll_failed (h : Weighable settings g) (hac : g.Acyclic)
    (hvalid : settings.validate = .ok ()) {fault : Fault} {reports : List StageReport}
    (hplace : placeAll g settings = .failed fault reports) : ListingFault fault := by
  cases hfirst : place g settings [] with
  | failed fault' events =>
    unfold placeAll at hplace
    simp only [hfirst] at hplace
    cases hplace
    exact place_failed h hac hvalid hfirst
  | done placements events =>
    have hfeasible := feasible_of_place h.worded hfirst
    obtain ⟨_, _, _, hdone, -⟩ :=
      placeAll_done (h.sized hfeasible) hac hvalid hfeasible.fitsAlone
    cases hplace.symm.trans hdone

/-- A run ends before its graph has changed, or in list scheduling, or with a plan. -/
theorem make_cases (h : Weighable settings g) (observed : Bool) :
    (∃ error, settings.validate = .error error ∧
      make observed settings g = .failed (.refused error) ⟨g, []⟩) ∨
    (∃ fault events, boundPeak observed settings.cmxSize g = .failed fault (g, events) ∧
      make observed settings g = .failed fault ⟨g, [.peak events]⟩) ∨
    ∃ cut bounded events,
      boundPeak observed settings.cmxSize g = .done cut (bounded, events) ∧
      Commits g bounded settings.cmxSize cut ∧
      ((∃ fault reports, make observed settings g = .failed fault ⟨bounded, reports⟩ ∧
        ListingFault fault) ∨ ∃ plan run, make observed settings g = .done plan run) := by
  unfold make
  cases hvalid : settings.validate with
  | error error => exact Or.inl ⟨error, rfl, rfl⟩
  | ok _ =>
    refine Or.inr ?_
    rcases boundPeak_cases h.wellFormed h.bytes_le observed settings.cmxSize with
      ⟨fault, events, hbound⟩ | ⟨cut, bounded, events, hbound, hcommits⟩
    · simp only [hbound]
      exact Or.inl ⟨fault, events, rfl, rfl⟩
    · obtain ⟨hwf, htasks⟩ := boundPeak_done h.wellFormed hbound
      have hweighable := h.of_tasks hwf htasks
      refine Or.inr ⟨cut, bounded, events, hbound, hcommits, ?_⟩
      simp only [hbound]
      cases hplace : placeAll bounded settings with
      | failed fault reports =>
        exact Or.inl ⟨fault, _, rfl, placeAll_failed hweighable hcommits.acyclic hvalid hplace⟩
      | done value reports =>
        obtain ⟨placements, prefetched⟩ := value
        have hfeasible := feasible_of_placeAll hweighable.worded hplace
        exact Or.inr (complete_done (hweighable.sized hfeasible) hfeasible cut _ prefetched _)

/-- A refused run has not changed its graph, or list scheduling refused what bounding the
peak has committed. -/
theorem make_refused_cases (h : Weighable settings g) {observed : Bool} {error : ScheduleError}
    {run : PlanRun} (hmake : make observed settings g = .failed (.refused error) run) :
    (run.graph = g ∧ error.stage? ≠ some .listing) ∨
    (error.stage? = some .listing ∧ ∃ cut events,
      boundPeak observed settings.cmxSize g = .done cut (run.graph, events) ∧
      Commits g run.graph settings.cmxSize cut) := by
  rcases make_cases h observed with ⟨error', hinvalid, hfailed⟩ | ⟨fault, events, hbound, hfailed⟩ |
    ⟨cut, bounded, events, hbound, hcommits, ⟨fault, reports, hfailed, hfault⟩ | ⟨_, _, hdone⟩⟩
  · cases hmake.symm.trans hfailed
    obtain ⟨defect, rfl⟩ := Settings.invalid_of_validate hinvalid
    exact Or.inl ⟨rfl, by simp [ScheduleError.stage?]⟩
  · cases hmake.symm.trans hfailed
    exact Or.inl ⟨rfl, stage_of_boundPeak h.wellFormed h.bytes_le hbound⟩
  · cases hmake.symm.trans hfailed
    exact Or.inr ⟨hfault.stage, cut, events, hbound, hcommits⟩
  · cases hmake.symm.trans hdone

/-- A refused run leaves the tasks of a graph with all that was written on them, and its
edges.  What it may add are control edges between tasks that were unordered.  It adds some
exactly if list scheduling refuses and the peak of the graph exceeds the memory, and then
it leaves the graph that bounding the peak has committed. -/
theorem make_refused_graph (h : Weighable settings g) {observed : Bool} {error : ScheduleError}
    {run : PlanRun} (hmake : make observed settings g = .failed (.refused error) run) :
    run.graph.tasks = g.tasks ∧
    (∃ added, run.graph.edges = added ++ g.edges ∧ ∀ e ∈ added, e.kind = .control) ∧
    (∃ pairs, g.Extends pairs run.graph) ∧
    (run.graph = g ↔ error.stage? ≠ some .listing ∨
      ∀ peak ∈ g.unorderedPeaks, peak ≤ settings.cmxSize) ∧
    (error.stage? = some .listing → ∃ cut events,
      boundPeak observed settings.cmxSize g = .done cut (run.graph, events)) := by
  rcases make_refused_cases h hmake with
    ⟨hsame, hstage⟩ | ⟨hstage, cut, events, hbound, hcommits⟩
  · rw [hsame]
    exact ⟨rfl, ⟨[], rfl, by simp⟩, ⟨[], .nil g⟩, iff_of_true rfl (Or.inl hstage),
      fun hlisting => absurd hlisting hstage⟩
  · have hac : g.Acyclic :=
      ((exists_boundPeak_iff h.wellFormed h.bytes_le observed _).1 ⟨_, _, hbound⟩).1
    have hiff := boundPeak_eq_iff h.wellFormed hac h.bytes_le hbound hcommits
    refine ⟨hcommits.tasks_eq, hcommits.edges_eq, hcommits.unordered, ?_,
      fun _ => ⟨cut, events, hbound⟩⟩
    rw [hiff]
    exact ⟨Or.inr, fun hor => hor.resolve_left fun hnot => hnot hstage⟩

/-- Two unordered tasks that need more memory together than alone, the first of which
needs two slots of a barrier. -/
def crowdedPair : TaskGraph where
  tasks := #[
    some { name := "a", kind := .compute 2, buffers := [⟨"a", 600, .cmx, none⟩] },
    some { name := "b", kind := .dma, buffers := [⟨"b", 600, .cmx, none⟩] }]

/-- Hardware that has memory for one of the two tasks, and one slot per barrier. -/
def narrow : Settings := { cmxSize := 1000, slotsPerBarrier := 1 }

theorem weighable_crowdedPair : Weighable narrow crowdedPair :=
  ⟨by constructor <;> decide, by decide, by decide, by decide⟩

/-- The peak of the pair is bounded by an edge, and then its first task is refused. -/
theorem refused_crowdedPair : ∃ error run,
    make false narrow crowdedPair = .failed (.refused error) run ∧
      error.stage? = some .listing ∧ run.graph ≠ crowdedPair := by
  have h := weighable_crowdedPair
  have hac : crowdedPair.Acyclic := TaskGraph.Acyclic.of_forward (by decide)
  have hvalid : narrow.validate = .ok () := Settings.validate_eq_ok_iff.2 (by decide +kernel)
  have hsized : Sized narrow crowdedPair :=
    ⟨h.wellFormed, h.slots_lt, h.bytes_le, by decide +kernel⟩
  have hreport : Reportable false crowdedPair := fun hfalse => by cases hfalse
  obtain ⟨error, run, hmake⟩ : ∃ error run,
      make false narrow crowdedPair = .failed (.refused error) run := by
    rcases make_of_reportable hsized hvalid hac hreport with ⟨-, hfit⟩ | ⟨hrefused, -⟩
    · exact absurd hfit (by decide +kernel)
    · exact hrefused
  have hbounded := (exists_boundPeak_iff h.wellFormed h.bytes_le false narrow.cmxSize).2
    ⟨hac, by decide, hreport⟩
  obtain ⟨_, _, hdone⟩ := hbounded
  have hpeak : 1200 ∈ crowdedPair.unorderedPeaks :=
    ⟨{0, 1}, TaskGraph.unordered_of_no_edges rfl (by decide), by decide⟩
  rcases make_cases h false with ⟨_, hinvalid, -⟩ | ⟨_, _, hfailed, -⟩ |
    ⟨cut, bounded, events, hbound, hcommits, ⟨fault, reports, hfailed, hfault⟩ | ⟨_, _, hmade⟩⟩
  · cases hvalid.symm.trans hinvalid
  · cases hdone.symm.trans hfailed
  · cases hmake.symm.trans hfailed
    refine ⟨error, _, hmake, hfault.stage, fun hsame => ?_⟩
    have hall := (boundPeak_eq_iff h.wellFormed hac h.bytes_le hbound hcommits).1 hsame
    exact absurd (hall 1200 hpeak) (by decide)
  · cases hmake.symm.trans hmade

/-- A refusal that leaves an edge: the two tasks are put in order before the first is
refused. -/
theorem make_changes_crowdedPair : Weighable narrow crowdedPair ∧ ∃ error run,
    make false narrow crowdedPair = .failed (.refused error) run ∧ run.graph ≠ crowdedPair := by
  obtain ⟨error, run, hmake, -, hchanged⟩ := refused_crowdedPair
  exact ⟨weighable_crowdedPair, error, run, hmake, hchanged⟩

/-- The refused pair has its tasks as before, and is in order. -/
theorem make_refused_graph_crowdedPair : Weighable narrow crowdedPair ∧ ∃ error run,
    make false narrow crowdedPair = .failed (.refused error) run ∧
      error.stage? = some .listing ∧ run.graph.tasks = crowdedPair.tasks ∧
      (∃ cut events, boundPeak false narrow.cmxSize crowdedPair = .done cut (run.graph, events)) ∧
      ¬ ∀ peak ∈ crowdedPair.unorderedPeaks, peak ≤ narrow.cmxSize := by
  obtain ⟨error, run, hmake, hstage, hchanged⟩ := refused_crowdedPair
  obtain ⟨htasks, -, -, hsame, hbounded⟩ := make_refused_graph weighable_crowdedPair hmake
  exact ⟨weighable_crowdedPair, error, run, hmake, hstage, htasks, hbounded hstage,
    fun hall => hchanged (hsame.2 (Or.inr hall))⟩

end Plan

end TaskLoom
