import TaskLoom.Proofs.Barrier.Matching
import TaskLoom.Proofs.Frontier.Lockstep
import TaskLoom.Proofs.Plan.Refused
import TaskLoom.Proofs.Timetable.Matching

/-!
# Plans of matching graphs

A plan depends on the tasks of a graph and on which of them are joined.  In which order the
edges were added, how often two tasks are joined and for what reason plays no part.

Each stage takes matching graphs to matching graphs and the same decisions, so a run over
two of them stays in step from its start to its end.  At the end the graphs still differ
in their edges, and so may the list of the dependencies that lead past the peak, but only in
its order and repeats.

## Main results

* `placeAll_congr` — the tasks of matching graphs are placed alike.
* `complete_congr` — a timetable becomes the same plan.
* `make_congr` — matching graphs have the same plan, or are refused for the same reason.
-/

namespace TaskLoom

/-- The control edges of a policy are the same for matching graphs, which match with them. -/
theorem OrderingPolicy.apply_congr {g g' : TaskGraph} {placements : List Placement}
    (policy : OrderingPolicy) (hmatch : g.Matches g') (hg : g.WellFormed) (hg' : g'.WellFormed)
    (horders : Timetable.Orders g placements) :
    Outcome.Agree (fun count h count' h' => count' = count ∧ h.Matches h')
      (policy.apply g placements) (policy.apply g' placements) := by
  unfold apply
  rw [policy.pairs_congr hmatch.task_eq]
  refine hmatch.addControlEdges hg hg' fun pair hpair => ?_
  obtain ⟨p, hp, q, hq, rfl, -⟩ := policy.forward_pairs g placements pair hpair
  exact ⟨horders.task_mem hp, horders.task_mem hq⟩

namespace Plan

variable {g g' : TaskGraph} {settings : Settings}

theorem Weighable.of_matches (h : Weighable settings g) (hmatch : g.Matches g')
    (hg' : g'.WellFormed) : Weighable settings g' where
  wellFormed := hg'
  slots_lt := h.slots_lt
  cmx_lt := h.cmx_lt
  bytes_le := hmatch.total_eq.trans_le h.bytes_le

/-! ## Placing -/

section

variable (h : Weighable settings g) (hg' : g'.WellFormed) (hmatch : g.Matches g')
  (hac : g.Acyclic) (hvalid : settings.validate = .ok ())

include h hg' hmatch hac hvalid

theorem place_congr (hints : Hints) :
    Outcome.Agree (fun placements _ placements' _ => placements' = placements)
      (place g settings hints) (place g' settings hints) := by
  obtain ⟨s, levels, hcreate, -, hhas, rfl, rfl, hranked⟩ :=
    ListScheduler.create_spec h.wellFormed hac hvalid
  obtain ⟨s', levels', hcreate', -, hhas', rfl, hsettings, hranked'⟩ :=
    ListScheduler.create_spec hg' (hmatch.acyclic_iff.2 hac) hvalid
  have hresult := @ListScheduler.schedule_result { s with hints } h.wellFormed hac hvalid
    h.slots_lt hranked.ranksApart
  have hresult' := @ListScheduler.schedule_result { s' with hints } hg'
    (hmatch.acyclic_iff.2 hac) (hsettings.symm ▸ hvalid) (hsettings.symm ▸ h.slots_lt)
    hranked'.ranksApart
  have hcorresponds : ListScheduler.Corresponds { s with hints } { s' with hints } :=
    .of_ranked hmatch h.wellFormed hsettings rfl hhas hhas' hranked hranked'
  unfold place
  simp only [hcreate, hcreate', hresult.1, hresult'.1, hcorresponds.schedule_eq]
  cases ListScheduler.Plain.schedule { s with hints } with
  | error fault => exact .failed fault _ _
  | ok placements => exact .done rfl

theorem replace_congr (limits : PrefetchLimits) (placements : List Placement) :
    Outcome.Agree (fun again _ again' _ => again' = again)
      (replace g settings limits placements) (replace g' settings limits placements) := by
  unfold replace
  rw [hmatch.findPrefetches_eq]
  split
  · exact .failed _ _ _
  · exact .done rfl
  · next found _ _ =>
    have hagree := place_congr h hg' hmatch hac hvalid (Hints.ofPrefetches found)
    simp only
    generalize place g settings (Hints.ofPrefetches found) = o,
      place g' settings (Hints.ofPrefetches found) = o' at hagree ⊢
    cases hagree with
    | failed fault events events' => exact .failed fault _ _
    | done hsame =>
      subst hsame
      exact .done rfl

/-- The tasks of matching graphs are placed alike. -/
theorem placeAll_congr :
    Outcome.Agree (fun placed _ placed' _ => placed' = placed)
      (placeAll g settings) (placeAll g' settings) := by
  have hagree := place_congr h hg' hmatch hac hvalid []
  unfold placeAll
  generalize place g settings [] = o, place g' settings [] = o' at hagree ⊢
  cases hagree with
  | failed fault events events' => exact .failed fault _ _
  | @done _ events placements events' hsame =>
    subst hsame
    cases settings.prefetch with
    | none => exact .done rfl
    | some limits =>
      have hagain := replace_congr h hg' hmatch hac hvalid limits placements
      simp only
      generalize replace g settings limits placements = o,
        replace g' settings limits placements = o' at hagain ⊢
      cases hagain with
      | failed fault reports reports' => exact .failed fault _ _
      | done hsame =>
        subst hsame
        exact .done rfl

end

/-! ## Completing -/

/-- Two plans that differ at most in how the dependencies that lead past the peak are
listed. -/
structure Alike (p p' : Plan) : Prop where
  peaks : p.peak.Alike p'.peak
  others_eq : p' = { p with peak := p'.peak }

theorem complete_plan {peak : Frontier} {edges prefetched : Nat} {placements : List Placement}
    {reports : List StageReport} {plan : Plan} {run : PlanRun}
    (h : complete settings peak edges placements prefetched g reports = .done plan run) :
    ∃ count g₁, settings.ordering.apply g placements = .done count g₁ ∧
      plan = ⟨placements, wire g₁ placements, edges, prefetched, count, peak,
        Timetable.makespan placements⟩ := by
  unfold complete at h
  split at h
  · cases h
  · next count g₁ happly =>
    simp only at h
    split at h
    · cases h
    · cases h
      exact ⟨count, g₁, happly, rfl⟩

/-- A timetable of matching graphs becomes the same plan. -/
theorem complete_congr (h : Weighable settings g) (h' : Weighable settings g')
    (hmatch : g.Matches g') {placements : List Placement}
    (hfeasible : Feasible g settings placements) (hfeasible' : Feasible g' settings placements)
    {peak peak' : Frontier} (hpeaks : peak.Alike peak') (edges prefetched : Nat)
    (reports reports' : List StageReport) :
    Outcome.Agree (fun plan _ plan' _ => plan.Alike plan')
      (complete settings peak edges placements prefetched g reports)
      (complete settings peak' edges placements prefetched g' reports') := by
  -- both end with a plan, so only the parts of the plans are left to compare
  obtain ⟨plan, run, hplan⟩ := complete_done (h.sized hfeasible) hfeasible peak edges prefetched
    reports
  obtain ⟨plan', run', hplan'⟩ := complete_done (h'.sized hfeasible') hfeasible' peak' edges
    prefetched reports'
  obtain ⟨count, g₁, happly, rfl⟩ := complete_plan hplan
  obtain ⟨count', g₁', happly', rfl⟩ := complete_plan hplan'
  obtain ⟨_, _, hspec, -, hwf, horders⟩ :=
    settings.ordering.apply_spec h.wellFormed hfeasible.orders
  obtain ⟨_, _, hspec', -, hwf', -⟩ :=
    settings.ordering.apply_spec h'.wellFormed hfeasible'.orders
  cases happly.symm.trans hspec
  cases happly'.symm.trans hspec'
  have hagree := settings.ordering.apply_congr hmatch h.wellFormed h'.wellFormed hfeasible.orders
  rw [happly, happly'] at hagree
  cases hagree with
  | done hsame =>
    obtain ⟨rfl, hmatch₁⟩ := hsame
    rw [hplan, hplan', hmatch₁.wire_eq hwf hwf' horders]
    exact .done ⟨hpeaks, rfl⟩

/-! ## The whole run -/

/-- The plan of a graph is the same however its edges are drawn.  Two graphs that have the
same tasks and join the same pairs of them, by edges added in any order, any number of times
and for any reason, are refused or stopped by the same fault, or have plans that differ at
most in how the dependencies that lead past the peak are listed. -/
theorem make_congr (h : Weighable settings g) (hg' : g'.WellFormed) (hmatch : g.Matches g')
    (observed : Bool) :
    Outcome.Agree (fun plan _ plan' _ => plan.Alike plan')
      (make observed settings g) (make observed settings g') := by
  unfold make
  cases hvalid : settings.validate with
  | error error => exact .failed _ _ _
  | ok _ =>
    have hagree := boundPeak_congr hmatch h.wellFormed hg' h.bytes_le observed settings.cmxSize
    generalize hbound : boundPeak observed settings.cmxSize g = o,
      hbound' : boundPeak observed settings.cmxSize g' = o' at hagree ⊢
    cases hagree with
    | failed fault state state' => exact .failed fault _ _
    | @done cut state cut' state' hsame =>
      obtain ⟨bounded, events⟩ := state
      obtain ⟨bounded', events'⟩ := state'
      obtain ⟨hwf, htasks⟩ := boundPeak_done h.wellFormed hbound
      obtain ⟨hwf', -⟩ := boundPeak_done hg' hbound'
      have hweighable := h.of_tasks hwf htasks
      have hweighable' := hweighable.of_matches hsame.graphs hwf'
      have hplaced := placeAll_congr hweighable hwf' hsame.graphs hsame.acyclic hvalid
      simp only [hsame.inserted_eq]
      generalize hplace : placeAll bounded settings = o,
        hplace' : placeAll bounded' settings = o' at hplaced ⊢
      cases hplaced with
      | failed fault reports reports' => exact .failed fault _ _
      | @done _ reports placed reports' hsamePlaced =>
        subst hsamePlaced
        obtain ⟨placements, prefetched⟩ := placed
        exact complete_congr hweighable hweighable' hsame.graphs
          (feasible_of_placeAll hweighable.worded hplace)
          (feasible_of_placeAll hweighable'.worded hplace') hsame.peaks _ prefetched _ _

/-- Two tasks that both come before two others.  Either pair is a heaviest frontier. -/
def weave : TaskGraph where
  tasks := #[
    some { name := "a", kind := .dma, buffers := [⟨"a", 100, .cmx, none⟩] },
    some { name := "b", kind := .compute 2, buffers := [⟨"b", 100, .cmx, none⟩] },
    some { name := "c", kind := .compute 2, buffers := [⟨"c", 100, .cmx, none⟩] },
    some { name := "d", kind := .dma, buffers := [⟨"d", 100, .cmx, none⟩] }]
  edges := [⟨3, 1, 3, .data⟩, ⟨2, 1, 2, .data⟩, ⟨1, 0, 3, .data⟩, ⟨0, 0, 2, .data⟩]
  slotCount := 4

/-- The same tasks, joined in another order, for other reasons, and two of them twice. -/
def weaveRedrawn : TaskGraph :=
  { weave with
    edges := [⟨4, 1, 2, .control⟩, ⟨3, 0, 2, .data⟩, ⟨2, 1, 2, .data⟩, ⟨1, 1, 3, .control⟩,
      ⟨0, 0, 3, .control⟩]
    slotCount := 5 }

theorem weave_matches : weave.Matches weaveRedrawn where
  task?_eq _ := rfl
  joins_iff u v := by
    simp only [TaskGraph.Joins, weave, weaveRedrawn, List.mem_cons, List.not_mem_nil,
      or_false, exists_eq_or_imp, exists_eq_left]
    tauto

/-- Both drawings have a plan, and the plans are alike. -/
theorem make_congr_weave :
    let settings : Settings := { cmxSize := 128, barrierCount := 2, slotsPerBarrier := 4 }
    Weighable settings weave ∧ weaveRedrawn.WellFormed ∧ weave.Matches weaveRedrawn ∧
      ∃ plan run plan' run', make true settings weave = .done plan run ∧
        make true settings weaveRedrawn = .done plan' run' ∧ plan.Alike plan' := by
  intro settings
  have h : Weighable settings weave :=
    ⟨by constructor <;> decide, by decide, by decide, by decide⟩
  have hredrawn : weaveRedrawn.WellFormed := by constructor <;> decide
  have hsized : Sized settings weave :=
    ⟨h.wellFormed, h.slots_lt, h.bytes_le, by decide +kernel⟩
  have hagree := make_congr h hredrawn weave_matches true
  refine ⟨h, hredrawn, weave_matches, ?_⟩
  rcases make_of_reportable hsized (Settings.validate_eq_ok_iff.2 (by decide +kernel))
    (TaskGraph.Acyclic.of_forward (by decide)) (reportable_of_total (by decide) true) with
    ⟨⟨plan, run, hmake⟩, -⟩ | ⟨-, hunfit⟩
  · rw [hmake] at hagree
    generalize make true settings weaveRedrawn = o at hagree ⊢
    cases hagree with
    | @done _ _ plan' run' halike => exact ⟨plan, run, plan', run', hmake, rfl, halike⟩
  · exact absurd (by decide +kernel) hunfit

end Plan

end TaskLoom
