import TaskLoom.Plan
import TaskLoom.Proofs.Barrier.Wiring
import TaskLoom.Proofs.Frontier.Serialise
import TaskLoom.Proofs.Timetable.Ordering
import TaskLoom.Proofs.Timetable.Prefetch
import TaskLoom.Proofs.Timetable.Refusal

/-!
# When planning succeeds

Every stage hands the next one what it relies on: the bounded graph is acyclic, the
timetable is feasible for it, the ordering edges run forward in time, and the barriers
enforce the graph with those edges.  So the final checks pass, and a plan is refused
only for a reason that shows in the input.  The one other fault is the share of the
budget in a report, which leaves the word for a large peak.

## Main results

* `place_done`, `place_refused` — list scheduling places every task exactly if each
  one fits the hardware alone.
* `placeAll_done` — so does placing with prefetches.
* `complete_done` — a feasible timetable becomes a plan.
* `make_outcome` — how planning ends.
-/

namespace TaskLoom

namespace Plan

variable {g g' : TaskGraph} {settings : Settings}

/-- A graph and settings whose numbers fit a word: the barrier slots, the footprints of
all tasks together, and what each task is given. -/
structure Sized (settings : Settings) (g : TaskGraph) : Prop where
  wellFormed : g.WellFormed
  slots_lt : settings.slotsPerBarrier < Word.bound
  bytes_le : Word.total (g.ids.map g.cmxBytes) ≤ FlowNetwork.unbounded
  aligned_lt : ∀ id ∈ g.ids, (g.task id).alignedBytes settings < Word.bound

/-- New edges leave the numbers as they are. -/
theorem Sized.of_gains (h : Sized settings g) {pairs : List (Nat × Nat)} {count : Nat}
    (hgains : g.Gains g' pairs count) (hwf : g'.WellFormed) : Sized settings g' where
  wellFormed := hwf
  slots_lt := h.slots_lt
  bytes_le := by
    rw [TaskGraph.cmxBytes_congr hgains.tasks_eq, hgains.ids_eq]
    exact h.bytes_le
  aligned_lt := by
    rw [hgains.ids_eq, TaskGraph.task_congr hgains.tasks_eq]
    exact h.aligned_lt

/-! ## Placing -/

theorem Sized.prepared (h : Sized settings g) (hvalid : settings.validate = .ok ())
    {s : ListScheduler} (hgraph : s.graph = g) (hsettings : s.settings = settings) :
    s.Prepared := by
  subst hgraph hsettings
  refine ⟨h.wellFormed, hvalid, h.slots_lt, ?_⟩
  intro id hid size hsize
  exact Nat.lt_of_le_of_lt (Task.alignUp_le_alignedBytes hsize _) (h.aligned_lt id hid)

/-- One run of list scheduling gives a feasible timetable, or is refused because a task
does not fit alone. -/
theorem place_spec (h : Sized settings g) (hac : g.Acyclic) (hvalid : settings.validate = .ok ())
    (hints : Hints) :
    (∃ placements events, place g settings hints = .done placements events ∧
      Feasible g settings placements) ∨
    (∃ error events, place g settings hints = .failed (.refused error) events) ∧
      ∃ id ∈ g.ids, ¬ (g.task id).FitsAlone settings := by
  obtain ⟨s, levels, hcreate, -, -, hgraph, hsettings, -⟩ :=
    ListScheduler.create_spec h.wellFormed hac hvalid
  have hprepared : ListScheduler.Prepared { s with hints } :=
    h.prepared hvalid hgraph hsettings
  unfold place
  simp only [hcreate]
  rcases ListScheduler.schedule_spec hprepared with
    ⟨placements, hok, hfeasible⟩ | ⟨waiting, r, herror, hstuck⟩
  · simp only [hgraph, hsettings] at hfeasible
    exact Or.inl ⟨placements, _, by rw [hok], hfeasible⟩
  · have hunfit := hstuck.exists_unfit (by simpa [hgraph])
    obtain ⟨error, hrefused⟩ := hstuck.refused hprepared
      (by simpa [hgraph, hsettings] using h.aligned_lt) waiting
    rw [hrefused] at herror
    simp only [hgraph, hsettings] at hunfit
    exact Or.inr ⟨⟨error, _, by rw [herror]⟩, hunfit⟩

/-- If every task fits alone, all are placed. -/
theorem place_done (h : Sized settings g) (hac : g.Acyclic) (hvalid : settings.validate = .ok ())
    (hfit : ∀ id ∈ g.ids, (g.task id).FitsAlone settings) (hints : Hints) :
    ∃ placements events, place g settings hints = .done placements events ∧
      Feasible g settings placements := by
  rcases place_spec h hac hvalid hints with hdone | ⟨-, id, hid, hunfit⟩
  · exact hdone
  · exact absurd (hfit id hid) hunfit

/-- If some task does not fit alone, the run is refused. -/
theorem place_refused (h : Sized settings g) (hac : g.Acyclic)
    (hvalid : settings.validate = .ok ()) {id : Nat} (hid : id ∈ g.ids)
    (hunfit : ¬ (g.task id).FitsAlone settings) (hints : Hints) :
    ∃ error events, place g settings hints = .failed (.refused error) events := by
  rcases place_spec h hac hvalid hints with ⟨placements, events, -, hfeasible⟩ | ⟨hrefused, -⟩
  · exact absurd (hfeasible.fitsAlone id hid) hunfit
  · exact hrefused

/-- Placing again for prefetches does not fail either. -/
theorem replace_done (h : Sized settings g) (hac : g.Acyclic) (hvalid : settings.validate = .ok ())
    (hfit : ∀ id ∈ g.ids, (g.task id).FitsAlone settings) (limits : PrefetchLimits)
    {placements : List Placement} (hfeasible : Feasible g settings placements) :
    ∃ again hinted reports, replace g settings limits placements = .done (again, hinted) reports ∧
      Feasible g settings again := by
  obtain ⟨found, hfound⟩ :=
    @findPrefetches_done g limits settings placements h.wellFormed hfeasible h.aligned_lt
      settings.cmxSize
  unfold replace
  rw [hfound]
  cases found with
  | nil => exact ⟨placements, 0, _, rfl, hfeasible⟩
  | cons first rest =>
    obtain ⟨again, events, hplace, hagain⟩ :=
      place_done h hac hvalid hfit (Hints.ofPrefetches (first :: rest))
    simp only [hplace]
    exact ⟨again, _, _, rfl, hagain⟩

/-- If every task fits alone, placing with prefetches gives a feasible timetable. -/
theorem placeAll_done (h : Sized settings g) (hac : g.Acyclic)
    (hvalid : settings.validate = .ok ())
    (hfit : ∀ id ∈ g.ids, (g.task id).FitsAlone settings) :
    ∃ placements hinted reports, placeAll g settings = .done (placements, hinted) reports ∧
      Feasible g settings placements := by
  obtain ⟨placements, events, hplace, hfeasible⟩ := place_done h hac hvalid hfit []
  unfold placeAll
  simp only [hplace]
  cases settings.prefetch with
  | none =>
    exact ⟨_, _, _, rfl, hfeasible.perm (Timetable.sorted_perm placements).symm⟩
  | some limits =>
    obtain ⟨again, hinted, reports, hreplace, hagain⟩ :=
      replace_done h hac hvalid hfit limits hfeasible
    simp only [hreplace]
    exact ⟨_, _, _, rfl, hagain.perm (Timetable.sorted_perm again).symm⟩

theorem placeAll_refused (h : Sized settings g) (hac : g.Acyclic)
    (hvalid : settings.validate = .ok ()) {id : Nat} (hid : id ∈ g.ids)
    (hunfit : ¬ (g.task id).FitsAlone settings) :
    ∃ error reports, placeAll g settings = .failed (.refused error) reports := by
  obtain ⟨error, events, hplace⟩ := place_refused h hac hvalid hid hunfit []
  unfold placeAll
  simp only [hplace]
  exact ⟨error, _, rfl⟩

/-! ## Writing the decisions -/

/-- The tasks may be annotated, but the graph has the same work and the same edges. -/
structure SameWork (g g' : TaskGraph) : Prop where
  edges_eq : g'.edges = g.edges
  size_eq : g'.tasks.size = g.tasks.size
  ids_eq : g'.ids = g.ids
  name_eq : ∀ id, (g'.task id).name = (g.task id).name
  kind_eq : ∀ id, (g'.task id).kind = (g.task id).kind
  buffers_eq : ∀ id, (g'.task id).buffers = (g.task id).buffers

theorem SameWork.refl (g : TaskGraph) : SameWork g g :=
  ⟨rfl, rfl, rfl, fun _ => rfl, fun _ => rfl, fun _ => rfl⟩

theorem SameWork.trans {g'' : TaskGraph} (h : SameWork g g') (h' : SameWork g' g'') :
    SameWork g g'' where
  edges_eq := h'.edges_eq.trans h.edges_eq
  size_eq := h'.size_eq.trans h.size_eq
  ids_eq := h'.ids_eq.trans h.ids_eq
  name_eq id := (h'.name_eq id).trans (h.name_eq id)
  kind_eq id := (h'.kind_eq id).trans (h.kind_eq id)
  buffers_eq id := (h'.buffers_eq id).trans (h.buffers_eq id)

/-- A task with the decisions of a plan in place of any that were noted on it before. -/
def decided (barriers : List VirtualBarrier) (p : Placement) (number : Nat) (t : Task) : Task :=
  { t with
    time := some p.time
    number := some number
    waits := VirtualBarrier.waitsOf barriers p.task
    updates := VirtualBarrier.updatesOf barriers p.task }

theorem task_writeDecision (barriers : List VirtualBarrier) {p : Placement} (number : Nat)
    (hp : p.task ∈ g.ids) (id : Nat) :
    (writeDecision barriers g (p, number)).task id =
      if id = p.task then decided barriers p number (g.task p.task) else g.task id :=
  TaskGraph.task_setTask hp _ id

/-- A decision is written on a task without changing its work. -/
theorem sameWork_writeDecision (barriers : List VirtualBarrier) {p : Placement} (number : Nat)
    (hp : p.task ∈ g.ids) : SameWork g (writeDecision barriers g (p, number)) := by
  refine ⟨rfl, by simp [writeDecision, TaskGraph.setTask], TaskGraph.ids_setTask hp _, ?_, ?_, ?_⟩
  all_goals
    intro id
    rw [task_writeDecision barriers number hp]
    split
    · next heq => rw [heq, decided]
    · rfl

theorem sameWork_writeDecisions {placements : List Placement}
    (hplaced : ∀ p ∈ placements, p.task ∈ g.ids) (barriers : List VirtualBarrier) :
    SameWork g (writeDecisions g placements barriers) := by
  have hrun : ∀ (entries : List (Placement × Nat)) (g' : TaskGraph), SameWork g g' →
      (∀ e ∈ entries, e.1.task ∈ g.ids) →
        SameWork g (entries.foldl (writeDecision barriers) g') := by
    intro entries
    induction entries with
    | nil => exact fun _ h _ => h
    | cons e rest ih =>
      intro g' h hentries
      obtain ⟨he, hrest⟩ := List.forall_mem_cons.1 hentries
      exact ih _ (h.trans (sameWork_writeDecision barriers e.2 (h.ids_eq.symm ▸ he))) hrest
  refine hrun placements.zipIdx g (.refl g) fun e he => hplaced e.1 ?_
  exact List.mem_of_getElem? (List.mem_zipIdx_iff_getElem?.1 he)

theorem SameWork.joins_iff (h : SameWork g g') {u v : Nat} : g'.Joins u v ↔ g.Joins u v := by
  unfold TaskGraph.Joins
  rw [h.edges_eq]

theorem SameWork.posters_eq (h : SameWork g g') : g'.posters = g.posters := by
  unfold TaskGraph.posters Task.demand
  rw [h.ids_eq]
  simp only [h.kind_eq]

theorem SameWork.wellFormed (h : SameWork g g') (hg : g.WellFormed) : g'.WellFormed where
  source_mem e he := h.ids_eq.symm ▸ hg.source_mem e (h.edges_eq ▸ he)
  target_mem e he := h.ids_eq.symm ▸ hg.target_mem e (h.edges_eq ▸ he)
  posters_lt := h.posters_eq.symm ▸ hg.posters_lt

theorem SameWork.cmxBytes_eq (h : SameWork g g') : g'.cmxBytes = g.cmxBytes := by
  funext id
  unfold TaskGraph.cmxBytes Task.sizesIn
  rw [h.buffers_eq]

/-- A timetable is as feasible with the annotations as without. -/
theorem SameWork.feasible (h : SameWork g g') {placements : List Placement}
    (hfeasible : Feasible g settings placements) : Feasible g' settings placements where
  orders := by
    refine ⟨h.ids_eq.symm ▸ hfeasible.orders.perm, fun p hp q hq hjoins => ?_⟩
    exact hfeasible.orders.forward p hp q hq (h.joins_iff.1 hjoins)
  fits p hp := by
    have hfits := hfeasible.fits p hp
    have hdemand : (g'.task p.task).demand = (g.task p.task).demand := by
      unfold Task.demand
      rw [h.kind_eq]
    refine ⟨?_, ?_, hfits.barrier_mem, hfits.nodup_buffers, ?_, ?_⟩
    · rw [hdemand]
      exact hfits.slots_eq
    · rw [hdemand]
      exact hfits.barrier_iff
    · rw [h.buffers_eq]
      exact hfits.mem_buffers
    · rw [h.buffers_eq]
      exact hfits.length_eq
  steps := hfeasible.steps

theorem SameWork.enforced (h : SameWork g g') {placements : List Placement}
    {barriers : List VirtualBarrier} (henforced : Timetable.Enforced g placements barriers) :
    Timetable.Enforced g' placements barriers where
  numbered := henforced.numbered
  sides := henforced.sides
  times := h.ids_eq.symm ▸ henforced.times
  chains u v hu huv :=
    henforced.chains u v hu (huv.lift id fun _ _ hjoins => h.joins_iff.1 hjoins)

/-! ## The end of a run -/

/-- A feasible timetable of a graph with its barriers passes all checks. -/
theorem check_ok (hg : g.WellFormed) (hbytes : Word.total (g.ids.map g.cmxBytes) < Word.bound)
    {placements : List Placement} {barriers : List VirtualBarrier}
    (hfeasible : Feasible g settings placements)
    (henforced : Timetable.Enforced g placements barriers) :
    check g settings placements barriers = .ok () := by
  unfold check
  rw [Timetable.checkDependencies_ok hg hfeasible.orders,
    Timetable.checkMemory_ok hfeasible hbytes]
  exact Timetable.checkBarriers_ok hfeasible.orders henforced

/-- A feasible timetable stays feasible with edges that it keeps. -/
theorem feasible_of_gains {pairs : List (Nat × Nat)} {count : Nat} {placements : List Placement}
    (hgains : g.Gains g' pairs count) (horders : Timetable.Orders g' placements)
    (hfeasible : Feasible g settings placements) : Feasible g' settings placements where
  orders := horders
  fits := by
    rw [TaskGraph.task_congr hgains.tasks_eq]
    exact hfeasible.fits
  steps := hfeasible.steps

/-- A feasible timetable becomes a plan. -/
theorem complete_done (h : Sized settings g) {placements : List Placement}
    (hfeasible : Feasible g settings placements) (peak : Frontier) (edges prefetched : Nat)
    (reports : List StageReport) :
    ∃ plan run, complete settings peak edges placements prefetched g reports =
      .done plan run := by
  have hword : FlowNetwork.unbounded < Word.bound := by decide
  obtain ⟨count, g₁, happly, hgains, hwf, horders⟩ :=
    settings.ordering.apply_spec h.wellFormed hfeasible.orders
  have hsized := h.of_gains hgains hwf
  have hfeasible₁ := feasible_of_gains hgains horders hfeasible
  have hsame := sameWork_writeDecisions (fun p hp => horders.task_mem hp) (wire g₁ placements)
  have hcheck : check (writeDecisions g₁ placements (wire g₁ placements)) settings placements
      (wire g₁ placements) = .ok () := by
    refine check_ok (hsame.wellFormed hwf) ?_ (hsame.feasible hfeasible₁)
      (hsame.enforced (enforced_wire hwf horders))
    rw [hsame.cmxBytes_eq, hsame.ids_eq]
    exact Nat.lt_of_le_of_lt hsized.bytes_le hword
  unfold complete
  simp only [happly, hcheck]
  exact ⟨_, _, rfl⟩

/-! ## The whole run -/

/-- A task that is too heavy for the frontier does not fit alone. -/
theorem not_fitsAlone_of_oversized {task : Nat}
    (h : Serialiser.Oversized g settings.cmxSize task) : ¬ (g.task task).FitsAlone settings := by
  intro hfits
  have hle := g.cmxBytes_le_alignedBytes settings task
  have hlt := h.budget_lt
  have hcmx := hfits.1
  omega

/-- The peak in a report, where there is one, can be given in percent. -/
def Reportable (observed : Bool) (g : TaskGraph) : Prop :=
  observed = true → ∀ peak ∈ g.unorderedPeaks, peak * 100 < Word.bound

/-- A valid run over an acyclic graph ends with a plan if every task fits alone, and is
refused otherwise. -/
theorem make_of_reportable (h : Sized settings g) {observed : Bool}
    (hvalid : settings.validate = .ok ()) (hac : g.Acyclic) (hreport : Reportable observed g) :
    (∃ plan run, make observed settings g = .done plan run) ∧
        (∀ id ∈ g.ids, (g.task id).FitsAlone settings) ∨
      (∃ error run, make observed settings g = .failed (.refused error) run) ∧
        ¬ ∀ id ∈ g.ids, (g.task id).FitsAlone settings := by
  unfold make
  simp only [hvalid]
  rcases boundPeak_spec h.wellFormed hac h.bytes_le hreport settings.cmxSize with
    ⟨peak, g₁, events, pairs, count, hbound, hgains, hwf, hac₁, -, -⟩ |
      ⟨task, events, hoversized, hbound⟩
  · have hsized := h.of_gains hgains hwf
    have hsame : (∀ id ∈ g₁.ids, (g₁.task id).FitsAlone settings) ↔
        ∀ id ∈ g.ids, (g.task id).FitsAlone settings := by
      rw [hgains.ids_eq, TaskGraph.task_congr hgains.tasks_eq]
    simp only [hbound, ← hsame]
    by_cases hfit : ∀ id ∈ g₁.ids, (g₁.task id).FitsAlone settings
    · obtain ⟨placements, hinted, reports, hplace, hfeasible⟩ :=
        placeAll_done hsized hac₁ hvalid hfit
      obtain ⟨plan, run, hdone⟩ := complete_done hsized hfeasible peak
        (g₁.controlCount - g.controlCount) hinted (.peak events :: reports)
      simp only [hplace]
      exact Or.inl ⟨⟨plan, run, hdone⟩, hfit⟩
    · have hunfit : ∃ id ∈ g₁.ids, ¬ (g₁.task id).FitsAlone settings := by
        simpa only [not_forall, exists_prop] using hfit
      obtain ⟨id, hid, hnot⟩ := hunfit
      obtain ⟨error, reports, hplace⟩ := placeAll_refused hsized hac₁ hvalid hid hnot
      simp only [hplace]
      exact Or.inr ⟨⟨error, _, rfl⟩, hfit⟩
  · simp only [hbound]
    refine Or.inr ⟨⟨_, _, rfl⟩, fun hfit => ?_⟩
    exact not_fitsAlone_of_oversized hoversized (hfit task hoversized.mem_ids)

/-- The run of someone who follows it overflows if the peak in percent leaves the word. -/
theorem make_of_not_reportable (h : Sized settings g) {observed : Bool}
    (hvalid : settings.validate = .ok ()) (hac : g.Acyclic) (hreport : ¬ Reportable observed g) :
    ∃ run, make observed settings g = .failed .overflow run := by
  simp only [Reportable, not_forall, Nat.not_lt] at hreport
  obtain ⟨rfl, peak, hpeak, hlarge⟩ := hreport
  obtain ⟨events, hbound⟩ :=
    boundPeak_overflow h.wellFormed hac h.bytes_le hpeak hlarge settings.cmxSize
  unfold make
  simp only [hvalid, hbound]
  exact ⟨_, rfl⟩

/-- Invalid settings and cycles are refused. -/
theorem make_refused (h : Sized settings g) {observed : Bool}
    (hinput : ¬ (settings.validate = .ok () ∧ g.Acyclic)) :
    ∃ error run, make observed settings g = .failed (.refused error) run := by
  unfold make
  cases hvalid : settings.validate with
  | error error => exact ⟨error, _, rfl⟩
  | ok _ =>
    have hcyclic : ¬ g.Acyclic := fun hac => hinput ⟨hvalid, hac⟩
    obtain ⟨name, hbound⟩ :=
      @boundPeak_cyclic g observed h.wellFormed hcyclic h.bytes_le settings.cmxSize
    simp only [hbound]
    exact ⟨.cyclic name, _, rfl⟩

/-- Planning ends with a plan exactly if the settings are valid, the graph is acyclic and
every task fits the hardware alone, and is refused otherwise; only if the peak in a
report cannot be given in percent, it overflows instead. -/
theorem make_outcome (h : Sized settings g) (observed : Bool) :
    ((∃ plan run, make observed settings g = .done plan run) ↔
      settings.validate = .ok () ∧ g.Acyclic ∧
        (∀ id ∈ g.ids, (g.task id).FitsAlone settings) ∧ Reportable observed g) ∧
    ((∃ run, make observed settings g = .failed .overflow run) ↔
      settings.validate = .ok () ∧ g.Acyclic ∧ ¬ Reportable observed g) ∧
    ((∃ plan run, make observed settings g = .done plan run) ∨
      (∃ run, make observed settings g = .failed .overflow run) ∨
      ∃ error run, make observed settings g = .failed (.refused error) run) := by
  by_cases hinput : settings.validate = .ok () ∧ g.Acyclic
  · obtain ⟨hvalid, hac⟩ := hinput
    by_cases hreport : Reportable observed g
    · rcases make_of_reportable h hvalid hac hreport with
        ⟨⟨plan, run, hmake⟩, hfit⟩ | ⟨⟨error, run, hmake⟩, hunfit⟩
      · simp only [hmake, hvalid, hac, hreport]
        simpa using hfit
      · simp only [hmake, hvalid, hac, hreport]
        simpa using hunfit
    · obtain ⟨run, hmake⟩ := make_of_not_reportable h hvalid hac hreport
      simp [hmake, hvalid, hac, hreport]
  · obtain ⟨error, run, hmake⟩ := @make_refused g settings h observed hinput
    have hnot : ∀ rest, ¬ (settings.validate = .ok () ∧ g.Acyclic ∧ rest) :=
      fun rest hall => hinput ⟨hall.1, hall.2.1⟩
    simp [hmake, hnot]

/-- No unordered tasks need more than all tasks together. -/
theorem reportable_of_total (hbytes : Word.total (g.ids.map g.cmxBytes) * 100 < Word.bound)
    (observed : Bool) : Reportable observed g := by
  rintro - peak ⟨tasks, htasks, rfl⟩
  have hsub : tasks ⊆ g.ids.toFinset := fun id hid => List.mem_toFinset.2 (htasks.mem_ids id hid)
  have hle := Finset.sum_le_sum_of_subset (f := g.cmxBytes) hsub
  rw [← FlowNetwork.total_map_eq_sum g.nodup_ids] at hle
  omega

theorem make_outcome_diamond :
    let settings : Settings := { cmxSize := 256, barrierCount := 2, slotsPerBarrier := 4 }
    Sized settings .diamond ∧ ∃ plan run, make true settings .diamond = .done plan run := by
  intro settings
  have hsized : Sized settings .diamond :=
    ⟨TaskGraph.wellFormed_diamond, by decide, by decide, by decide +kernel⟩
  refine ⟨hsized, (make_outcome hsized true).1.2 ⟨?_, TaskGraph.acyclic_diamond, ?_, ?_⟩⟩
  · exact Settings.validate_eq_ok_iff.2 (by decide +kernel)
  · decide +kernel
  · exact reportable_of_total (by decide) true

/-- One task that needs a large scratch memory. -/
def heavyLoad : TaskGraph where
  tasks := #[some { name := "a", kind := .dma, buffers := [⟨"a", 2 ^ 58, .cmx, none⟩] }]

/-- The task fits the hardware alone, but its share of it overflows in a report. -/
theorem make_overflow_heavyLoad :
    let settings : Settings := { cmxSize := 2 ^ 58 }
    Sized settings heavyLoad ∧ settings.validate = .ok () ∧ heavyLoad.Acyclic ∧
      (∀ id ∈ heavyLoad.ids, (heavyLoad.task id).FitsAlone settings) ∧
      ∃ run, make true settings heavyLoad = .failed .overflow run := by
  intro settings
  have hsized : Sized settings heavyLoad :=
    ⟨by constructor <;> decide, by decide, by decide, by decide +kernel⟩
  have hac : heavyLoad.Acyclic := by
    refine @TaskGraph.Acyclic.of_rank heavyLoad (fun id => id) ?_
    rintro u v ⟨e, he, -⟩
    cases he
  have hvalid : settings.validate = .ok () := Settings.validate_eq_ok_iff.2 (by decide +kernel)
  refine ⟨hsized, hvalid, hac, by decide +kernel, make_of_not_reportable hsized hvalid hac ?_⟩
  intro hreport
  have hlt := hreport rfl (2 ^ 58)
    ⟨{0}, Serialiser.unordered_singleton (by decide), by decide⟩
  exact absurd hlt (by decide)

end Plan

end TaskLoom
