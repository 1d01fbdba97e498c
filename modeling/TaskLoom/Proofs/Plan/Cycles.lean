import TaskLoom.Proofs.Frontier.Heaviest
import TaskLoom.Proofs.Timetable.Listing
import TaskLoom.Plan

/-!
# Which task stands for a cycle

A graph with a cycle has no order, and whoever needs one refuses the graph: the levels,
the serialiser, list scheduling and planning.  All of them name the same task.  It is the
lowest of the tasks that cannot be listed, which are those on a cycle and those that come
after one.  So the named task need not lie on a cycle itself: a task that only waits for
a cycle is named if its id is lower than those of the cycle.

The serialiser adds up footprints before it asks for the order.  A footprint that is no
word hides the cycle from it, and from planning.

## Main results

* `reports_lowest_tangled` — the task that is named, stage by stage.
* `topologicalOrder_towed` — a graph in which it lies on no cycle.
-/

namespace TaskLoom

/-! ## Stages that need an order -/

section

variable {g : TaskGraph} {error : ScheduleError}

/-- What the lack of an order is reported as after the footprints were added up. -/
def orderFault (g : TaskGraph) (error : ScheduleError) : Fault :=
  if ∀ id ∈ g.ids, g.cmxBytes id < Word.bound then .refused error else .overflow

theorem TaskGraph.levels_of_error (horder : g.topologicalOrder = .error error) :
    g.levels = .error error := by
  unfold TaskGraph.levels
  rw [horder]
  rfl

theorem Serialiser.ofGraph_orderFault (horder : g.topologicalOrder = .error error) (budget : Nat) :
    ofGraph g budget = .error (orderFault g error) := by
  unfold orderFault
  split
  · next hfit => exact ofGraph_of_error horder hfit budget
  · next hlarge =>
    simp only [not_forall, Nat.not_lt] at hlarge
    obtain ⟨id, hid, hbound⟩ := hlarge
    exact ofGraph_overflow hid hbound budget

theorem ListScheduler.create_of_error {settings : Settings}
    (horder : g.topologicalOrder = .error error) (hvalid : settings.validate = .ok ()) :
    create g settings = .error error := by
  unfold create
  rw [hvalid, TaskGraph.levels_of_error horder]
  rfl

/-- Nothing is planned, and the graph stays as it is. -/
theorem Plan.make_of_error {settings : Settings} (horder : g.topologicalOrder = .error error)
    (hvalid : settings.validate = .ok ()) (observed : Bool) :
    make observed settings g = .failed (orderFault g error) ⟨g, [.peak []]⟩ := by
  unfold make boundPeak
  rw [hvalid, Serialiser.ofGraph_orderFault horder]

end

/-! ## The task that is named -/

/-- A graph with a cycle is refused under the name of its lowest tangled task.  That task
lies on a cycle exactly if no task that a cycle only leads to is lower than all cycles. -/
theorem reports_lowest_tangled {g : TaskGraph} (hg : g.WellFormed) (hcyclic : ¬ g.Acyclic) :
    ∃ v, IsLeast {v | g.Tangled v} v ∧
      (g.Before v v ↔ ∃ c, g.Before c c ∧ ∀ w, g.Tangled w → c ≤ w) ∧
      g.topologicalOrder = .error (.cyclic (g.name v)) ∧
      g.levels = .error (.cyclic (g.name v)) ∧
      (∀ budget, Serialiser.ofGraph g budget = .error (orderFault g (.cyclic (g.name v)))) ∧
      ∀ settings : Settings, settings.validate = .ok () →
        ListScheduler.create g settings = .error (.cyclic (g.name v)) ∧
        ∀ observed, Plan.make observed settings g =
          .failed (orderFault g (.cyclic (g.name v))) ⟨g, [.peak []]⟩ := by
  obtain ⟨v, hleast, horder⟩ := hg.topologicalOrder_tangled hcyclic
  refine ⟨v, hleast, ⟨?_, ?_⟩, horder, TaskGraph.levels_of_error horder,
    Serialiser.ofGraph_orderFault horder, ?_⟩
  · intro hcycle
    exact ⟨v, hcycle, fun w hw => hleast.2 hw⟩
  · rintro ⟨c, hcycle, hlow⟩
    have hsame : c = v := Nat.le_antisymm (hlow v hleast.1) (hleast.2 (.of_before hcycle))
    exact hsame ▸ hcycle
  · intro settings hvalid
    exact ⟨ListScheduler.create_of_error horder hvalid,
      fun observed => Plan.make_of_error horder hvalid observed⟩

namespace TaskGraph

/-- Two tasks that wait for each other, and a lower one that waits for the second. -/
def towed : TaskGraph where
  tasks := #[some { name := "a", kind := .dma }, some { name := "b", kind := .dma },
    some { name := "c", kind := .dma }]
  vacantIds := []
  edges := [⟨2, 2, 0, .data⟩, ⟨1, 2, 1, .data⟩, ⟨0, 1, 2, .data⟩]
  slotCount := 3

theorem wellFormed_towed : towed.WellFormed := by
  constructor <;> decide

theorem before_towed : towed.Before 1 1 :=
  .tail (.single (by decide : towed.Joins 1 2)) (by decide : towed.Joins 2 1)

theorem not_acyclic_towed : ¬ towed.Acyclic :=
  fun hacyclic => hacyclic 1 before_towed

theorem isLeast_tangled_towed : IsLeast {v | towed.Tangled v} 0 :=
  ⟨⟨1, before_towed, .tail (.single (by decide : towed.Joins 1 2)) (by decide : towed.Joins 2 0)⟩,
    fun w _ => Nat.zero_le w⟩

/-- Nothing waits for the lowest task. -/
theorem ne_zero_of_before_towed {v : Nat} (h : towed.Before v v) : v ≠ 0 := by
  rintro rfl
  obtain ⟨w, ⟨e, he, hsource, -⟩, -⟩ := Relation.TransGen.head'_iff.1 h
  have hnone : ∀ e ∈ towed.edges, e.source ≠ 0 := by decide
  exact hnone e he hsource

end TaskGraph

/-- Every stage names the task that only waits for the cycle. -/
theorem reports_lowest_tangled_towed :
    TaskGraph.towed.WellFormed ∧ ¬ TaskGraph.towed.Acyclic ∧ ¬ TaskGraph.towed.Before 0 0 ∧
      TaskGraph.towed.levels = .error (.cyclic "a") ∧
      Serialiser.ofGraph .towed 0 = .error (.refused (.cyclic "a")) ∧
      ListScheduler.create .towed {} = .error (.cyclic "a") ∧
      Plan.make true {} .towed = .failed (.refused (.cyclic "a")) ⟨.towed, [.peak []]⟩ := by
  obtain ⟨v, hleast, -, -, hlevels, hserialiser, hplan⟩ :=
    reports_lowest_tangled TaskGraph.wellFormed_towed TaskGraph.not_acyclic_towed
  obtain rfl : v = 0 := hleast.unique TaskGraph.isLeast_tangled_towed
  have hfault : orderFault .towed (.cyclic "a") = .refused (.cyclic "a") := by
    unfold orderFault
    rw [if_pos (by decide)]
  obtain ⟨hcreate, hmake⟩ := hplan {} (Settings.validate_eq_ok_iff.2 (by decide +kernel))
  exact ⟨TaskGraph.wellFormed_towed, TaskGraph.not_acyclic_towed,
    fun h => TaskGraph.ne_zero_of_before_towed h rfl, hlevels, hfault ▸ hserialiser 0, hcreate,
    hfault ▸ hmake true⟩

/-- The order names a task although no task of that name lies on a cycle. -/
theorem topologicalOrder_towed :
    TaskGraph.towed.WellFormed ∧ ¬ TaskGraph.towed.Acyclic ∧
      TaskGraph.towed.topologicalOrder = .error (.cyclic "a") ∧
      ∀ v, TaskGraph.towed.Before v v → TaskGraph.towed.name v ≠ "a" := by
  refine ⟨TaskGraph.wellFormed_towed, TaskGraph.not_acyclic_towed, ?_, ?_⟩
  · obtain ⟨v, hleast, horder⟩ :=
      TaskGraph.wellFormed_towed.topologicalOrder_tangled TaskGraph.not_acyclic_towed
    obtain rfl : v = 0 := hleast.unique TaskGraph.isLeast_tangled_towed
    exact horder
  · intro v hcycle
    have hnamed : ∀ id ∈ TaskGraph.towed.ids, TaskGraph.towed.name id = "a" → id = 0 := by decide
    exact fun hname => TaskGraph.ne_zero_of_before_towed hcycle
      (hnamed v (TaskGraph.wellFormed_towed.before_left hcycle) hname)

end TaskLoom
