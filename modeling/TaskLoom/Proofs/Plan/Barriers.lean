import Mathlib.Computability.TuringMachine.StackTuringMachine
import Mathlib.Data.List.Permutation
import Mathlib.ModelTheory.Encoding
import TaskLoom.Proofs.Barrier.Joining
import TaskLoom.Proofs.Plan.Finished

/-!
# The barriers of a finished plan

The producers of a barrier are its own, which stand on its hardware barrier in one time
step, and those that it borrowed from other hardware barriers when it was joined with them.
Own producers keep to the rules of the hardware: they take turns with those of any other
barrier on the same hardware barrier, and they fit its slots.  Borrowed producers are bound
by neither, so a plan can post a hardware barrier for two barriers at once, or with more
slots than it has.

The sample plans are evaluated.  Equations of `Option.isNone`, `Option.join` and `Prod.snd` that
this takes are what is imported from Mathlib.

## Main results

* `make_turns` — how two barriers share a hardware barrier, and when they take turns.
* `make_slots` — how many slots the producers of a barrier take.
* `make_overlap_relay`, `make_overfull_funnel` — plans whose barriers do not take turns, or
  take too many slots.
-/

namespace TaskLoom.Plan

open Timetable (Use startOf slotsOf)
open VirtualBarrier (RunBefore)

variable {g : TaskGraph} {settings : Settings} {observed : Bool} {plan : Plan} {run : PlanRun}

/-! ## Turns -/

/-- The own producers of a barrier share a time step.  Of two barriers on one hardware
barrier, all producers of one run before the own producers of the other, and the two take
turns exactly if the borrowed producers of the other run later as well. -/
theorem make_turns (h : Worded settings g) (hmake : make observed settings g = .done plan run) :
    (∀ b ∈ plan.barriers, ∃ time, b.own plan.placements ≠ [] ∧
      ∀ x ∈ b.own plan.placements, startOf plan.placements x = time) ∧
    ∀ b ∈ plan.barriers, ∀ c ∈ plan.barriers, b ≠ c → b.physical = c.physical →
      (RunBefore plan.placements b.producers (c.own plan.placements) ∨
        RunBefore plan.placements c.producers (b.own plan.placements)) ∧
      ((RunBefore plan.placements b.producers c.producers ∨
          RunBefore plan.placements c.producers b.producers) ↔
        (RunBefore plan.placements b.producers (c.own plan.placements) →
            RunBefore plan.placements b.producers (c.borrowed plan.placements)) ∧
          (RunBefore plan.placements c.producers (b.own plan.placements) →
            RunBefore plan.placements c.producers (b.borrowed plan.placements))) := by
  obtain ⟨g₁, hwf, hfeasible, hwire⟩ := make_done h hmake
  have horders := hfeasible.orders
  rw [hwire]
  have hstep : ∀ b ∈ wire g₁ plan.placements, ∃ time, b.own plan.placements ≠ [] ∧
      ∀ x ∈ b.own plan.placements, startOf plan.placements x = time := by
    intro b hb
    obtain ⟨uses, hunites⟩ := Wiring.unites_wire hwf horders hb
    exact hunites.own_step horders.nodup
  refine ⟨hstep, fun b hb c hc hne hphysical => ?_⟩
  have hturns := Wiring.runBefore_own_or hwf horders hb hc hne hphysical
  obtain ⟨-, hownb, -⟩ := hstep b hb
  obtain ⟨-, hownc, -⟩ := hstep c hc
  exact ⟨hturns, VirtualBarrier.takeTurns_iff hownb hownc hturns⟩

/-- Any part of a plan is known by evaluation. -/
theorem exists_done {α : Type} (part : Plan → α) {a : α}
    (h : (make observed settings g).result.toOption.map part = some a) :
    ∃ plan run, make observed settings g = .done plan run ∧ part plan = a := by
  cases hmake : make observed settings g with
  | failed fault run =>
    rw [hmake] at h
    cases h
  | done plan run =>
    rw [hmake] at h
    exact ⟨plan, run, rfl, Option.some.inj h⟩

/-- A plan is known by evaluation. -/
theorem exists_plan {placements : List Placement} {barriers : List VirtualBarrier}
    (h : (make observed settings g).result.toOption.map
      (fun plan => (plan.placements, plan.barriers)) = some (placements, barriers)) :
    ∃ plan run, make observed settings g = .done plan run ∧ plan.placements = placements ∧
      plan.barriers = barriers := by
  obtain ⟨plan, run, hmake, hparts⟩ := exists_done _ h
  exact ⟨plan, run, hmake, Prod.mk.inj hparts⟩

/-- Hardware with one barrier of four slots. -/
def oneBarrier : Settings where
  barrierCount := 1
  slotsPerBarrier := 4

theorem worded_diamond : Worded oneBarrier .diamond :=
  ⟨TaskGraph.wellFormed_diamond, by decide, by decide +kernel⟩

/-- The plan of the sample, whose barriers share the hardware barrier. -/
theorem exists_plan_diamond :
    ∃ plan run, make false oneBarrier .diamond = .done plan run ∧
      plan.placements =
        [⟨0, 0, some ⟨1⟩, 1, [⟨0, 0, 128⟩]⟩, ⟨1, 1, some ⟨1⟩, 3, [⟨0, 0, 64⟩, ⟨1, 64, 128⟩]⟩,
          ⟨3, 1, none, 0, [⟨0, 0, 0⟩]⟩, ⟨4, 2, some ⟨1⟩, 1, []⟩] ∧
      plan.barriers = [⟨0, ⟨1⟩, [0], [1, 3]⟩, ⟨1, ⟨1⟩, [1], [4]⟩] :=
  exists_plan (by cbv)

/-- The two barriers of the sample take turns. -/
theorem make_turns_diamond :
    Worded oneBarrier .diamond ∧ ∃ plan run, make false oneBarrier .diamond = .done plan run ∧
      ∃ b ∈ plan.barriers, ∃ c ∈ plan.barriers, b ≠ c ∧ b.physical = c.physical ∧
        (RunBefore plan.placements b.producers c.producers ∨
          RunBefore plan.placements c.producers b.producers) := by
  obtain ⟨plan, run, hmake, hplacements, hbarriers⟩ := exists_plan_diamond
  have hturns := (make_turns worded_diamond hmake).2
  refine ⟨worded_diamond, plan, run, hmake, ?_⟩
  rw [hplacements, hbarriers] at hturns ⊢
  refine ⟨_, List.mem_cons_self, _, List.mem_cons_of_mem _ List.mem_cons_self, by decide, rfl, ?_⟩
  -- neither barrier has borrowed producers
  refine (hturns _ List.mem_cons_self _ (List.mem_cons_of_mem _ List.mem_cons_self) (by decide)
    rfl).2.2 ⟨fun _ => by decide, fun _ => by decide⟩

/-- Two tasks in a row, the second of which shares its successor with a third task. -/
def relay : TaskGraph where
  tasks := #[some { name := "a", kind := .dma }, some { name := "b", kind := .dma },
    some { name := "c", kind := .dma }, some { name := "d", kind := .dma }]
  edges := [⟨2, 1, 3, .data⟩, ⟨1, 2, 3, .data⟩, ⟨0, 0, 2, .data⟩]
  slotCount := 3

/-- Task `b` posts hardware barrier 2 in the first step, but its barrier is joined with that
of `c`.  So hardware barrier 1 is posted by `a` and by `b` in one step, for two barriers. -/
theorem make_overlap_relay :
    Worded {} relay ∧ ({} : Settings).validate = .ok () ∧ relay.Acyclic ∧
      ∃ plan run, make false {} relay = .done plan run ∧
        ∃ b ∈ plan.barriers, ∃ c ∈ plan.barriers, b ≠ c ∧ b.physical = c.physical ∧
          ¬ RunBefore plan.placements b.producers c.producers ∧
          ¬ RunBefore plan.placements c.producers b.producers := by
  have hworded : Worded {} relay := ⟨by constructor <;> decide, by decide, by decide +kernel⟩
  have hac : relay.Acyclic := TaskGraph.Acyclic.of_forward (by decide)
  have heval : ∃ plan run, make false {} relay = .done plan run ∧
      plan.placements = [⟨0, 0, some ⟨1⟩, 1, []⟩, ⟨1, 0, some ⟨2⟩, 1, []⟩, ⟨2, 1, some ⟨1⟩, 1, []⟩,
        ⟨3, 2, some ⟨1⟩, 1, []⟩] ∧
      plan.barriers = [⟨0, ⟨1⟩, [0], [2]⟩, ⟨1, ⟨1⟩, [1, 2], [3]⟩] := exists_plan (by cbv)
  obtain ⟨plan, run, hmake, hplacements, hbarriers⟩ := heval
  refine ⟨hworded, Settings.validate_eq_ok_iff.2 (by decide +kernel), hac, plan, run, hmake, ?_⟩
  rw [hplacements, hbarriers]
  exact ⟨_, List.mem_cons_self, _, List.mem_cons_of_mem _ List.mem_cons_self, by decide, rfl,
    by decide, by decide⟩

/-! ## Slots -/

/-- The tasks of a use fit the slots of a hardware barrier. -/
theorem slots_le_of_feasible {placements : List Placement} (h : Feasible g settings placements)
    (u : Use) : u.slots placements ≤ settings.slotsPerBarrier := by
  have hfilter : placements.filter (fun p => decide (u.Has p)) =
      (Timetable.placedAt placements u.time).filter (·.barrier == some u.physical) := by
    rw [Timetable.placedAt, List.filter_filter]
    refine List.filter_congr fun p _ => ?_
    rw [Bool.eq_iff_iff, decide_eq_true_eq, Bool.and_eq_true, beq_iff_eq, beq_iff_eq, Use.Has]
  rw [Use.slots, hfilter]
  exact (h.steps u.time).slots_le u.physical

/-- The own producers of a barrier fit its slots, so all do if none is borrowed.  All
producers together take the slots of the uses that the barrier unites, each of which fits. -/
theorem make_slots (h : Worded settings g) (hmake : make observed settings g = .done plan run) :
    ∀ b ∈ plan.barriers,
      slotsOf plan.placements (b.own plan.placements) ≤ settings.slotsPerBarrier ∧
      (b.borrowed plan.placements = [] →
        slotsOf plan.placements b.producers ≤ settings.slotsPerBarrier) ∧
      ∃ uses, b.Unites plan.placements uses ∧
        (∀ u ∈ uses, u.slots plan.placements ≤ settings.slotsPerBarrier) ∧
        slotsOf plan.placements b.producers =
          Word.total (uses.map (Use.slots plan.placements)) := by
  obtain ⟨g₁, hwf, hfeasible, hwire⟩ := make_done h hmake
  have horders := hfeasible.orders
  rw [hwire]
  intro b hb
  obtain ⟨uses, hunites⟩ := Wiring.unites_wire hwf horders hb
  obtain ⟨u, -, hslots⟩ := hunites.slotsOf_own horders.nodup
  have hown : slotsOf plan.placements (b.own plan.placements) ≤ settings.slotsPerBarrier :=
    hslots ▸ slots_le_of_feasible hfeasible u
  refine ⟨hown, fun hnone => ?_, uses, hunites, fun u _ => slots_le_of_feasible hfeasible u,
    hunites.slotsOf_eq⟩
  rwa [VirtualBarrier.own_eq_producers hnone] at hown

/-- The second barrier of the sample has a producer of three slots. -/
theorem make_slots_diamond :
    Worded oneBarrier .diamond ∧ ∃ plan run, make false oneBarrier .diamond = .done plan run ∧
      ∃ b ∈ plan.barriers, slotsOf plan.placements b.producers = 3 ∧
        b.borrowed plan.placements = [] ∧
        slotsOf plan.placements b.producers ≤ oneBarrier.slotsPerBarrier := by
  obtain ⟨plan, run, hmake, hplacements, hbarriers⟩ := exists_plan_diamond
  have hslots := make_slots worded_diamond hmake
  refine ⟨worded_diamond, plan, run, hmake, ?_⟩
  rw [hplacements, hbarriers] at hslots ⊢
  have hmem := List.mem_cons_of_mem (⟨0, ⟨1⟩, [0], [1, 3]⟩ : VirtualBarrier)
    (List.mem_cons_self : (⟨1, ⟨1⟩, [1], [4]⟩ : VirtualBarrier) ∈ [⟨1, ⟨1⟩, [1], [4]⟩])
  exact ⟨_, hmem, by decide, by decide, (hslots _ hmem).2.1 (by decide)⟩

/-- Two tasks with one successor. -/
def funnel : TaskGraph where
  tasks := #[some { name := "a", kind := .dma }, some { name := "b", kind := .dma },
    some { name := "c", kind := .dma }]
  edges := [⟨1, 1, 2, .data⟩, ⟨0, 0, 2, .data⟩]
  slotCount := 2

/-- Barriers of one slot force the two tasks on different hardware barriers, and joining
them makes one barrier with two producers of one slot each. -/
theorem make_overfull_funnel :
    let settings : Settings := { slotsPerBarrier := 1 }
    Worded settings funnel ∧ settings.validate = .ok () ∧ funnel.Acyclic ∧
      ∃ plan run, make false settings funnel = .done plan run ∧
        ∃ b ∈ plan.barriers, settings.slotsPerBarrier < slotsOf plan.placements b.producers := by
  intro settings
  have hworded : Worded settings funnel :=
    ⟨by constructor <;> decide, by decide, by decide +kernel⟩
  have hac : funnel.Acyclic := TaskGraph.Acyclic.of_forward (by decide)
  have heval : ∃ plan run, make false settings funnel = .done plan run ∧
      plan.placements = [⟨0, 0, some ⟨1⟩, 1, []⟩, ⟨1, 0, some ⟨2⟩, 1, []⟩,
        ⟨2, 1, some ⟨1⟩, 1, []⟩] ∧
      plan.barriers = [⟨0, ⟨1⟩, [0, 1], [2]⟩] := exists_plan (by cbv)
  obtain ⟨plan, run, hmake, hplacements, hbarriers⟩ := heval
  refine ⟨hworded, Settings.validate_eq_ok_iff.2 (by decide +kernel), hac, plan, run, hmake, ?_⟩
  rw [hplacements, hbarriers]
  exact ⟨_, List.mem_cons_self, by decide⟩

end TaskLoom.Plan
