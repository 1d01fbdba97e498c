import TaskLoom.Proofs.Graph.Levels
import TaskLoom.Proofs.Timetable.Memory

/-!
# Which task is refused

A task that exceeds the hardware alone is never placed, and nothing else keeps a run from
going on.  When a run is stuck, every task that is left comes after one that was set
aside, and those do not fit alone.  Levels grow along edges, so the task of the lowest
level and id among those that do not fit is among those set aside, and ranks put it
first.  It is the task that the refusal names.  Hints change the order in which tasks
are placed, but none of this.

## Main results

* `create_spec` — ranks are positions in the order of levels and ids.
* `Stuck.exists_aside` — what is left was set aside or comes after a task that was.
* `Stuck.firstUnfit` — the first task set aside is the first that does not fit.
* `schedule_outcome` — how listing ends, whatever the hints are.
-/

namespace TaskLoom.ListScheduler

variable {s : ListScheduler} {r : Run} {g : TaskGraph} {settings : Settings} {levels : Array Nat}

/-! ## Ranks -/

/-- The order of levels, and of ids within a level. -/
def Ahead (levels : Array Nat) (a b : Nat) : Prop :=
  levels.getD a 0 < levels.getD b 0 ∨ levels.getD a 0 = levels.getD b 0 ∧ a ≤ b

theorem Ahead.refl (levels : Array Nat) (a : Nat) : Ahead levels a a :=
  Or.inr ⟨rfl, Nat.le_refl a⟩

theorem Ahead.trans {a b c : Nat} (hab : Ahead levels a b) (hbc : Ahead levels b c) :
    Ahead levels a c := by
  unfold Ahead at *
  omega

theorem Ahead.antisymm {a b : Nat} (hab : Ahead levels a b) (hba : Ahead levels b a) : a = b := by
  unfold Ahead at *
  omega

theorem byLevel_perm (g : TaskGraph) (levels : Array Nat) : (byLevel g levels).Perm g.ids :=
  List.mergeSort_perm _ _

theorem pairwise_byLevel (g : TaskGraph) (levels : Array Nat) :
    (byLevel g levels).Pairwise (Ahead levels) := by
  have hsorted : (byLevel g levels).Pairwise fun a b => (levels.getD a 0 < levels.getD b 0 ||
      (levels.getD a 0 == levels.getD b 0 && a ≤ b)) = true := by
    refine List.pairwise_mergeSort ?_ ?_ g.ids
    · intro a b c hab hbc
      simp only [Bool.or_eq_true, Bool.and_eq_true, decide_eq_true_eq, beq_iff_eq] at hab hbc ⊢
      omega
    · intro a b
      simp only [Bool.or_eq_true, Bool.and_eq_true, decide_eq_true_eq, beq_iff_eq]
      omega
  refine hsorted.imp fun hab => ?_
  simpa only [Ahead, Bool.or_eq_true, Bool.and_eq_true, decide_eq_true_eq, beq_iff_eq] using hab

/-- Tasks of lower rank are ahead. -/
def Ranked (s : ListScheduler) (levels : Array Nat) : Prop :=
  ∀ a ∈ s.graph.ids, ∀ b ∈ s.graph.ids, s.rank a ≤ s.rank b → Ahead levels a b

/-- Positions in the order of levels and ids rank the tasks. -/
theorem ranked_of_idxOf
    (h : ∀ id ∈ s.graph.ids, s.rank id = (byLevel s.graph levels).idxOf id) :
    Ranked s levels := by
  intro a ha b hb hle
  rw [h a ha, h b hb] at hle
  have hmem : ∀ id ∈ s.graph.ids, (byLevel s.graph levels).idxOf id <
      (byLevel s.graph levels).length := fun id hid =>
    List.idxOf_lt_length_iff.2 ((byLevel_perm s.graph levels).mem_iff.2 hid)
  rcases Nat.lt_or_eq_of_le hle with hlt | heq
  · have hahead := List.pairwise_iff_getElem.1 (pairwise_byLevel s.graph levels) _ _ (hmem a ha)
      (hmem b hb) hlt
    rwa [List.getElem_idxOf (hmem a ha), List.getElem_idxOf (hmem b hb)] at hahead
  · obtain rfl := (List.idxOf_inj ((byLevel_perm s.graph levels).mem_iff.2 ha)).1 heq
    exact Ahead.refl levels a

/-- A graph that has levels can be prepared, and the rank of a task is its position in the
order of levels and ids. -/
theorem create_of_levels (hvalid : settings.validate = .ok ()) (hlevels : g.levels = .ok levels) :
    ∃ s, create g settings = .ok s ∧ s.graph = g ∧ s.settings = settings ∧
      ∀ id ∈ g.ids, s.rank id = (byLevel g levels).idxOf id := by
  unfold create
  rw [hvalid, hlevels]
  refine ⟨_, rfl, rfl, rfl, fun id hid => ?_⟩
  have hperm := byLevel_perm g levels
  have hsize : id < (Array.replicate g.tasks.size 0).size := by
    simpa using TaskGraph.lt_size_of_mem_ids hid
  have hrank := TaskGraph.getD_foldl_setIfInBounds (hperm.nodup_iff.2 g.nodup_ids) 0 _ hsize
  rw [if_pos (hperm.mem_iff.2 hid), Nat.zero_add] at hrank
  exact hrank

/-- An acyclic graph with valid settings can be prepared, and its tasks are ranked by level
and id. -/
theorem create_spec (hg : g.WellFormed) (hac : g.Acyclic) (hvalid : settings.validate = .ok ()) :
    ∃ s levels, create g settings = .ok s ∧ g.levels = .ok levels ∧ g.HasLevels levels ∧
      s.graph = g ∧ s.settings = settings ∧ Ranked s levels := by
  obtain ⟨levels, hlevels, hhas⟩ := hg.levels_spec hac
  obtain ⟨s, hcreate, rfl, hsettings, hrank⟩ := create_of_levels hvalid hlevels
  exact ⟨s, levels, hcreate, hlevels, hhas, rfl, hsettings, ranked_of_idxOf hrank⟩

theorem pairwise_sortByRank (s : ListScheduler) (tasks : List Nat) :
    (s.sortByRank tasks).Pairwise (s.rank · ≤ s.rank ·) := by
  have hsorted : (s.sortByRank tasks).Pairwise
      fun a b => decide (s.rank a ≤ s.rank b) = true := by
    refine List.pairwise_mergeSort ?_ ?_ tasks
    · intro a b c hab hbc
      simp only [decide_eq_true_eq] at hab hbc ⊢
      exact Nat.le_trans hab hbc
    · intro a b
      simpa using Nat.le_total _ _
  exact hsorted.imp fun hab => of_decide_eq_true hab

/-- Sorted by rank, a list starts with a task of the least rank. -/
theorem rank_head_le {tasks rest : List Nat} {first : Nat}
    (hsorted : s.sortByRank tasks = first :: rest) :
    ∀ task ∈ tasks, s.rank first ≤ s.rank task := by
  intro task htask
  have hpairwise := s.pairwise_sortByRank tasks
  have hmem := (s.sortByRank_perm tasks).mem_iff.2 htask
  rw [hsorted] at hpairwise hmem
  rcases List.mem_cons.1 hmem with rfl | hmem
  · exact Nat.le_refl _
  · exact (List.pairwise_cons.1 hpairwise).1 task hmem

/-! ## Stuck runs -/

/-- The task is the first, by level and id, that does not fit the hardware alone. -/
structure FirstUnfit (g : TaskGraph) (settings : Settings) (levels : Array Nat) (task : Nat) :
    Prop where
  mem_ids : task ∈ g.ids
  unfit : ¬ (g.task task).FitsAlone settings
  ahead : ∀ other ∈ g.ids, ¬ (g.task other).FitsAlone settings → Ahead levels task other

theorem FirstUnfit.eq {a b : Nat} (ha : FirstUnfit g settings levels a)
    (hb : FirstUnfit g settings levels b) : a = b :=
  (ha.ahead b hb.mem_ids hb.unfit).antisymm (hb.ahead a ha.mem_ids ha.unfit)

/-- What leads to a task is ahead of it. -/
theorem Ahead.of_leads (hg : g.WellFormed) (hlevels : g.HasLevels levels) {a b : Nat}
    (h : g.Leads a b) : Ahead levels a b := by
  induction h with
  | refl => exact Ahead.refl levels a
  | tail _ step ih => exact ih.trans (Or.inl (hlevels.lt hg step))

/-- Every task that is left was set aside, or comes after one that was. -/
theorem Stuck.exists_aside (h : Stuck s r) (hg : s.graph.WellFormed)
    (hlevels : s.graph.HasLevels levels) {task : Nat} (htask : task ∈ s.graph.ids)
    (hleft : task ∉ r.placements.map (·.task)) :
    ∃ aside ∈ r.deferred, s.graph.Leads aside task := by
  -- by induction on the level: a task that was not set aside waits for one of a lower level
  induction hlevel : levels.getD task 0 using Nat.strongRecOn generalizing task with
  | _ level ih =>
    rcases h.waits task htask hleft with haside | ⟨u, hu, huleft⟩
    · exact ⟨task, haside, .refl⟩
    · have hlt := hlevels.lt hg hu
      obtain ⟨aside, haside, hleads⟩ := ih _ (hlevel ▸ hlt) (hg.joins_left hu) huleft rfl
      exact ⟨aside, haside, hleads.tail hu⟩

/-- A task that does not fit alone is not placed. -/
theorem Sound.not_placed (h : Sound s r) {task : Nat}
    (hunfit : ¬ (s.graph.task task).FitsAlone s.settings) : task ∉ r.placements.map (·.task) := by
  intro hmem
  obtain ⟨p, hp, rfl⟩ := List.mem_map.1 hmem
  exact hunfit ((h.steps p.time).fitsAlone (List.mem_filter.2 ⟨hp, by simp⟩) (h.fits p hp))

/-- The first task that was set aside is the first that does not fit alone. -/
theorem Stuck.firstUnfit (h : Stuck s r) (hg : s.graph.WellFormed)
    (hlevels : s.graph.HasLevels levels) (hranked : Ranked s levels) {task : Nat}
    {rest : List Nat} (hsorted : s.sortByRank r.deferred = task :: rest) :
    FirstUnfit s.graph s.settings levels task := by
  have haside : task ∈ r.deferred := by
    refine (s.sortByRank_perm _).mem_iff.1 ?_
    rw [hsorted]
    exact List.mem_cons_self
  refine ⟨h.mem_ids task haside, h.unfit task haside, fun other hother hunfit => ?_⟩
  obtain ⟨d, hd, hleads⟩ := h.exists_aside hg hlevels hother (h.sound.not_placed hunfit)
  exact (hranked task (h.mem_ids task haside) d (h.mem_ids d hd)
    (rank_head_le hsorted d hd)).trans (.of_leads hg hlevels hleads)

/-- A stuck run over an acyclic graph is refused because of the first task that does not
fit alone. -/
theorem Stuck.refuses_first (h : Stuck s r) (hs : s.Prepared) (hac : s.graph.Acyclic)
    (haligned : ∀ id ∈ s.graph.ids, (s.graph.task id).alignedBytes s.settings < Word.bound)
    (hlevels : s.graph.HasLevels levels) (hranked : Ranked s levels) (waiting : List Nat) :
    ∃ task, FirstUnfit s.graph s.settings levels task ∧
      s.stuck waiting r = .refused (refusal s.settings (s.graph.task task)) := by
  cases hsorted : s.sortByRank r.deferred with
  | nil =>
    have hnone := (s.sortByRank_perm r.deferred).symm
    rw [hsorted] at hnone
    exact absurd hnone.eq_nil (h.some_aside hac)
  | cons task rest =>
    have hfirst := h.firstUnfit hs.wellFormed hlevels hranked hsorted
    refine ⟨task, hfirst, ?_⟩
    unfold stuck
    simp only [hsorted, h.shortage_eq hs hfirst.mem_ids (haligned task hfirst.mem_ids)]

/-! ## The end of a run -/

/-- A run ends with all tasks placed if each fits alone, and is refused because of the
first that does not otherwise. -/
theorem schedule_cases (hs : s.Prepared) (hac : s.graph.Acyclic)
    (haligned : ∀ id ∈ s.graph.ids, (s.graph.task id).alignedBytes s.settings < Word.bound)
    (hlevels : s.graph.HasLevels levels) (hranked : Ranked s levels) :
    (∃ placements, s.schedule.result = .ok placements) ∧
        (∀ id ∈ s.graph.ids, (s.graph.task id).FitsAlone s.settings) ∨
      ∃ task, FirstUnfit s.graph s.settings levels task ∧
        s.schedule.result = .error (.refused (refusal s.settings (s.graph.task task))) := by
  rcases schedule_spec hs with ⟨placements, hok, hfeasible⟩ | ⟨waiting, r, herror, hstuck⟩
  · exact Or.inl ⟨⟨placements, hok⟩, hfeasible.fitsAlone⟩
  · obtain ⟨task, hfirst, hrefused⟩ :=
      hstuck.refuses_first hs hac haligned hlevels hranked waiting
    exact Or.inr ⟨task, hfirst, by rw [herror, hrefused]⟩

/-- Listing an acyclic graph places all tasks exactly if each fits the hardware alone.
Otherwise it is refused because of the task of the lowest level and id that does not, with
what that task needs and what there is.  Neither hints nor earlier runs play a part. -/
theorem schedule_outcome (hg : g.WellFormed) (hac : g.Acyclic)
    (hvalid : settings.validate = .ok ()) (hslots : settings.slotsPerBarrier < Word.bound)
    (haligned : ∀ id ∈ g.ids, (g.task id).alignedBytes settings < Word.bound) :
    ∃ s levels, create g settings = .ok s ∧ g.levels = .ok levels ∧
      (∀ hints states checks,
        (∃ placements, (schedule { s with hints, states, checks }).result = .ok placements) ↔
          ∀ id ∈ g.ids, (g.task id).FitsAlone settings) ∧
      ((¬ ∀ id ∈ g.ids, (g.task id).FitsAlone settings) →
        ∃ task, FirstUnfit g settings levels task ∧ ∀ hints states checks,
          (schedule { s with hints, states, checks }).result =
            .error (.refused (refusal settings (g.task task)))) := by
  obtain ⟨s, levels, hcreate, hlevels, hhas, rfl, rfl, hranked⟩ := create_spec hg hac hvalid
  have hprepared : ∀ hints states checks,
      Prepared { s with hints, states, checks } := fun _ _ _ =>
    ⟨hg, hvalid, hslots, fun id hid size hsize =>
      Nat.lt_of_le_of_lt (Task.alignUp_le_alignedBytes hsize _) (haligned id hid)⟩
  have hcases := fun hints states checks =>
    schedule_cases (hprepared hints states checks) hac haligned hhas hranked
  refine ⟨s, levels, hcreate, hlevels, fun hints states checks => ?_, fun hunfit => ?_⟩
  · rcases hcases hints states checks with ⟨hdone, hfit⟩ | ⟨task, hfirst, herror⟩
    · exact iff_of_true hdone hfit
    · refine iff_of_false ?_ fun hfit => hfirst.unfit (hfit task hfirst.mem_ids)
      rintro ⟨placements, hok⟩
      cases hok.symm.trans herror
  · -- the first task that does not fit is the same in all runs
    obtain ⟨task, hfirst, -⟩ := (hcases [] #[] 0).resolve_left fun hdone => hunfit hdone.2
    refine ⟨task, hfirst, fun hints states checks => ?_⟩
    obtain ⟨task', hfirst', herror⟩ :=
      (hcases hints states checks).resolve_left fun hdone => hunfit hdone.2
    obtain rfl := hfirst.eq hfirst'
    exact herror

/-- One task of the sample needs three slots, so barriers of two slots do not do. -/
theorem schedule_outcome_diamond :
    let settings : Settings := { cmxSize := 128, barrierCount := 2, slotsPerBarrier := 2 }
    settings.validate = .ok () ∧
      (∀ id ∈ TaskGraph.diamond.ids, (TaskGraph.diamond.task id).alignedBytes settings <
        Word.bound) ∧
      ∃ s, create .diamond settings = .ok s ∧ ∀ hints states checks,
        (schedule { s with hints, states, checks }).result =
          .error (.refused (.infeasible .listing "left" .producerSlots 3 2)) := by
  intro settings
  have hvalid : settings.validate = .ok () := Settings.validate_eq_ok_iff.2 (by decide +kernel)
  have haligned : ∀ id ∈ TaskGraph.diamond.ids,
      (TaskGraph.diamond.task id).alignedBytes settings < Word.bound := by decide +kernel
  have honly : ∀ id ∈ TaskGraph.diamond.ids,
      ¬ (TaskGraph.diamond.task id).FitsAlone settings → id = 1 := by decide +kernel
  obtain ⟨s, levels, hcreate, -, -, hrefused⟩ :=
    schedule_outcome TaskGraph.wellFormed_diamond TaskGraph.acyclic_diamond hvalid (by decide)
      haligned
  obtain ⟨task, hfirst, herror⟩ := hrefused (by decide +kernel)
  obtain rfl := honly task hfirst.mem_ids hfirst.unfit
  have hwhy : refusal settings (TaskGraph.diamond.task 1) =
      .infeasible .listing "left" .producerSlots 3 2 := by decide +kernel
  exact ⟨hvalid, haligned, s, hcreate, hwhy ▸ herror⟩

end TaskLoom.ListScheduler
