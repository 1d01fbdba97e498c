import Mathlib.Data.Prod.Lex
import Mathlib.Data.Set.Function
import TaskLoom.Proofs.Graph.Depths
import TaskLoom.Proofs.Timetable.Refusal

/-!
# Ranks

The rank of a task is its position in the list of all tasks, ordered by level and id.
Positions in a list without repeats are the numbers below its length, each once, so ranks
number the tasks.  Levels grow along edges, and so do ranks.

## Main results

* `bijOn_idxOf` — positions number the entries of a list.
* `rank_lt_iff` — ranks compare as levels do, and as ids within a level.
* `create_ranks` — the levels of an acyclic graph, and the ranks that follow from them.
-/

namespace TaskLoom.ListScheduler

variable {s : ListScheduler} {g : TaskGraph} {levels : Array Nat}

/-- Positions number the entries of a list without repeats. -/
theorem bijOn_idxOf {tasks : List Nat} (hnodup : tasks.Nodup) :
    Set.BijOn tasks.idxOf {v | v ∈ tasks} (Set.Iio tasks.length) := by
  refine ⟨fun v hv => List.idxOf_lt_length_of_mem hv, fun u hu v _ heq => ?_, fun k hk => ?_⟩
  · exact (List.idxOf_inj hu).1 heq
  · exact ⟨tasks.get ⟨k, hk⟩, List.get_mem tasks _, hnodup.idxOf_getElem k hk⟩

/-- Positions in the order of levels and ids number the tasks. -/
theorem bijOn_rank (h : ∀ id ∈ g.ids, s.rank id = (byLevel g levels).idxOf id) :
    Set.BijOn s.rank {v | v ∈ g.ids} (Set.Iio g.size) := by
  have hperm := byLevel_perm g levels
  have hnumber := bijOn_idxOf (hperm.nodup_iff.2 g.nodup_ids)
  simp only [hperm.mem_iff, hperm.length_eq] at hnumber
  exact hnumber.congr fun v hv => (h v hv).symm

/-- Ranks compare as levels do, and as ids within a level. -/
theorem rank_lt_iff (hranked : Ranked s levels) {u v : Nat} (hu : u ∈ s.graph.ids)
    (hv : v ∈ s.graph.ids) :
    s.rank u < s.rank v ↔ toLex (levels.getD u 0, u) < toLex (levels.getD v 0, v) := by
  rw [Prod.Lex.toLex_lt_toLex]
  constructor
  · intro hlt
    have hnot : ¬ Ahead levels v u := by
      intro hahead
      have heq := hahead.antisymm (hranked u hu v hv (Nat.le_of_lt hlt))
      rw [heq] at hlt
      exact Nat.lt_irrefl _ hlt
    unfold Ahead at hnot
    show levels.getD u 0 < levels.getD v 0 ∨ levels.getD u 0 = levels.getD v 0 ∧ u < v
    omega
  · intro hlt
    by_contra hge
    have hahead := hranked v hv u hu (Nat.le_of_not_lt hge)
    unfold Ahead at hahead
    simp only at hlt
    omega

/-- The level of a task of an acyclic graph is the length of the longest path that ends at
it, and is found without looking up a level that is missing.  Under valid settings the ranks
number the tasks in the order of levels and ids, and grow along edges. -/
theorem create_ranks (hg : g.WellFormed) (hac : g.Acyclic) :
    ∃ levels, g.levels = .ok levels ∧
      g.levelTable = .ok (some (TaskGraph.tableOf levels g.ids)) ∧
      (∀ v ∈ g.ids, IsGreatest {n | g.PathTo n v} (levels.getD v 0)) ∧
      ∀ settings : Settings, settings.validate = .ok () →
        ∃ s, create g settings = .ok s ∧
          Set.BijOn s.rank {v | v ∈ g.ids} (Set.Iio g.size) ∧
          (∀ u ∈ g.ids, ∀ v ∈ g.ids,
            s.rank u < s.rank v ↔ toLex (levels.getD u 0, u) < toLex (levels.getD v 0, v)) ∧
          ∀ u v, g.Joins u v → s.rank u < s.rank v := by
  obtain ⟨levels, hlevels, hhas⟩ := hg.levels_spec hac
  refine ⟨levels, hlevels, hg.levelTable_spec hac hhas, fun v hv => hhas.isGreatest hg hv, ?_⟩
  intro settings hvalid
  obtain ⟨s, hcreate, rfl, -, hrank⟩ := create_of_levels hvalid hlevels
  have hcompare := fun u hu v hv => rank_lt_iff (ranked_of_idxOf hrank) (u := u) (v := v) hu hv
  refine ⟨s, hcreate, bijOn_rank hrank, hcompare, fun u v huv => ?_⟩
  rw [hcompare u (hg.joins_left huv) v (hg.joins_right huv), Prod.Lex.toLex_lt_toLex]
  exact Or.inl (hhas.lt hg huv)

/-- One pair of the sample is joined twice and one id is vacant.  Two edges lead to the store
over either of the tasks between. -/
theorem create_ranks_diamond :
    TaskGraph.diamond.WellFormed ∧ TaskGraph.diamond.Acyclic ∧
      ({} : Settings).validate = .ok () ∧
      ∃ levels s, TaskGraph.diamond.levels = .ok levels ∧ 2 ≤ levels.getD 4 0 ∧
        create TaskGraph.diamond {} = .ok s ∧
        Set.BijOn s.rank {v | v ∈ TaskGraph.diamond.ids} (Set.Iio 4) ∧
        s.rank 0 < s.rank 1 ∧ s.rank 1 < s.rank 4 := by
  have hg := TaskGraph.wellFormed_diamond
  have hac := TaskGraph.acyclic_diamond
  have hvalid : ({} : Settings).validate = .ok () := rfl
  obtain ⟨levels, hlevels, -, hlongest, hranks⟩ := create_ranks hg hac
  obtain ⟨s, hcreate, hnumber, -, hforward⟩ := hranks {} hvalid
  have hpath : TaskGraph.diamond.PathTo 2 4 :=
    .step (.step (.here (by decide : 0 ∈ TaskGraph.diamond.ids))
      (by decide : TaskGraph.diamond.Joins 0 1)) (by decide)
  exact ⟨hg, hac, hvalid, levels, s, hlevels, (hlongest 4 (by decide)).2 hpath, hcreate, hnumber,
    hforward 0 1 (by decide), hforward 1 4 (by decide)⟩

end TaskLoom.ListScheduler
