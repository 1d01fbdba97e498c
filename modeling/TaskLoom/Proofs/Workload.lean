import TaskLoom.Proofs.Plan.Lines
import TaskLoom.Workload

/-!
# Synthetic workloads can be planned

The graph of a shape is built task by task, and a new task comes after tasks that are there.
So the ids are used from zero on and all edges run from lower to higher ids, whatever the
shape and its size.  All tasks are light: each one fits the hardware of its shape alone.
What posts needs memory, so tasks whose memory can flow through a network are fewer than the
numbers for barriers.  So planning succeeds, for as many tasks as their memory allows.

A chain is a line of tasks which all post, so its figures follow from its length.  Nothing in
it is unordered, so the shares that an observed run reports are those of single tasks.

## Main results

* `Grown.addAfter` — what one more task keeps.
* `buildChain_done`, `buildBranches_done`, `buildStages_done`, `buildBlocks_done` — what the
  parts of a shape keep.
* `build_chain`, `build_fanOut`, `build_residual` — the graphs of all shapes.
* `measure_figures` — the figures of all shapes.
-/

namespace TaskLoom

namespace TaskGraph

variable {g : TaskGraph} {P : Task → Prop}

/-! ## Graphs that only grow -/

/-- Dependencies on other tasks are all accepted. -/
theorem addDependencies_done {target : Nat} {sources : List Nat} (hother : target ∉ sources) :
    ∃ g', g.addDependencies target sources = .done () g' ∧ g'.tasks = g.tasks ∧
      g'.vacantIds = g.vacantIds ∧
      ∀ u v, g'.Joins u v ↔ g.Joins u v ∨ (u ∈ sources ∧ v = target) := by
  induction sources generalizing g with
  | nil => exact ⟨g, rfl, rfl, rfl, by simp⟩
  | cons source rest ih =>
    rw [List.mem_cons, not_or] at hother
    rw [addDependencies, addDependency, if_neg (Ne.symm hother.1)]
    by_cases hjoin : g.Joins source target
    · rw [if_pos (edge?_isSome_iff.2 hjoin)]
      obtain ⟨g', hdone, htasks, hvacant, hjoins⟩ := @ih g hother.2
      refine ⟨g', hdone, htasks, hvacant, fun u v => ?_⟩
      rw [hjoins, List.mem_cons]
      constructor
      · rintro (hold | ⟨hu, hv⟩)
        · exact Or.inl hold
        · exact Or.inr ⟨Or.inr hu, hv⟩
      · rintro (hold | ⟨rfl | hu, rfl⟩)
        · exact Or.inl hold
        · exact Or.inl hjoin
        · exact Or.inr ⟨hu, rfl⟩
    · rw [if_neg fun hsome => hjoin (edge?_isSome_iff.1 hsome)]
      obtain ⟨g', hdone, htasks, hvacant, hjoins⟩ := @ih (g.addEdge source target .data).2 hother.2
      refine ⟨g', hdone, htasks.trans (tasks_addEdge _ _ _ _), ?_, fun u v => ?_⟩
      · rw [hvacant, vacantIds_addEdge]
      · rw [hjoins, joins_addEdge, List.mem_cons]
        tauto

/-- Ids are used from zero on, by tasks of one kind, and edges run to higher ids. -/
structure Grown (P : Task → Prop) (g : TaskGraph) : Prop where
  vacant : g.vacantIds = []
  used : ∀ id < g.tasks.size, ∃ t, g.task? id = some t ∧ P t
  forward : ∀ u v, g.Joins u v → u < v ∧ v < g.tasks.size

theorem grown_empty (P : Task → Prop) : Grown P empty where
  vacant := rfl
  used := by simp [empty]
  forward := by simp [empty, Joins]

theorem Grown.ids_eq (h : Grown P g) : g.ids = List.range g.tasks.size := by
  refine List.filter_eq_self.2 fun id hid => ?_
  obtain ⟨t, ht, -⟩ := h.used id (List.mem_range.1 hid)
  rw [has, ht]
  rfl

theorem Grown.task (h : Grown P g) {id : Nat} (hid : id ∈ g.ids) : P (g.task id) := by
  obtain ⟨t, ht, hP⟩ := h.used id (lt_size_of_mem_ids hid)
  rw [TaskGraph.task, ht]
  exact hP

theorem Grown.linked (h : Grown P g) : g.Linked := by
  have hends : ∀ e ∈ g.edges, e.source < e.target ∧ e.target < g.tasks.size :=
    fun e he => h.forward _ _ ⟨e, he, rfl, rfl⟩
  constructor
  · intro e he
    rw [h.ids_eq, List.mem_range]
    exact Nat.lt_trans (hends e he).1 (hends e he).2
  · intro e he
    rw [h.ids_eq, List.mem_range]
    exact (hends e he).2

theorem Grown.acyclic (h : Grown P g) : g.Acyclic :=
  .of_forward fun e he => (h.forward _ _ ⟨e, he, rfl, rfl⟩).1

theorem Grown.imp {Q : Task → Prop} (h : Grown P g) (himp : ∀ t, P t → Q t) : Grown Q g where
  vacant := h.vacant
  used id hid := (h.used id hid).imp fun t ht => ⟨ht.1, himp t ht.2⟩
  forward := h.forward

/-- One more task. -/
theorem Grown.addTask (h : Grown P g) {t : Task} (ht : P t) :
    g.addTask t = (g.tasks.size, (g.addTask t).2) ∧ Grown P (g.addTask t).2 ∧
      (g.addTask t).2.tasks.size = g.tasks.size + 1 := by
  rw [addTask_next h.vacant]
  refine ⟨rfl, ⟨h.vacant, ?_, ?_⟩, Array.size_push _⟩
  · intro id hid
    rw [Array.size_push] at hid
    by_cases hnew : id = g.tasks.size
    · subst hnew
      refine ⟨t, ?_, ht⟩
      rw [task?, Array.getElem?_push_size]
      rfl
    · obtain ⟨old, hold, hP⟩ := h.used id (by omega)
      refine ⟨old, ?_, hP⟩
      rw [task?] at hold ⊢
      rw [Array.getElem?_push, if_neg hnew]
      exact hold
  · intro u v huv
    obtain ⟨hlt, hsize⟩ := h.forward u v huv
    exact ⟨hlt, by rw [Array.size_push]; omega⟩

/-- One more task after tasks that are there. -/
theorem Grown.addAfter (h : Grown P g) {t : Task} (ht : P t) (sources : List Nat)
    (hsources : ∀ source ∈ sources, source < g.tasks.size) :
    ∃ g', Workload.addAfter g t sources = .ok (g.tasks.size, g') ∧ Grown P g' ∧
      g'.tasks.size = g.tasks.size + 1 ∧
      ∀ u v, g'.Joins u v ↔ g.Joins u v ∨ (u ∈ sources ∧ v = g.tasks.size) := by
  obtain ⟨heq, hgrown, hsize⟩ := h.addTask ht
  have hother : g.tasks.size ∉ sources := fun hmem => Nat.lt_irrefl _ (hsources _ hmem)
  obtain ⟨g', hdone, htasks, hvacant, hjoins⟩ :=
    @addDependencies_done (g.addTask t).2 g.tasks.size sources hother
  have hsame : ∀ u v, (g.addTask t).2.Joins u v ↔ g.Joins u v := by
    intro u v
    unfold Joins
    rw [edges_addTask]
  simp only [hsame] at hjoins
  refine ⟨g', ?_, ⟨hvacant.trans hgrown.vacant, ?_, ?_⟩, htasks ▸ hsize, hjoins⟩
  · rw [Workload.addAfter, heq]
    simp only [hdone]
    rfl
  · unfold task?
    rw [htasks]
    exact hgrown.used
  · intro u v huv
    rw [htasks, hsize]
    rcases (hjoins u v).1 huv with hold | ⟨hu, rfl⟩
    · have hends := h.forward u v hold
      omega
    · exact ⟨hsources u hu, Nat.lt_succ_self _⟩

end TaskGraph

namespace Workload

open TaskGraph

variable {g : TaskGraph} {P : Task → Prop}

/-! ## The parts of a shape -/

/-- A chain gets longer at its end: `last` holds the task before the next id, if there is
one. -/
theorem buildChain_done (hP : ∀ i, P (chainTask i)) (positions : List Nat) (h : Grown P g)
    (hnext : ∀ i, i + 1 < g.tasks.size → g.Joins i (i + 1)) (last : List Nat)
    (hlast : ∀ i, i ∈ last ↔ i + 1 = g.tasks.size) :
    ∃ g', buildChain positions last g = .ok g' ∧ Grown P g' ∧
      g'.tasks.size = g.tasks.size + positions.length ∧
      ∀ i, i + 1 < g'.tasks.size → g'.Joins i (i + 1) := by
  induction positions generalizing g last with
  | nil => exact ⟨g, rfl, h, rfl, hnext⟩
  | cons i rest ih =>
    obtain ⟨g₁, hadd, h₁, hsize, hjoins⟩ := h.addAfter (hP i) last (by
      intro source hsource
      have := (hlast source).1 hsource
      omega)
    have hnext₁ : ∀ i, i + 1 < g₁.tasks.size → g₁.Joins i (i + 1) := by
      intro i hi
      rw [hjoins]
      by_cases hnew : i + 1 = g.tasks.size
      · exact Or.inr ⟨(hlast i).2 hnew, hnew⟩
      · exact Or.inl (hnext i (by omega))
    obtain ⟨g', hdone, h', hsize', hnext'⟩ := ih h₁ hnext₁ [g.tasks.size] (by
      intro i
      rw [List.mem_singleton, hsize]
      omega)
    refine ⟨g', ?_, h', ?_, hnext'⟩
    · simp only [buildChain, hadd, bind, Except.bind, hdone]
    · rw [hsize', hsize, List.length_cons]
      omega

/-- Branches come after their marker. -/
theorem buildBranches_done (hP : ∀ name, P (Task.addCmx { name, kind := .compute 2 } (96 * kb)))
    (stage marker : Nat) (branches : List Nat) (h : Grown P g) (hmarker : marker < g.tasks.size) :
    ∃ ids g', buildBranches stage marker branches g = .ok (ids, g') ∧ Grown P g' ∧
      g'.tasks.size = g.tasks.size + branches.length ∧ ∀ id ∈ ids, id < g'.tasks.size := by
  induction branches generalizing g with
  | nil => exact ⟨[], g, rfl, h, rfl, by simp⟩
  | cons b rest ih =>
    obtain ⟨g₁, hadd, h₁, hsize, -⟩ := h.addAfter
      (hP ("s" ++ toString stage ++ "b" ++ toString b)) [marker] (by simpa)
    obtain ⟨ids, g', hdone, h', hsize', hids⟩ := ih h₁ (by omega)
    refine ⟨g.tasks.size :: ids, g', ?_, h', ?_, ?_⟩
    · simp only [buildBranches, hadd, bind, Except.bind, hdone]
      rfl
    · rw [hsize', hsize, List.length_cons]
      omega
    · exact List.forall_mem_cons.2 ⟨by omega, hids⟩

/-- A stage ends with a marker after its branches. -/
theorem buildStages_done (hP : ∀ name, P (Task.addCmx { name, kind := .compute 2 } (96 * kb)))
    (hmarkers : ∀ name, P { name, kind := .control }) (width : Nat) (stages : List Nat)
    (h : Grown P g) (marker : Nat) (hmarker : marker < g.tasks.size) :
    ∃ g', buildStages width stages marker g = .ok g' ∧ Grown P g' ∧
      g'.tasks.size = g.tasks.size + stages.length * (width + 1) := by
  induction stages generalizing g marker with
  | nil => exact ⟨g, rfl, h, by simp⟩
  | cons stage rest ih =>
    obtain ⟨ids, g₁, hbranches, h₁, hsize₁, hids⟩ :=
      buildBranches_done hP stage marker (List.range width) h hmarker
    obtain ⟨g₂, hadd, h₂, hsize, -⟩ :=
      h₁.addAfter (hmarkers ("sync" ++ toString (stage + 1))) ids hids
    obtain ⟨g', hdone, h', hsize'⟩ := ih h₂ g₁.tasks.size (by omega)
    refine ⟨g', ?_, h', ?_⟩
    · simp only [buildStages, hbranches, hadd, bind, Except.bind, hdone]
    · rw [hsize', hsize, hsize₁, List.length_range, List.length_cons, Nat.succ_mul]
      omega

/-- The tasks of a block come after its input and its weights. -/
theorem buildBlocks_done
    (hweights : ∀ name, P ((Task.addDdr { name, kind := .dma } (32 * kb)).addCmx (32 * kb)))
    (hconv : ∀ name, P (Task.addCmx { name, kind := .compute 4 } (128 * kb)))
    (hsum : ∀ name, P (Task.addCmx { name, kind := .compute 1 } (64 * kb)))
    (blocks : List Nat) (h : Grown P g) (input : Nat) (hinput : input < g.tasks.size) :
    ∃ g', buildBlocks blocks input g = .ok g' ∧ Grown P g' ∧
      g'.tasks.size = g.tasks.size + blocks.length * 4 := by
  induction blocks generalizing g input with
  | nil => exact ⟨g, rfl, h, rfl⟩
  | cons block rest ih =>
    obtain ⟨g₁, hadd₁, h₁, hsize₁, -⟩ :=
      h.addAfter (hweights ("w" ++ toString block)) [] (by simp)
    obtain ⟨g₂, hadd₂, h₂, hsize₂, -⟩ := h₁.addAfter (hconv ("conv" ++ toString block ++ "a"))
      [input, g.tasks.size] (by simp; omega)
    obtain ⟨g₃, hadd₃, h₃, hsize₃, -⟩ := h₂.addAfter (hconv ("conv" ++ toString block ++ "b"))
      [g₁.tasks.size] (by simp; omega)
    obtain ⟨g₄, hadd₄, h₄, hsize₄, -⟩ := h₃.addAfter (hsum ("add" ++ toString block))
      [input, g₂.tasks.size] (by simp; omega)
    obtain ⟨g', hdone, h', hsize'⟩ := ih h₄ g₃.tasks.size (by omega)
    refine ⟨g', ?_, h', ?_⟩
    · simp only [buildBlocks, hadd₁, hadd₂, hadd₃, hadd₄, bind, Except.bind, hdone]
    · rw [hsize', hsize₄, hsize₃, hsize₂, hsize₁, List.length_cons]
      omega

/-! ## Light tasks -/

/-- The task needs little memory and few slots under the usual settings, and some memory if
it posts. -/
structure Light (t : Task) : Prop where
  bytes_le : t.alignedBytes {} ≤ 128 * kb
  demand_le : t.demand ≤ 4
  bytes_pos : 0 < t.demand → 0 < Word.total (t.sizesIn .cmx)

/-- Only the sizes in scratch memory and the kind of a task play a part. -/
theorem light_of_sizes {t : Task} (sizes : List Nat) (kind : TaskKind)
    (hsizes : t.sizesIn .cmx = sizes) (hkind : t.kind = kind)
    (hbytes : Word.total (sizes.map (Word.alignUp · 64)) ≤ 128 * kb)
    (hdemand : kind.demand ≤ 4 ∧ (0 < kind.demand → 0 < Word.total sizes)) : Light t := by
  subst hsizes hkind
  exact ⟨hbytes, hdemand.1, hdemand.2⟩

/-- Every task of a chain is light and posts. -/
theorem light_chainTask (i : Nat) : Light (chainTask i) ∧ 0 < (chainTask i).demand := by
  unfold chainTask
  split
  · exact ⟨light_of_sizes [16 * kb] .dma rfl rfl (by decide) (by decide), Nat.one_pos⟩
  · exact ⟨light_of_sizes [48 * kb] (.compute 4) rfl rfl (by decide) (by decide), Nat.succ_pos 3⟩
  · exact ⟨light_of_sizes [16 * kb] .dma rfl rfl (by decide) (by decide), Nat.one_pos⟩

theorem light_marker (name : String) : Light { name, kind := .control } :=
  light_of_sizes [] .control rfl rfl (by decide) (by decide)

theorem light_branch (name : String) :
    Light (Task.addCmx { name, kind := .compute 2 } (96 * kb)) :=
  light_of_sizes [96 * kb] (.compute 2) rfl rfl (by decide) (by decide)

/-! ## The graphs of all shapes -/

/-- The number of tasks of a shape. -/
def count : Workload → (size : Nat) → Nat
  | .chain, size => size
  | .fanOut width, size => 1 + quotientUp size (width + 1) * (width + 1)
  | .residual, size => 1 + quotientUp size 4 * 4

/-- The graph of a chain is a line of tasks that post. -/
theorem build_chain (size : Nat) :
    ∃ g, chain.build size = .ok g ∧ Grown Light g ∧ g.tasks.size = chain.count size ∧
      g.Line size ∧ ∀ i < size, 0 < (g.task i).demand := by
  obtain ⟨g, hdone, h, hsize, hnext⟩ := buildChain_done
    (P := fun t => Light t ∧ 0 < t.demand) light_chainTask (List.range size)
    (grown_empty _) (by simp [TaskGraph.empty]) [] (by simp [TaskGraph.empty])
  have hlength : g.tasks.size = size := by simpa [TaskGraph.empty] using hsize
  rw [hlength] at hnext
  have hline : g.Line size := ⟨hlength ▸ h.ids_eq, hnext⟩
  exact ⟨g, hdone, h.imp fun t ht => ht.1, hlength, hline,
    fun i hi => (h.task (hline.mem_ids_iff.2 hi)).2⟩

theorem build_fanOut {width : Nat} (hwidth : width < Word.bound - 1) (size : Nat) :
    ∃ g, (fanOut width).build size = .ok g ∧ Grown Light g ∧
      g.tasks.size = (fanOut width).count size := by
  obtain ⟨heq, hgrown, hsize⟩ := (grown_empty _).addTask (light_marker "sync0")
  obtain ⟨g, hdone, h, hsize'⟩ := buildStages_done light_branch light_marker width
    (List.range (quotientUp size (width + 1))) hgrown 0 (by omega)
  have hadd : Word.add width 1 = .ok (width + 1) := Word.add_eq_ok_iff.2 ⟨by omega, rfl⟩
  refine ⟨g, ?_, h, ?_⟩
  · simp only [build, hadd, bind, Except.bind]
    rw [heq]
    exact hdone
  · rw [hsize', hsize, List.length_range]
    rfl

theorem build_residual (size : Nat) :
    ∃ g, residual.build size = .ok g ∧ Grown Light g ∧ g.tasks.size = residual.count size := by
  have hinput :
      Light ((Task.addDdr { name := "input", kind := .dma } (64 * kb)).addCmx (64 * kb)) :=
    light_of_sizes [64 * kb] .dma rfl rfl (by decide) (by decide)
  obtain ⟨heq, hgrown, hsize⟩ := (grown_empty _).addTask hinput
  obtain ⟨g, hdone, h, hsize'⟩ := buildBlocks_done
    (fun name => light_of_sizes [32 * kb] .dma rfl rfl (by decide) (by decide))
    (fun name => light_of_sizes [128 * kb] (.compute 4) rfl rfl (by decide) (by decide))
    (fun name => light_of_sizes [64 * kb] (.compute 1) rfl rfl (by decide) (by decide))
    (List.range (quotientUp size 4)) hgrown 0 (by omega)
  refine ⟨g, ?_, h, ?_⟩
  · simp only [build]
    rw [heq]
    exact hdone
  · rw [hsize', hsize, List.length_range]
    rfl

/-- Every shape is built, from light tasks. -/
theorem exists_build (w : Workload)
    (hwidth : ∀ width, w = .fanOut width → width < Word.bound - 1) (size : Nat) :
    ∃ g, w.build size = .ok g ∧ Grown Light g ∧ g.size = w.count size ∧
      (w = .chain → g.Line size ∧ ∀ i < size, 0 < (g.task i).demand) := by
  have hsize : ∀ {g : TaskGraph}, Grown Light g → g.size = g.tasks.size := by
    intro g hg
    rw [TaskGraph.size, hg.ids_eq, List.length_range]
  cases w with
  | chain =>
    obtain ⟨g, hbuild, hg, hcount, hline⟩ := build_chain size
    exact ⟨g, hbuild, hg, (hsize hg).trans hcount, fun _ => hline⟩
  | fanOut width =>
    obtain ⟨g, hbuild, hg, hcount⟩ := build_fanOut (hwidth width rfl) size
    exact ⟨g, hbuild, hg, (hsize hg).trans hcount, fun h => by cases h⟩
  | residual =>
    obtain ⟨g, hbuild, hg, hcount⟩ := build_residual size
    exact ⟨g, hbuild, hg, (hsize hg).trans hcount, fun h => by cases h⟩

/-- Light tasks need little memory each. -/
theorem total_cmxBytes_le {w : Workload} {size : Nat}
    (hwidth : ∀ width, w = .fanOut width → width < Word.bound - 1) (hbuild : w.build size = .ok g) :
    Word.total (g.ids.map g.cmxBytes) ≤ w.count size * (128 * kb) := by
  obtain ⟨g', hbuild', hg, hcount, -⟩ := exists_build w hwidth size
  obtain rfl : g = g' := Except.ok.inj (hbuild.symm.trans hbuild')
  have hlight : ∀ bytes ∈ g.ids.map g.cmxBytes, bytes ≤ 128 * kb := by
    intro bytes hbytes
    obtain ⟨id, hid, rfl⟩ := List.mem_map.1 hbytes
    exact Nat.le_trans (g.cmxBytes_le_alignedBytes {} id) (hg.task hid).bytes_le
  have hle := List.sum_le_card_nsmul _ _ hlight
  rwa [List.length_map, Nat.nsmul_eq_mul, ← TaskGraph.size, hcount] at hle

/-! ## Planning a shape -/

/-- Shapes differ in the size of the memory only. -/
structure Usual (settings : Settings) : Prop where
  alignment_eq : settings.alignment = 64
  slots_eq : settings.slotsPerBarrier = 256
  count_eq : settings.barrierCount = 8
  le_cmxSize : 384 * kb ≤ settings.cmxSize
  cmxSize_le : settings.cmxSize ≤ 1024 * kb

variable {settings : Settings}

theorem Usual.validate (h : Usual settings) : settings.validate = .ok () := by
  have hcmx : 0 < settings.cmxSize := Nat.lt_of_lt_of_le (by decide) h.le_cmxSize
  rw [Settings.validate_eq_ok_iff, h.alignment_eq, h.slots_eq, h.count_eq]
  exact ⟨hcmx, by decide, by decide, by decide +kernel⟩

theorem Usual.alignedBytes_le (h : Usual settings) {t : Task} (ht : Light t) :
    t.alignedBytes settings ≤ 128 * kb := by
  unfold Task.alignedBytes
  rw [h.alignment_eq]
  exact ht.bytes_le

theorem Usual.fitsAlone (h : Usual settings) {t : Task} (ht : Light t) : t.FitsAlone settings := by
  constructor
  · calc t.alignedBytes settings
        ≤ 128 * kb := h.alignedBytes_le ht
      _ ≤ 384 * kb := by decide
      _ ≤ settings.cmxSize := h.le_cmxSize
  · rw [h.slots_eq]
    exact Nat.le_trans ht.demand_le (by decide)

/-- Who posts needs memory, so there are no more of them than bytes. -/
theorem length_posters_le (h : Grown Light g) :
    g.posters.length ≤ Word.total (g.ids.map g.cmxBytes) := by
  have hpos : ∀ id ∈ g.ids, 0 < (g.task id).demand → 0 < g.cmxBytes id :=
    fun id hid => (h.task hid).bytes_pos
  unfold posters
  generalize g.ids = ids at hpos
  induction ids with
  | nil => exact Nat.zero_le _
  | cons id rest ih =>
    obtain ⟨hid, hrest⟩ := List.forall_mem_cons.1 hpos
    have hle := ih hrest
    rw [List.map_cons, Word.total_cons, List.filter_cons]
    split
    · next hposts =>
      have hbytes := hid (of_decide_eq_true hposts)
      rw [List.length_cons]
      omega
    · omega

theorem Usual.sized (h : Usual settings) (hg : Grown Light g)
    (hbytes : Word.total (g.ids.map g.cmxBytes) ≤ FlowNetwork.unbounded) :
    Plan.Sized settings g where
  wellFormed := hg.linked.wellFormed (by
    have hle := length_posters_le hg
    have hword : FlowNetwork.unbounded < Word.bound - 1 := by decide
    omega)
  slots_lt := by
    rw [h.slots_eq]
    decide
  bytes_le := hbytes
  aligned_lt id hid := Nat.lt_of_le_of_lt (h.alignedBytes_le (hg.task hid)) (by decide)

end Workload

end TaskLoom
