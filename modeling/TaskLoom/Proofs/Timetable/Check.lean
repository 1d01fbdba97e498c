import TaskLoom.Proofs.Graph.Edges
import TaskLoom.Proofs.Timetable.Times
import TaskLoom.Timetable.Check

/-!
# When the checks pass

The checks of a schedule pass if what they look for holds: times that grow along
edges, and barriers with two sides in order of time that together enforce the edges
out of tasks that post.

The check of the barriers passes in no other case.  It searches along barriers with a
mark for every task, and what it marks is the closure of "posts a barrier that the other
waits for", whatever barriers it is given, as long as their ids differ.

## Main results

* `checkDependencies_ok` — the check of the edges.
* `enforces_iff` — the search along barriers finds the chains of them.
* `checkBarriers_ok` — the check of the barriers that a timetable was wired with.
* `checkBarriers_verdict` — the check of any barriers.
-/

namespace TaskLoom

/-- A task posts a barrier of the list that another waits for. -/
def VirtualBarrier.Signals (barriers : List VirtualBarrier) (u v : Nat) : Prop :=
  ∃ b ∈ barriers, u ∈ b.producers ∧ v ∈ b.consumers

namespace Timetable

open VirtualBarrier (Signals)

variable {g : TaskGraph} {placements : List Placement} {barriers : List VirtualBarrier}

/-- One check after the other passes if both do. -/
theorem bind_eq_ok_iff {first : Except Fault Unit} {next : Unit → Except Fault Unit} :
    (first >>= next) = .ok () ↔ first = .ok () ∧ next () = .ok () := by
  cases first with
  | error fault => simp [bind, Except.bind]
  | ok _ => simp [bind, Except.bind]

theorem checkEach_eq_ok_iff {α : Type} {check : α → Except Fault Unit} {l : List α} :
    checkEach check l = .ok () ↔ ∀ a ∈ l, check a = .ok () := by
  induction l with
  | nil => simp [checkEach]
  | cons a l ih => rw [checkEach, bind_eq_ok_iff, ih, List.forall_mem_cons]

/-! ## Dependencies -/

theorem checkDependencies_ok (hg : g.WellFormed) (h : Orders g placements) :
    checkDependencies g placements = .ok () := by
  have hnone : g.ids.find? (fun id => (timeOf? placements id).isNone) = none := by
    refine List.find?_eq_none.2 fun id hid => ?_
    obtain ⟨p, hp, rfl⟩ := h.exists_placement hid
    simp [timeOf?_of_mem h.nodup hp]
  unfold checkDependencies
  rw [hnone]
  refine checkEach_eq_ok_iff.2 fun e he => ?_
  have hedge := TaskGraph.mem_dependencies.1 he
  have hlt := h.startOf_lt hg ⟨e, hedge, rfl, rfl⟩
  unfold checkEdge
  rw [h.timeOf_eq_ok (hg.source_mem e hedge), h.timeOf_eq_ok (hg.target_mem e hedge)]
  simp only [bind, Except.bind, Nat.not_le.2 hlt, if_false]
  rfl

/-! ## Barriers -/

/-- Barriers that are numbered by their place in the list. -/
def Numbered (barriers : List VirtualBarrier) : Prop :=
  ∀ (i : Nat) (b : VirtualBarrier), barriers[i]? = some b → b.id = i

theorem Numbered.ids_eq (h : Numbered barriers) :
    barriers.map (·.id) = List.range barriers.length := by
  apply List.ext_getElem
  · simp
  · intro i hi _
    rw [List.length_map] at hi
    rw [List.getElem_map, List.getElem_range, h i _ (List.getElem?_eq_getElem hi)]

theorem Numbered.nodup_ids (h : Numbered barriers) : (barriers.map (·.id)).Nodup :=
  h.ids_eq ▸ List.nodup_range

/-- Barriers with different ids are found by their ids. -/
theorem consumersOf_eq (hids : (barriers.map (·.id)).Nodup) {b : VirtualBarrier}
    (hb : b ∈ barriers) : consumersOf barriers b.id = b.consumers := by
  have hfound : (barriers.reverse.find? (·.id == b.id)).isSome = true :=
    List.find?_isSome.2 ⟨b, List.mem_reverse.2 hb, beq_self_eq_true b.id⟩
  obtain ⟨c, hfind⟩ := Option.isSome_iff_exists.1 hfound
  have hc : c ∈ barriers := List.mem_reverse.1 (List.mem_of_find?_eq_some hfind)
  have hid : c.id = b.id := by simpa using List.find?_some hfind
  have hcb : c = b := List.inj_on_of_nodup_map hids hc hb hid
  simp [consumersOf, hfind, hcb]

/-- What a table gains when lists are put in front of some of its entries. -/
theorem mem_foldl_modify_append {α : Type} (key : α → Nat) (values : α → List Nat) (es : List α)
    (table : Array (List Nat)) (v x : Nat) :
    x ∈ (es.foldl (fun table e => table.modify (key e) (values e ++ ·)) table).getD v [] ↔
      x ∈ table.getD v [] ∨ v < table.size ∧ ∃ e ∈ es, key e = v ∧ x ∈ values e := by
  induction es generalizing table with
  | nil => simp
  | cons e es ih =>
    have hstep : x ∈ (table.modify (key e) (values e ++ ·)).getD v [] ↔
        x ∈ table.getD v [] ∨ v < table.size ∧ key e = v ∧ x ∈ values e := by
      by_cases hv : v < table.size
      · by_cases hk : key e = v
        · subst hk
          simp [Array.getElem_modify, hv, or_comm]
        · simp [Array.getElem_modify, hv, hk]
      · simp [hv]
    rw [List.foldl_cons, ih, hstep, Array.size_modify]
    simp only [List.exists_mem_cons_iff]
    tauto

theorem waitTable_eq (count : Nat) (barriers : List VirtualBarrier) :
    waitTable count barriers =
      (barriers.flatMap fun b => b.producers.map fun p => (b, p)).foldl
        (fun table e => table.modify e.2 (consumersOf barriers e.1.id ++ ·))
        (Array.replicate count []) := by
  rw [List.foldl_flatMap]
  simp only [List.foldl_map]
  rfl

theorem size_foldl_modify {α : Type} (key : α → Nat) (values : α → List Nat) (es : List α)
    (table : Array (List Nat)) :
    (es.foldl (fun table e => table.modify (key e) (values e ++ ·)) table).size = table.size := by
  induction es generalizing table with
  | nil => rfl
  | cons e es ih => rw [List.foldl_cons, ih, Array.size_modify]

@[simp]
theorem size_waitTable (count : Nat) (barriers : List VirtualBarrier) :
    (waitTable count barriers).size = count := by
  rw [waitTable_eq]
  exact (size_foldl_modify (fun e : VirtualBarrier × Nat => e.2) _ _ _).trans (by simp)

theorem lt_taskBound {b : VirtualBarrier} (hb : b ∈ barriers) {x : Nat}
    (hx : x ∈ b.producers ++ b.consumers) : x < taskBound barriers := by
  have hlt : ∀ tasks : List Nat, x ∈ tasks →
      x < tasks.foldr (fun task bound => max (task + 1) bound) 0 := by
    intro tasks hmem
    induction tasks with
    | nil => cases hmem
    | cons task tasks ih =>
      rw [List.foldr_cons]
      rcases List.mem_cons.1 hmem with rfl | hmem
      · omega
      · have hrest := ih hmem
        omega
  exact hlt _ (List.mem_flatMap.2 ⟨b, hb, hx⟩)

/-- The table lists for each task who waits for a barrier that it posts. -/
theorem mem_waitTable (hids : (barriers.map (·.id)).Nodup) {u v : Nat} :
    v ∈ (waitTable (taskBound barriers) barriers).getD u [] ↔ Signals barriers u v := by
  rw [waitTable_eq, mem_foldl_modify_append (fun e : VirtualBarrier × Nat => e.2)]
  simp only [Array.size_replicate, List.mem_flatMap, List.mem_map]
  constructor
  · rintro (hnone | ⟨-, e, ⟨b, hb, p, hp, rfl⟩, rfl, hv⟩)
    · simp [Array.getElem?_replicate] at hnone
      split at hnone <;> simp at hnone
    · exact ⟨b, hb, hp, consumersOf_eq hids hb ▸ hv⟩
  · rintro ⟨b, hb, hp, hv⟩
    exact Or.inr ⟨lt_taskBound hb (List.mem_append_left _ hp), (b, u), ⟨b, hb, u, hp, rfl⟩, rfl,
      (consumersOf_eq hids hb).symm ▸ hv⟩

/-- The search along barriers finds the chains of them. -/
theorem enforces_iff (hids : (barriers.map (·.id)).Nodup) {u v : Nat} :
    enforces (waitTable (taskBound barriers) barriers) u v = true ↔
      Relation.TransGen (Signals barriers) u v := by
  have hlt : ∀ {a b : Nat}, Signals barriers a b → b < taskBound barriers := by
    rintro a b ⟨k, hk, -, hb⟩
    exact lt_taskBound hk (List.mem_append_right _ hb)
  have hexpands : Expands (fun v => (waitTable (taskBound barriers) barriers).getD v [])
      (taskBound barriers) = Signals barriers := by
    funext a b
    show (_ ∧ _) = _
    rw [mem_waitTable hids]
    exact propext ⟨fun hab => hab.1, fun hab => ⟨hab, hlt hab⟩⟩
  simp only [enforces, size_waitTable]
  rw [explore_marks_iff, hexpands, Relation.TransGen.head'_iff]
  simp only [mem_waitTable hids]
  constructor
  · rintro ⟨x, hux, -, hxv⟩
    exact ⟨x, hux, hxv⟩
  · rintro ⟨x, hux, hxv⟩
    exact ⟨x, hux, hlt hux, hxv⟩

/-- Two placed tasks are found in order or not. -/
theorem checkPair_eq {id p c : Nat} (hp : p ∈ placements.map (·.task))
    (hc : c ∈ placements.map (·.task)) :
    checkPair g placements id (p, c) =
      if startOf placements p < startOf placements c then .ok ()
      else .error (.breached (.barrierOrder id (g.name p) (g.name c))) := by
  unfold checkPair
  simp only [timeOf_eq_ok hp, timeOf_eq_ok hc, bind, Except.bind]
  by_cases hlt : startOf placements p < startOf placements c
  · rw [if_neg (Nat.not_le.2 hlt), if_pos hlt]
    rfl
  · rw [if_pos (Nat.not_lt.1 hlt), if_neg hlt]

theorem checkBarrier_eq_ok_iff {b : VirtualBarrier}
    (hplaced : ∀ x ∈ b.producers ++ b.consumers, x ∈ placements.map (·.task)) :
    checkBarrier g placements b = .ok () ↔ b.producers ≠ [] ∧ b.consumers ≠ [] ∧
      ∀ p ∈ b.producers, ∀ c ∈ b.consumers, startOf placements p < startOf placements c := by
  have hpairs : checkEach (checkPair g placements b.id)
      (b.producers.flatMap fun p => b.consumers.map fun c => (p, c)) = .ok () ↔
        ∀ p ∈ b.producers, ∀ c ∈ b.consumers, startOf placements p < startOf placements c := by
    rw [checkEach_eq_ok_iff, List.forall_mem_flatMap]
    refine forall₂_congr fun p hp => ?_
    rw [List.forall_mem_map]
    refine forall₂_congr fun c hc => ?_
    rw [checkPair_eq (hplaced p (List.mem_append_left _ hp))
      (hplaced c (List.mem_append_right _ hc))]
    by_cases hlt : startOf placements p < startOf placements c <;> simp [hlt]
  unfold checkBarrier
  by_cases hproducers : b.producers = []
  · simp [hproducers, bind, Except.bind]
  by_cases hconsumers : b.consumers = []
  · simp [hproducers, hconsumers, bind, Except.bind]
  rw [← hpairs]
  simp [hproducers, hconsumers]

theorem checkEnforced_eq_ok_iff (hids : (barriers.map (·.id)).Nodup) {e : Edge} :
    checkEnforced g (posting placements) (waitTable (taskBound barriers) barriers) e = .ok () ↔
      (e.source ∈ posting placements →
        Relation.TransGen (Signals barriers) e.source e.target) := by
  rw [← enforces_iff hids]
  unfold checkEnforced
  by_cases hpost : e.source ∈ posting placements
  · simp [hpost]
  · simp [hpost]

/-- Barriers with two sides in order of time that together enforce every path out of
a task that posts. -/
structure Enforced (g : TaskGraph) (placements : List Placement)
    (barriers : List VirtualBarrier) : Prop where
  numbered : Numbered barriers
  sides : ∀ b ∈ barriers, b.producers ≠ [] ∧ b.consumers ≠ []
  times : ∀ p c, Signals barriers p c →
    p ∈ g.ids ∧ c ∈ g.ids ∧ startOf placements p < startOf placements c
  chains : ∀ u v, u ∈ posting placements → g.Before u v →
    Relation.TransGen (Signals barriers) u v

theorem checkBarriers_ok (h : Orders g placements) (hb : Enforced g placements barriers) :
    checkBarriers g placements barriers = .ok () := by
  have hplaced : ∀ {x : Nat}, x ∈ g.ids → x ∈ placements.map (·.task) := h.perm.mem_iff.2
  have heach : checkEach (checkBarrier g placements) barriers = .ok () := by
    refine checkEach_eq_ok_iff.2 fun b hmem => ?_
    have hsides := hb.sides b hmem
    have htimes := fun p hp c hc => hb.times p c ⟨b, hmem, hp, hc⟩
    obtain ⟨p, hp⟩ := List.exists_mem_of_ne_nil _ hsides.1
    obtain ⟨c, hc⟩ := List.exists_mem_of_ne_nil _ hsides.2
    refine (checkBarrier_eq_ok_iff fun x hx => ?_).2
      ⟨hsides.1, hsides.2, fun p hp c hc => (htimes p hp c hc).2.2⟩
    rcases List.mem_append.1 hx with hx | hx
    · exact hplaced (htimes x hx c hc).1
    · exact hplaced (htimes p hp x hx).2.1
  unfold checkBarriers
  rw [heach]
  refine checkEach_eq_ok_iff.2 fun e he => ?_
  refine (checkEnforced_eq_ok_iff hb.numbered.nodup_ids).2 fun hpost => ?_
  exact hb.chains _ _ hpost (.single ⟨e, TaskGraph.mem_dependencies.1 he, rfl, rfl⟩)

/-! ## The verdict -/

/-- A check that passes or names a breach. -/
def Judged (result : Except Fault Unit) : Prop :=
  result = .ok () ∨ ∃ breach, result = .error (.breached breach)

theorem Judged.bind {first : Except Fault Unit} {next : Unit → Except Fault Unit}
    (hfirst : Judged first) (hnext : Judged (next ())) : Judged (first >>= next) := by
  rcases hfirst with rfl | ⟨breach, rfl⟩
  · exact hnext
  · exact Or.inr ⟨breach, rfl⟩

theorem judged_checkEach {α : Type} {check : α → Except Fault Unit} {l : List α}
    (h : ∀ a ∈ l, Judged (check a)) : Judged (checkEach check l) := by
  induction l with
  | nil => exact Or.inl rfl
  | cons a l ih =>
    obtain ⟨ha, hl⟩ := List.forall_mem_cons.1 h
    exact ha.bind (ih hl)

theorem judged_checkBarrier {b : VirtualBarrier}
    (hplaced : ∀ x ∈ b.producers ++ b.consumers, x ∈ placements.map (·.task)) :
    Judged (checkBarrier g placements b) := by
  have hpairs : Judged (checkEach (checkPair g placements b.id)
      (b.producers.flatMap fun p => b.consumers.map fun c => (p, c))) := by
    apply judged_checkEach
    rintro ⟨p, c⟩ hpair
    obtain ⟨p', hp, hpair⟩ := List.mem_flatMap.1 hpair
    obtain ⟨c', hc, heq⟩ := List.mem_map.1 hpair
    cases heq
    rw [checkPair_eq (hplaced p (List.mem_append_left _ hp))
      (hplaced c (List.mem_append_right _ hc))]
    split
    · exact Or.inl rfl
    · exact Or.inr ⟨_, rfl⟩
  unfold checkBarrier
  by_cases hproducers : b.producers = []
  · exact Or.inr ⟨.danglingBarrier b.id .producer, by simp [hproducers, bind, Except.bind]⟩
  by_cases hconsumers : b.consumers = []
  · exact Or.inr ⟨.danglingBarrier b.id .consumer, by
      simp [hproducers, hconsumers, bind, Except.bind]⟩
  simpa [hproducers, hconsumers] using hpairs

theorem judged_checkEnforced (posting : List Nat) (table : Array (List Nat)) (e : Edge) :
    Judged (checkEnforced g posting table e) := by
  unfold checkEnforced
  split
  · exact Or.inr ⟨_, rfl⟩
  · exact Or.inl rfl

/-- Barriers with different ids, all of whose tasks are placed, pass the check exactly if each has
two sides in order of time and every edge out of a task that posts is a chain of them.  If the
placed tasks are tasks of the graph, a check that does not pass names a breach. -/
theorem checkBarriers_verdict (hids : (barriers.map (·.id)).Nodup)
    (hplaced : ∀ b ∈ barriers, ∀ x ∈ b.producers ++ b.consumers, x ∈ placements.map (·.task)) :
    (checkBarriers g placements barriers = .ok () ↔
      (∀ b ∈ barriers, b.producers ≠ [] ∧ b.consumers ≠ []) ∧
      (∀ b ∈ barriers, ∀ p ∈ b.producers, ∀ c ∈ b.consumers,
        startOf placements p < startOf placements c) ∧
      ∀ u v, g.Joins u v → u ∈ posting placements →
        Relation.TransGen (Signals barriers) u v) ∧
    ((∀ p ∈ placements, p.task ∈ g.ids) → Judged (checkBarriers g placements barriers)) := by
  have hbarriers : checkEach (checkBarrier g placements) barriers = .ok () ↔
      ∀ b ∈ barriers, b.producers ≠ [] ∧ b.consumers ≠ [] ∧ ∀ p ∈ b.producers,
        ∀ c ∈ b.consumers, startOf placements p < startOf placements c := by
    rw [checkEach_eq_ok_iff]
    exact forall₂_congr fun b hb => checkBarrier_eq_ok_iff (hplaced b hb)
  have hedges : checkEach (checkEnforced g (posting placements)
      (waitTable (taskBound barriers) barriers)) g.dependencies = .ok () ↔
        ∀ u v, g.Joins u v → u ∈ posting placements →
          Relation.TransGen (Signals barriers) u v := by
    rw [checkEach_eq_ok_iff]
    constructor
    · rintro h u v ⟨e, he, rfl, rfl⟩
      exact (checkEnforced_eq_ok_iff hids).1 (h e (TaskGraph.mem_dependencies.2 he))
    · intro h e he
      exact (checkEnforced_eq_ok_iff hids).2
        (h e.source e.target ⟨e, TaskGraph.mem_dependencies.1 he, rfl, rfl⟩)
  unfold checkBarriers
  constructor
  · rw [bind_eq_ok_iff, hbarriers, hedges]
    constructor
    · rintro ⟨hsides, hchains⟩
      exact ⟨fun b hb => ⟨(hsides b hb).1, (hsides b hb).2.1⟩, fun b hb => (hsides b hb).2.2,
        hchains⟩
    · rintro ⟨hsides, htimes, hchains⟩
      exact ⟨fun b hb => ⟨(hsides b hb).1, (hsides b hb).2, htimes b hb⟩, hchains⟩
  · intro _
    exact (judged_checkEach fun b hb => judged_checkBarrier (hplaced b hb)).bind
      (judged_checkEach fun e _ => judged_checkEnforced _ _ e)

/-- The edge from the first task to the one that posts nothing is a chain of two barriers. -/
theorem checkBarriers_verdict_diamond :
    let placements : List Placement :=
      [⟨0, 0, some ⟨1⟩, 1, []⟩, ⟨1, 1, some ⟨1⟩, 3, []⟩, ⟨3, 2, none, 0, []⟩,
        ⟨4, 3, some ⟨2⟩, 1, []⟩]
    let barriers : List VirtualBarrier := [⟨9, ⟨1⟩, [0], [1]⟩, ⟨4, ⟨1⟩, [1], [3, 4]⟩]
    (barriers.map (·.id)).Nodup ∧
      (∀ b ∈ barriers, ∀ x ∈ b.producers ++ b.consumers, x ∈ placements.map (·.task)) ∧
      checkBarriers .diamond placements barriers = .ok () := by
  intro placements barriers
  have hids : (barriers.map (·.id)).Nodup := by decide
  have hplaced : ∀ b ∈ barriers, ∀ x ∈ b.producers ++ b.consumers,
      x ∈ placements.map (·.task) := by decide
  have hfirst : Signals barriers 0 1 := ⟨_, List.mem_cons_self, by decide, by decide⟩
  have hsecond : ∀ v ∈ [3, 4], Signals barriers 1 v := fun v hv =>
    ⟨⟨4, ⟨1⟩, [1], [3, 4]⟩, by decide, by decide, hv⟩
  refine ⟨hids, hplaced, (checkBarriers_verdict hids hplaced).1.2 ⟨by decide, by decide, ?_⟩⟩
  rintro u v ⟨e, he, rfl, rfl⟩ hpost
  have hedge : e.source = 0 ∧ e.target = 1 ∨ e.source = 0 ∧ e.target = 3 ∨
      e.source = 1 ∧ e.target = 4 ∨ e.source ∉ posting placements :=
    (by decide : ∀ e ∈ TaskGraph.diamond.edges, e.source = 0 ∧ e.target = 1 ∨
      e.source = 0 ∧ e.target = 3 ∨ e.source = 1 ∧ e.target = 4 ∨
      e.source ∉ posting placements) e he
  rcases hedge with ⟨hu, hv⟩ | ⟨hu, hv⟩ | ⟨hu, hv⟩ | hnone
  · rw [hu, hv]
    exact .single hfirst
  · rw [hu, hv]
    exact .tail (.single hfirst) (hsecond 3 (by decide))
  · rw [hu, hv]
    exact .single (hsecond 4 (by decide))
  · exact absurd hpost hnone

end Timetable

end TaskLoom
