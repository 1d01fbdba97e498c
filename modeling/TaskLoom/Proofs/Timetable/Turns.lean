import TaskLoom.Proofs.Timetable.Board

/-!
# The turns of a board

A step of a run takes several turns of a board: one for each ready task that is placed, and one
in which the tasks of the step end.  Every edge of a finished task takes one off the count of
its target, and a target with no edge left joins the ready tasks.  These are the waiting tasks
that the run finds released.

Each turn places a task or ends a step, so twice as many turns as tasks are enough, and the
listing that is made of the board is the one of the run.

## Main results

* `Tracks.fill` — the turns in which a step is filled.
* `Leaving.retire`, `Tracks.advance` — the turn in which a step ends.
* `listing_eq` — the board makes the same listing.
-/

namespace TaskLoom.ListScheduler.Board

variable {s : ListScheduler} {r r' : Run} {ready : List Nat} {b b' : Board} {task : Nat}

/-! ## The turns of a step -/

theorem Tracks.goesOn_iff (h : Tracks s ready r b) :
    b.goesOn s = true ↔ r.placements.length < s.graph.size ∨ r.running ≠ [] := by
  have hempty : b.inFlight = [] ↔ r.running = [] := by
    rw [← List.length_eq_zero_iff, h.inFlight_perm.length_eq, List.length_map,
      List.length_eq_zero_iff]
  unfold goesOn
  rw [h.agrees.placements_eq, Bool.or_eq_true, decide_eq_true_eq, Bool.not_eq_true',
    List.isEmpty_eq_false_iff, ne_eq, hempty]

theorem loop_succ (hgoes : b.goesOn s = true) (limit : Nat) :
    b.loop s (limit + 1) = match b.turn s with
      | .failed fault b => some (.failed fault b)
      | .done () b => b.loop s limit := by
  rw [loop]
  exact if_pos hgoes

/-- The number of turns is large enough for what is left to do: one turn for each task that is
not placed, one for the end of its step, and one for the step that runs. -/
def Enough (s : ListScheduler) (r : Run) (limit : Nat) : Prop :=
  2 * s.graph.size + (if r.running = [] then 0 else 1) ≤ 2 * r.placements.length + limit

theorem Enough.of_eq {limit : Nat} (h : Enough s r limit) (hrunning : r'.running = r.running)
    (hplacements : r'.placements = r.placements) : Enough s r' limit := by
  unfold Enough
  rw [hrunning, hplacements]
  exact h

/-- As long as a task is not placed, there is a turn left. -/
theorem Enough.exists_succ {limit : Nat} (h : Enough s r limit)
    (hleft : r.placements.length < s.graph.size) : ∃ limit', limit = limit' + 1 := by
  unfold Enough at h
  exact ⟨limit - 1, by omega⟩

/-- More tasks are placed than before, and one turn is over. -/
theorem Enough.next {limit : Nat} (h : Enough s r (limit + 1))
    (hlength : r.placements.length + 1 ≤ r'.placements.length) : Enough s r' limit := by
  unfold Enough at h ⊢
  split <;> omega

/-- A step ends in one turn, after which nothing runs. -/
theorem Enough.advance {limit : Nat} (h : Enough s r limit) (hruns : r.running ≠ [])
    (hle : r.placements.length ≤ s.graph.size) (hidle : r'.running = [])
    (hplacements : r'.placements = r.placements) :
    ∃ limit', limit = limit' + 1 ∧ Enough s r' limit' := by
  unfold Enough at h ⊢
  rw [if_neg hruns] at h
  rw [if_pos hidle, hplacements]
  exact ⟨limit - 1, by omega, by omega⟩

/-- No more tasks are placed than there are, and fewer if some are not. -/
theorem length_placements_le (h : Sound s r) (left : List Nat)
    (hnodup : (r.placements.map (·.task) ++ left).Nodup) (hids : ∀ t ∈ left, t ∈ s.graph.ids) :
    r.placements.length + left.length ≤ s.graph.size := by
  have hsub : r.placements.map (·.task) ++ left ⊆ s.graph.ids := by
    refine List.append_subset.2 ⟨fun id hid => ?_, hids⟩
    obtain ⟨p, hp, rfl⟩ := List.mem_map.1 hid
    exact h.task_mem p hp
  have hle := (hnodup.subperm hsub).length_le
  rwa [List.length_append, List.length_map] at hle

theorem length_placements_lt {rest : List Nat} (h : Filling s (task :: rest) r) :
    r.placements.length < s.graph.size := by
  have hnodup := h.awaits.nodup
  rw [List.append_assoc] at hnodup
  have hsub : (task :: rest).Sublist (r.deferred ++ task :: rest) :=
    List.sublist_append_right _ _
  have hle := length_placements_le h.sound _
    (hnodup.sublist ((List.Sublist.refl _).append hsub)) h.awaits.mem_ids
  rw [List.length_cons] at hle
  omega

section FirstReady

variable {rest : List Nat}

/-- A turn ends with the first ready task if that cannot be checked. -/
theorem turn_of_failed {fault : Fault} (hready : b.ready = (task :: rest).map s.key)
    (hboard : b.consider s task none = .failed fault b') : b.turn s = .failed fault b' := by
  rw [turn, hready, List.map_cons, placeFirst, task_key]
  simp only [hboard]

/-- A task that is placed brings along what is hinted for it. -/
theorem turn_of_placed (hready : b.ready = (task :: rest).map s.key)
    (hboard : b.consider s task none = .done true b') :
    b.turn s = b'.prefetch s task (s.hints.beside task) := by
  rw [turn, hready, List.map_cons, placeFirst, task_key]
  simp only [hboard]

/-- A task that is set aside takes no turn of its own. -/
theorem turn_of_parked (hready : b.ready = (task :: rest).map s.key)
    (hboard : b.consider s task none = .done false b') (hready' : b'.ready = rest.map s.key) :
    b.turn s = b'.turn s := by
  unfold turn
  rw [hready, hready', List.map_cons, placeFirst, task_key]
  simp only [hboard]

end FirstReady

/-- A turn in which nothing is ready. -/
theorem turn_of_ready_nil (h : b.ready = []) :
    b.turn s = if b.inFlight.isEmpty then .failed (b.stuck s) b else b.retireNext s := by
  rw [turn, h]
  rfl

/-- The turns in which the ready tasks are considered. -/
theorem Tracks.fill (hg : s.graph.WellFormed) (hvalid : s.settings.validate = .ok ())
    (hcmx : s.settings.cmxSize < Word.bound) (ready : List Nat) (h : Tracks s ready r b)
    (hfilling : Filling s ready r) {limit : Nat} (henough : Enough s r limit) :
    match s.fill ready r with
    | .failed fault r' => ∃ b', b.loop s limit = some (.failed fault b') ∧ Agrees r' b'
    | .done () r' => ∃ b' limit', b.loop s limit = b'.loop s limit' ∧ Tracks s [] r' b' ∧
        Enough s r' limit' := by
  -- by the length: hints take tasks out of the middle, so what is left need not be a tail
  induction hlength : ready.length using Nat.strongRecOn generalizing ready r b limit with
  | ind length ih =>
    cases ready with
    | nil =>
      rw [ListScheduler.fill]
      exact ⟨b, limit, rfl, h, henough⟩
    | cons task rest =>
      have hleft := length_placements_lt hfilling
      have hgoes := h.goesOn_iff.2 (Or.inl hleft)
      obtain ⟨limit, rfl⟩ := henough.exists_succ hleft
      have hend := h.consider hg hvalid hcmx hfilling List.mem_cons_self none
      rw [List.erase_cons_head] at hend
      rw [ListScheduler.fill]
      cases hconsider : s.consider task none r with
      | failed fault r₁ =>
        rw [hconsider] at hend
        obtain ⟨b₁, hboard, hagrees⟩ := hend.exists_failed
        exact ⟨b₁, by rw [loop_succ hgoes, turn_of_failed h.ready_eq hboard], hagrees⟩
      | done placed r₁ =>
        rw [hconsider] at hend
        obtain ⟨b₁, hboard, hconsidered⟩ := hend.exists_done
        have hshorter : rest.length < length := hlength ▸ Nat.lt_succ_self _
        cases placed with
        | false =>
          obtain ⟨hrunning, hplacements⟩ := hconsidered.of_parked rfl
          have hgoes₁ := hconsidered.tracks.goesOn_iff.2 (Or.inl (hplacements ▸ hleft))
          have hturn := turn_of_parked h.ready_eq hboard hconsidered.tracks.ready_eq
          rw [loop_succ hgoes, hturn, ← loop_succ hgoes₁]
          exact ih _ hshorter rest hconsidered.tracks hconsidered.filling
            (henough.of_eq hrunning hplacements) rfl
        | true =>
          obtain ⟨hruns, hplaced⟩ := hconsidered.of_placed rfl
          have hprefetch := hconsidered.tracks.prefetch hg hvalid hcmx task (s.hints.beside task)
            hconsidered.filling
          rw [loop_succ hgoes, turn_of_placed h.ready_eq hboard]
          simp only
          cases hbeside : s.considerBeside task
              ((s.hints.beside task).filter rest.contains).eraseDups r₁ with
          | failed fault r₂ =>
            rw [hbeside] at hprefetch
            obtain ⟨b₂, hboard₂, hagrees⟩ := hprefetch.exists_failed
            rw [hboard₂]
            exact ⟨b₂, rfl, hagrees⟩
          | done value r₂ =>
            rw [hbeside] at hprefetch
            obtain ⟨b₂, hboard₂, hprefetched⟩ := hprefetch.exists_done
            have hle := length_leftOver_le
              ((s.hints.beside task).filter rest.contains).eraseDups rest
            have hlength₂ := hprefetched.length_le
            rw [hboard₂]
            exact ih _ (Nat.lt_of_le_of_lt hle hshorter) _ hprefetched.tracks hprefetched.filling
              (henough.next (by omega)) rfl

/-! ## The end of a step -/

/-- The board while tasks end: `left` still run, and the ready tasks are those that an edge
from one of `before` held back and that none holds back any more. -/
structure Leaving (s : ListScheduler) (before : List Nat) (left : List Placement) (r : Run)
    (b : Board) : Prop where
  agrees : Agrees r b
  ready_sorted : b.ready.Pairwise (· < ·)
  mem_ready : ∀ k, k ∈ b.ready ↔ ∃ v, s.key v = k ∧ 0 < s.graph.incoming before v ∧
    s.graph.incoming (s.unfinished r) v = 0
  live_eq : ∀ p ∈ left, b.live p.task = p.ranges
  counts_size : b.counts.size = s.graph.tasks.size
  count_eq : ∀ v, b.counts.getD v 0 = s.graph.incoming (s.unfinished r) v
  incoming_le : ∀ v, s.graph.incoming (s.unfinished r) v ≤ s.graph.incoming before v
  retired_size : r.retired.size = s.graph.tasks.size
  nodup : (left.map (·.task)).Nodup
  mem_unfinished : ∀ p ∈ left, p.task ∈ s.unfinished r

/-- What a task that ends gives back, and what else changes with it. -/
theorem retire_done {p : Placement} (h : ListScheduler.retire p r = .done () r') :
    ∃ returned, Run.giveBack r.memory p.ranges = .ok r'.memory ∧
      r.barriers.release p.task = .ok (returned, r'.barriers) ∧
      r'.retired = r.retired.setIfInBounds p.task true ∧
      ∀ b, Agrees (r.enter p.task .retired) b →
        Agrees r' { b with memory := r'.memory, barriers := r'.barriers } := by
  unfold ListScheduler.retire at h
  simp only at h
  split at h
  · cases h
  · next memory hgive =>
    split at h
    · cases h
    · next returned barriers hrelease =>
      cases h
      exact ⟨returned, hgive, hrelease, rfl, fun b hagrees =>
        { hagrees with memory_eq := rfl, barriers_eq := rfl }⟩

/-- The edges of a finished task are taken off the counts, and its targets that none holds back
any more are told. -/
theorem Leaving.cross {before : List Nat} {left : List Placement} (h : Leaving s before left r b)
    (hg : s.graph.WellFormed) (htask : task ∈ s.unfinished r)
    (hafter : s.unfinished r' = (s.unfinished r).erase task) :
    ∃ tally, TaskGraph.Tally.crossAll ⟨b.counts, []⟩ (s.graph.targets task) = .ok tally ∧
      tally.counts.size = s.graph.tasks.size ∧
      (∀ v, tally.count v = s.graph.incoming (s.unfinished r') v) ∧
      (∀ v, s.graph.incoming (s.unfinished r') v ≤ s.graph.incoming (s.unfinished r) v) ∧
      ∀ v, v ∈ tally.ready ↔ 0 < s.graph.incoming (s.unfinished r) v ∧
        s.graph.incoming (s.unfinished r') v = 0 := by
  have hedges := TaskGraph.incoming_erase (g := s.graph) (nodup_unfinished s r) htask
  rw [← hafter] at hedges
  have hcount : ∀ v, TaskGraph.Tally.count ⟨b.counts, []⟩ v =
      s.graph.incoming (s.unfinished r) v := h.count_eq
  obtain ⟨tally, hcross, -, hsize, htally, hfree⟩ :=
    TaskGraph.Tally.Sound.crossAll (t := ⟨b.counts, []⟩) ⟨.nil, by simp⟩ (s.graph.targets task)
      (fun v hv => by
        obtain ⟨e, he, rfl⟩ := List.mem_map.1 hv
        have hlt := TaskGraph.lt_size_of_mem_ids (hg.target_mem e (List.mem_of_mem_filter he))
        rwa [← h.counts_size] at hlt)
      (fun v => by
        rw [hcount, ← hedges]
        exact Nat.le_add_left _ _)
  have hleft : ∀ v, tally.count v = s.graph.incoming (s.unfinished r') v := by
    intro v
    have hsum := htally v
    rw [hcount, ← hedges] at hsum
    exact Nat.add_right_cancel hsum
  refine ⟨tally, hcross, hsize.trans h.counts_size, hleft, fun v => Nat.le.intro (hedges v), ?_⟩
  intro v
  rw [hfree, hcount, hleft]
  simp

/-- A task that ends returns what it holds, and its edges hold back nothing any more. -/
theorem Leaving.retire {before : List Nat} {p : Placement} {left : List Placement}
    (h : Leaving s before (p :: left) r b) (hg : s.graph.WellFormed)
    (hretire : ListScheduler.retire p r = .done () r') :
    ∃ b', b.retire s p.task = .done () b' ∧ Leaving s before left r' b' ∧
      b'.deferred = b.deferred := by
  obtain ⟨returned, hgive, hrelease, hretired, hagrees⟩ := retire_done hretire
  obtain ⟨hmine, hleft⟩ := List.forall_mem_cons.1 h.mem_unfinished
  obtain ⟨hnot, hnodup⟩ := List.nodup_cons.1 h.nodup
  obtain ⟨hlive, hothers⟩ := List.forall_mem_cons.1 h.live_eq
  have hne : ∀ q ∈ left, q.task ≠ p.task := fun q hq heq => hnot (List.mem_map.2 ⟨q, hq, heq⟩)
  have hsize := TaskGraph.lt_size_of_mem_ids (List.mem_filter.1 hmine).1
  have hafter : s.unfinished r' = (s.unfinished r).erase p.task :=
    unfinished_retire hretired (h.retired_size ▸ hsize)
  obtain ⟨tally, hcross, hcounts, htally, hfewer, hfree⟩ := h.cross hg hmine hafter
  refine ⟨{ b.enter p.task .retired with
    memory := r'.memory
    barriers := r'.barriers
    counts := tally.counts
    ready := Key.joinAll (tally.ready.map s.key) b.ready
    live := Function.update b.live p.task [] }, ?_, ?_, rfl⟩
  · rw [Board.retire, h.agrees.memory_eq, h.agrees.barriers_eq, hlive, hgive, hrelease]
    simp only [Board.enter, Board.record, hcross]
  constructor
  case agrees => exact { hagrees _ (h.agrees.enter p.task .retired) with }
  case ready_sorted => exact Key.pairwise_joinAll _ h.ready_sorted
  case mem_ready =>
    intro k
    rw [Key.mem_joinAll, h.mem_ready, List.mem_map, ← exists_or]
    refine exists_congr fun v => ?_
    have hle := h.incoming_le v
    have hless := hfewer v
    rw [hfree]
    constructor
    · rintro (⟨⟨hheld, hzero⟩, rfl⟩ | ⟨rfl, hheld, hzero⟩)
      · exact ⟨rfl, by omega, hzero⟩
      · exact ⟨rfl, hheld, by omega⟩
    · rintro ⟨rfl, hheld, hzero⟩
      -- either it was free before this task ended, or the last edge is one of its own
      by_cases hnow : s.graph.incoming (s.unfinished r) v = 0
      · exact Or.inr ⟨rfl, hheld, hnow⟩
      · exact Or.inl ⟨⟨Nat.pos_of_ne_zero hnow, hzero⟩, rfl⟩
  case live_eq =>
    intro q hq
    exact (Function.update_of_ne (hne q hq) _ _).trans (hothers q hq)
  case counts_size => exact hcounts
  case count_eq => exact htally
  case incoming_le => exact fun v => Nat.le_trans (hfewer v) (h.incoming_le v)
  case retired_size =>
    rw [hretired, Array.size_setIfInBounds]
    exact h.retired_size
  case nodup => exact hnodup
  case mem_unfinished =>
    intro q hq
    rw [hafter]
    exact (List.mem_erase_of_ne (hne q hq)).2 (hleft q hq)

/-- The tasks of a step end one after the other. -/
theorem Leaving.retireDue {before : List Nat} (hg : s.graph.WellFormed) (time : Nat)
    (left : List Placement) (h : Leaving s before left r b)
    (hretire : retireAll left r = .done () r') :
    ∃ b', b.retireDue s time (left.map fun p => toLex (time, p.task)) = .done () b' ∧
      Leaving s before [] r' b' ∧ b'.deferred = b.deferred ∧ b'.inFlight = [] := by
  induction left generalizing r b with
  | nil =>
    cases hretire
    exact ⟨{ b with inFlight := [] }, rfl, { h with agrees := { h.agrees with } }, rfl, rfl⟩
  | cons p left ih =>
    rw [retireAll] at hretire
    cases hfirst : ListScheduler.retire p r with
    | failed fault r₁ =>
      rw [hfirst] at hretire
      cases hretire
    | done value r₁ =>
      rw [hfirst] at hretire
      obtain ⟨b₁, hboard, hleaving, hdeferred⟩ := h.retire hg hfirst
      obtain ⟨b', hrest, hend, hdeferred', hinFlight⟩ := ih hleaving hretire
      refine ⟨b', ?_, hend, hdeferred'.trans hdeferred, hinFlight⟩
      rw [List.map_cons, Board.retireDue]
      simp only [Key.time, Key.task, ofLex_toLex, if_true, hboard]
      exact hrest

/-- What an unfinished task holds back is a task that is not placed. -/
theorem not_placed_of_incoming (hg : s.graph.WellFormed) (h : Sound s r) {v : Nat}
    (hheld : 0 < s.graph.incoming (s.unfinished r) v) :
    v ∈ s.graph.ids ∧ v ∉ r.placements.map (·.task) := by
  have hsome := mt TaskGraph.incoming_eq_zero_iff.2 (Nat.ne_of_gt hheld)
  push Not at hsome
  obtain ⟨u, hu, hjoins⟩ := hsome
  refine ⟨hg.joins_right hjoins, fun hplaced => ?_⟩
  obtain ⟨p, hp, rfl⟩ := List.mem_map.1 hplaced
  obtain ⟨q, hq, hqu, hlt⟩ := h.predecessors p hp u hjoins
  have hretired := (h.retired_iff u).2 ⟨q, hq, hqu, Nat.lt_of_lt_of_le hlt (h.time_le p hp)⟩
  have hnot := (List.mem_filter.1 hu).2
  rw [hretired] at hnot
  cases hnot

/-- The running tasks, in the order in which they end. -/
theorem Tracks.inFlight_eq (h : Tracks s ready r b) :
    b.inFlight = (r.running.mergeSort (·.task ≤ ·.task)).map
      fun p => toLex (r.time + 1, p.task) := by
  have hperm : (r.running.mergeSort (·.task ≤ ·.task)).Perm r.running := List.mergeSort_perm _ _
  have hsorted : ((r.running.mergeSort (·.task ≤ ·.task)).map
      fun p => (toLex (r.time + 1, p.task) : Key)).Pairwise (· ≤ ·) := by
    refine List.pairwise_map.2 ((List.pairwise_mergeSort ?_ ?_ _).imp fun {p q} hle => ?_)
    · simp only [decide_eq_true_eq]
      omega
    · simp only [Bool.or_eq_true, decide_eq_true_eq]
      omega
    · exact Prod.Lex.toLex_le_toLex.2 (Or.inr ⟨rfl, of_decide_eq_true hle⟩)
  exact (h.inFlight_perm.trans (hperm.map _).symm).eq_of_pairwise' h.inFlight_sorted hsorted

/-- All that runs is about to end. -/
theorem Tracks.leaving (h : Tracks s [] r b) (hsound : Sound s r)
    (hnodup : (r.placements.map (·.task)).Nodup) :
    Leaving s (s.unfinished r) (r.running.mergeSort (·.task ≤ ·.task))
      { r with time := r.time + 1 } { b with time := r.time + 1 } := by
  have hperm : (r.running.mergeSort (·.task ≤ ·.task)).Perm r.running := List.mergeSort_perm _ _
  have hplaced : ∀ p ∈ r.running, p ∈ r.placements ∧ p.time = r.time := by
    intro p hp
    rw [hsound.running_eq] at hp
    exact ⟨(List.mem_filter.1 hp).1, of_decide_eq_true (List.mem_filter.1 hp).2⟩
  constructor
  case agrees => exact { h.agrees with time_eq := rfl }
  case ready_sorted => exact h.ready_eq ▸ .nil
  case mem_ready =>
    intro k
    show k ∈ b.ready ↔ _
    rw [h.ready_eq]
    refine iff_of_false List.not_mem_nil ?_
    rintro ⟨v, -, hheld, hzero⟩
    exact Nat.ne_of_gt hheld hzero
  case live_eq => exact fun p hp => h.live_eq p (hperm.mem_iff.1 hp)
  case counts_size => exact h.counts_size
  case count_eq => exact h.count_eq
  case incoming_le => exact fun v => Nat.le_refl _
  case retired_size => exact hsound.retired_size
  case nodup =>
    rw [(hperm.map _).nodup_iff, hsound.running_eq]
    exact hnodup.sublist (List.filter_sublist.map _)
  case mem_unfinished =>
    intro p hp
    obtain ⟨hmem, hnow⟩ := hplaced p (hperm.mem_iff.1 hp)
    refine List.mem_filter.2 ⟨hsound.task_mem p hmem, ?_⟩
    rw [Bool.not_eq_true', Bool.eq_false_iff]
    intro hretired
    obtain ⟨q, hq, htask, hlt⟩ := (hsound.retired_iff p.task).1 hretired
    obtain rfl := List.inj_on_of_nodup_map hnodup hq hmem htask
    omega

/-- What was set aside and what the last edge held back are the ready tasks of the next step. -/
theorem Leaving.mem_next {r₁ : Run} {b₁ : Board} (h : Leaving s (s.unfinished r₁) [] r b)
    (hg : s.graph.WellFormed) (hfilled : Filling s [] r₁) (h₁ : Tracks s [] r₁ b₁)
    (hdeferred : b.deferred = b₁.deferred) (hsound : Sound s r')
    (hretired : r'.retired = r.retired) (hplacements : r'.placements = r₁.placements) (k : Key) :
    k ∈ b.deferred ∨ k ∈ b.ready ↔ k ∈ (Plain.ready s r').map s.key := by
  have hsame : s.unfinished r' = s.unfinished r := by
    unfold unfinished
    rw [hretired]
  have haside : ∀ v, v ∈ r₁.deferred ↔ v ∈ Plain.ready s r₁ := fun v => by
    rw [hfilled.mem_ready, or_iff_right List.not_mem_nil]
  rw [hdeferred, h₁.mem_deferred, h.mem_ready, List.mem_map, List.mem_map, ← exists_or]
  refine exists_congr fun v => ?_
  rw [haside, mem_ready_iff hg hfilled.sound, mem_ready_iff hg hsound, hsame, hplacements]
  have hle := h.incoming_le v
  constructor
  · rintro (⟨⟨hleft, hzero⟩, rfl⟩ | ⟨rfl, hheld, hzero⟩)
    · exact ⟨⟨hleft, by omega⟩, rfl⟩
    · exact ⟨⟨not_placed_of_incoming hg hfilled.sound hheld, hzero⟩, rfl⟩
  · rintro ⟨⟨hleft, hzero⟩, rfl⟩
    -- what nothing held back before the step ended was ready then, and was set aside
    by_cases hheld : s.graph.incoming (s.unfinished r₁) v = 0
    · exact Or.inl ⟨⟨hleft, hheld⟩, rfl⟩
    · exact Or.inr ⟨rfl, Nat.pos_of_ne_zero hheld, hzero⟩

/-- What is done when the tasks that end next have ended. -/
theorem retireNext_eq {k : Key} {ks : List Key} (hinFlight : b.inFlight = k :: ks)
    (hdue : retireDue s k.time (k :: ks) { b with time := k.time } = .done () b') :
    b.retireNext s =
      .done () { b' with ready := Key.joinAll b'.deferred b'.ready, deferred := [] } := by
  unfold retireNext
  split
  · next hnil => cases hinFlight.symm.trans hnil
  · next hcons =>
    obtain ⟨rfl, rfl⟩ := List.cons.inj (hcons.symm.trans hinFlight)
    rw [hdue]

/-- The turn in which a step ends. -/
theorem Tracks.advance {waiting : List Nat} {r₁ r₂ : Run} (h : Tracks s [] r₁ b)
    (hg : s.graph.WellFormed) (hvalid : s.settings.validate = .ok ()) (hapart : RanksApart s)
    (hround : Round s waiting ready r r₁ r₂) :
    ∃ b', b.turn s = .done () b' ∧
      Tracks s (s.sortByRank (waiting.filter (released s.graph.predecessorTable r₂) ++ r₂.deferred))
        { r₂ with deferred := [] } b' := by
  have hfilled := hround.filled
  have hsorted := hapart.pairwise_ready hround.after
  have hnext := hround.after.filling hvalid hsorted
  have hleaving := h.leaving hfilled.sound hfilled.awaits.nodup_placements
  have hinFlight := h.inFlight_eq
  have hadvance := hround.advance_eq
  unfold ListScheduler.advance at hadvance
  generalize hsort : r₁.running.mergeSort (·.task ≤ ·.task) = left at *
  cases hretire : retireAll left { r₁ with time := r₁.time + 1 } with
  | failed fault r₃ =>
    rw [hretire] at hadvance
    cases hadvance
  | done value r₃ =>
    rw [hretire] at hadvance
    obtain rfl := (Outcome.done.inj hadvance).2
    obtain ⟨b₃, hdue, hend, hdeferred, hempty⟩ := hleaving.retireDue hg (r₁.time + 1) _ hretire
    have hturn : b.turn s = .done () { b₃ with
        ready := Key.joinAll b₃.deferred b₃.ready, deferred := [] } := by
      cases left with
      | nil =>
        have hnone := (List.mergeSort_perm r₁.running (·.task ≤ ·.task)).symm
        rw [hsort] at hnone
        exact absurd hnone.eq_nil hround.runs
      | cons p left =>
        rw [List.map_cons] at hinFlight hdue
        rw [turn_of_ready_nil h.ready_eq, if_neg (by simp [hinFlight])]
        exact retireNext_eq hinFlight hdue
    refine ⟨_, hturn, ?_⟩
    constructor
    case agrees => exact { hend.agrees with }
    case ready_eq =>
      refine Key.joinAll_eq hend.ready_sorted (pairwise_map_key hsorted) fun k => ?_
      rw [hend.mem_next hg hfilled h hdeferred hround.after.sound rfl hround.placements_eq,
        List.mem_map, List.mem_map]
      refine exists_congr fun v => and_congr_left fun _ => ?_
      exact (hnext.mem_ready v).trans (or_iff_left List.not_mem_nil)
    case deferred_sorted => exact .nil
    case mem_deferred => exact fun k => Iff.rfl
    case inFlight_sorted =>
      show b₃.inFlight.Pairwise _
      rw [hempty]
      exact .nil
    case inFlight_perm =>
      show b₃.inFlight.Perm []
      rw [hempty]
    case live_eq => exact fun p hp => absurd hp List.not_mem_nil
    case counts_size => exact hend.counts_size
    case count_eq => exact hend.count_eq

/-! ## The whole run -/

/-- When nothing runs and nothing fits, the board gives the same reason. -/
theorem Tracks.stuck_eq (h : Tracks s [] r b) (hapart : RanksApart s)
    (hids : ∀ t ∈ r.deferred, t ∈ s.graph.ids) (hnodup : r.deferred.Nodup)
    (haside : r.deferred ≠ []) (waiting : List Nat) : b.stuck s = s.stuck waiting r := by
  have hperm := s.sortByRank_perm r.deferred
  have hjoin : Key.joinAll b.deferred b.ready = (s.sortByRank r.deferred).map s.key := by
    have hready : b.ready = [] := h.ready_eq
    rw [hready]
    refine Key.joinAll_eq .nil (pairwise_map_key (hapart.pairwise_lt hids hnodup)) fun k => ?_
    rw [or_iff_left List.not_mem_nil, h.mem_deferred]
    exact (hperm.map s.key).symm.mem_iff
  unfold stuck ListScheduler.stuck
  rw [hjoin, h.agrees.memory_eq]
  cases hfirst : s.sortByRank r.deferred with
  | nil => exact absurd (hfirst ▸ hperm).symm.eq_nil haside
  | cons task rest => rfl

/-- The board before the first turn tracks a run that has not begun. -/
theorem tracks_start {waiting : List Nat} {barriers : Holdings} (hg : s.graph.WellFormed)
    (hvalid : s.settings.validate = .ok ())
    (hcreate : Holdings.create s.settings.barrierCount s.settings.slotsPerBarrier = .ok barriers)
    (hstarts : Starts s r) (hbetween : Between s waiting ready r)
    (hsorted : ready.Pairwise (s.rank · < s.rank ·)) : Tracks s ready r (start s barriers) := by
  have hcounts := hg.counts_tally
  have hall : s.unfinished r = s.graph.ids := by
    refine List.filter_eq_self.2 fun id _ => ?_
    rw [Bool.not_eq_true', Bool.eq_false_iff, ne_eq, hbetween.sound.retired_iff,
      hstarts.placements_eq]
    simp
  constructor
  case agrees =>
    constructor
    case memory_eq => exact hstarts.memory_eq.symm
    case barriers_eq => exact Except.ok.inj (hcreate.symm.trans hstarts.barriers_eq)
    case placements_eq => exact hstarts.placements_eq.symm
    case time_eq => exact hstarts.time_eq.symm
    case states_eq => exact hstarts.states_eq.symm
    case checks_eq => exact hstarts.checks_eq.symm
    case events_eq => exact hstarts.events_eq.symm
  case ready_eq =>
    refine Key.joinAll_eq .nil (pairwise_map_key hsorted) fun k => ?_
    rw [or_iff_left List.not_mem_nil, List.mem_map, List.mem_map]
    refine exists_congr fun v => and_congr_left fun _ => ?_
    have hnext := (hbetween.filling hvalid hsorted).mem_ready v
    rw [hbetween.none_aside, or_iff_left List.not_mem_nil, mem_ready_iff hg hbetween.sound, hall,
      hstarts.placements_eq] at hnext
    rw [hcounts.mem_ready, ← hnext]
    simp
  case deferred_sorted => exact .nil
  case mem_deferred =>
    rw [hbetween.none_aside]
    exact fun k => Iff.rfl
  case inFlight_sorted => exact .nil
  case inFlight_perm =>
    rw [hbetween.idle]
    exact .nil
  case live_eq =>
    rw [hbetween.idle]
    exact fun p hp => absurd hp List.not_mem_nil
  case counts_size => exact hcounts.size_eq
  case count_eq =>
    rw [hall]
    exact hcounts.count_eq

theorem conclude_failed {fault : Fault} (h : Agrees r b) :
    conclude s (.failed fault b) = s.conclude (.failed fault r) := by
  simp only [conclude, ListScheduler.conclude, Board.keep, ListScheduler.keep, h.states_eq,
    h.checks_eq, h.events_eq]

theorem conclude_done (h : Agrees r b) :
    conclude s (.done () b) = s.conclude (.done () r) := by
  simp only [conclude, ListScheduler.conclude, Board.keep, ListScheduler.keep, Board.record,
    List.reverse_cons, h.memory_eq, h.placements_eq, h.time_eq, h.states_eq, h.checks_eq,
    h.events_eq]

/-- The turns that are left of `limit` lead on from a board that tracks the run. -/
def Reaches (s : ListScheduler) (barriers : Holdings) (limit : Nat) (ready : List Nat) (r : Run) :
    Prop :=
  ∃ b limit', (start s barriers).loop s limit = b.loop s limit' ∧ Tracks s ready r b ∧
    Enough s r limit'

section Reaches

variable {barriers : Holdings} {limit : Nat}

/-- A step keeps this. -/
theorem reaches_keptByRounds (hg : s.graph.WellFormed) (hvalid : s.settings.validate = .ok ())
    (hcmx : s.settings.cmxSize < Word.bound) (hapart : RanksApart s) :
    KeptByRounds s (Reaches s barriers limit) := by
  rintro waiting ready r r₁ r₂ hround ⟨b, limit', hloop, htracks, henough⟩
  have hfill := htracks.fill hg hvalid hcmx ready hround.filling henough
  rw [hround.fill_eq] at hfill
  obtain ⟨b₁, limit₁, hloop₁, htracks₁, henough₁⟩ := hfill
  obtain ⟨b₂, hturn, htracks₂⟩ := htracks₁.advance hg hvalid hapart hround
  have hle := length_placements_le hround.filled.sound []
    (by simpa using hround.filled.awaits.nodup_placements) (by simp)
  obtain ⟨limit₂, rfl, henough₂⟩ :=
    henough₁.advance hround.runs hle hround.after.idle hround.placements_eq
  refine ⟨b₂, limit₂, ?_, htracks₂, henough₂⟩
  rw [hloop, hloop₁, loop_succ (htracks₁.goesOn_iff.2 (Or.inr hround.runs)), hturn]

/-- All tasks have ended. -/
theorem Reaches.loop_done (h : Reaches s barriers limit [] r) (hbetween : Between s [] [] r) :
    ∃ b, (start s barriers).loop s limit = some (.done () b) ∧ Agrees r b := by
  obtain ⟨b, limit', hloop, htracks, -⟩ := h
  have hlength := hbetween.perm.length_eq
  rw [List.append_nil, List.append_nil, List.length_map] at hlength
  have hover : ¬ b.goesOn s = true := by
    rw [htracks.goesOn_iff, hbetween.idle]
    exact not_or.2 ⟨Nat.not_lt.2 hlength.ge, not_not.2 rfl⟩
  refine ⟨b, ?_, htracks.agrees⟩
  rw [hloop]
  cases limit' <;> rw [loop, if_neg hover]

/-- Nothing runs, and nothing fits. -/
theorem Reaches.loop_stuck (h : Reaches s barriers limit ready r) (hg : s.graph.WellFormed)
    (hac : s.graph.Acyclic) (hvalid : s.settings.validate = .ok ())
    (hcmx : s.settings.cmxSize < Word.bound) (hapart : RanksApart s)
    (hfilling : Filling s ready r) (hfill : s.fill ready r = .done () r')
    (hfilled : Filling s [] r') (hstuck : Stuck s r') (waiting : List Nat) :
    ∃ b, (start s barriers).loop s limit = some (.failed (s.stuck waiting r') b) ∧
      Agrees r' b := by
  obtain ⟨b, limit', hloop, htracks, henough⟩ := h
  have hturns := htracks.fill hg hvalid hcmx ready hfilling henough
  rw [hfill] at hturns
  obtain ⟨b₁, limit₁, hloop₁, htracks₁, henough₁⟩ := hturns
  have hnodup := hfilled.awaits.nodup
  rw [List.append_nil] at hnodup
  have haside := hstuck.some_aside hac
  have hle := length_placements_le hfilled.sound _ hnodup hstuck.mem_ids
  have hpos := List.length_pos_iff.2 haside
  have hleft : r'.placements.length < s.graph.size := by omega
  obtain ⟨limit₂, rfl⟩ := henough₁.exists_succ hleft
  have hnone : b₁.inFlight = [] := by
    have hperm := htracks₁.inFlight_perm
    rw [hstuck.idle] at hperm
    exact hperm.eq_nil
  have hwhy := htracks₁.stuck_eq hapart hstuck.mem_ids (List.nodup_append.1 hnodup).2.1 haside
    waiting
  refine ⟨b₁, ?_, htracks₁.agrees⟩
  rw [hloop, hloop₁, loop_succ (htracks₁.goesOn_iff.2 (Or.inl hleft)),
    turn_of_ready_nil htracks₁.ready_eq, if_pos (by simp [hnone]), hwhy]

end Reaches

/-- With twice as many turns as tasks the board makes the listing of the run. -/
theorem listing_eq_schedule (hg : s.graph.WellFormed) (hac : s.graph.Acyclic)
    (hvalid : s.settings.validate = .ok ()) (hslots : s.settings.slotsPerBarrier < Word.bound)
    (hcmx : s.settings.cmxSize < Word.bound) (hapart : RanksApart s) {limit : Nat}
    (hlimit : 2 * s.graph.size ≤ limit) : listing s limit = some s.schedule := by
  obtain ⟨barriers, hcreate⟩ := exists_holdings hvalid
  have hkept : KeptByRounds s (Reaches s barriers limit) :=
    reaches_keptByRounds hg hvalid hcmx hapart
  obtain ⟨outcome, hend, heq⟩ := schedule_ends hg hvalid hslots hapart hkept
    fun waiting ready r hstarts hbetween hsorted => by
      refine ⟨start s barriers, limit, rfl,
        tracks_start hg hvalid hcreate hstarts hbetween hsorted, ?_⟩
      unfold Enough
      rw [hstarts.placements_eq, hbetween.idle]
      simpa using hlimit
  rw [heq, listing, hcreate]
  show ((start s barriers).loop s limit).map (conclude s) = _
  cases hend with
  | done hbetween hreaches =>
    obtain ⟨b, hloop, hagrees⟩ := hreaches.loop_done hbetween
    rw [hloop, Option.map_some, conclude_done hagrees]
  | overflow hfilling hreaches hfill =>
    obtain ⟨b, limit', hloop, htracks, henough⟩ := hreaches
    have hturns := htracks.fill hg hvalid hcmx _ hfilling henough
    rw [hfill] at hturns
    obtain ⟨b', hloop', hagrees⟩ := hturns
    rw [hloop, hloop', Option.map_some, conclude_failed hagrees]
  | stuck hfilling hreaches hfill hfilled hstuck =>
    obtain ⟨b, hloop, hagrees⟩ :=
      hreaches.loop_stuck hg hac hvalid hcmx hapart hfilling hfill hfilled hstuck _
    rw [hloop, Option.map_some, conclude_failed hagrees]

/-- A board makes the same listing for every acyclic graph, whatever the hints and earlier
runs, and it needs no more than two turns for each task. -/
theorem listing_eq {g : TaskGraph} {settings : Settings} (hg : g.WellFormed) (hac : g.Acyclic)
    (hvalid : settings.validate = .ok ()) (hslots : settings.slotsPerBarrier < Word.bound)
    (hcmx : settings.cmxSize < Word.bound) :
    ∃ s, create g settings = .ok s ∧ ∀ hints states checks limit, 2 * g.size ≤ limit →
      listing { s with hints, states, checks } limit =
        some (schedule { s with hints, states, checks }) := by
  obtain ⟨s, levels, hcreate, -, -, rfl, rfl, hranked⟩ := create_spec hg hac hvalid
  refine ⟨s, hcreate, fun hints states checks limit hlimit => ?_⟩
  have hsame := @listing_eq_schedule { s with hints, states, checks }
  exact hsame hg hac hvalid hslots hcmx hranked.ranksApart hlimit

/-- On the sample eight turns are enough. -/
theorem listing_eq_diamond :
    let settings : Settings := { cmxSize := 128, barrierCount := 2, slotsPerBarrier := 4 }
    ∃ s, create .diamond settings = .ok s ∧ listing s 8 = some s.schedule := by
  intro settings
  have hvalid : settings.validate = .ok () := Settings.validate_eq_ok_iff.2 (by decide +kernel)
  obtain ⟨s, hcreate, hsame⟩ := listing_eq TaskGraph.wellFormed_diamond
    TaskGraph.acyclic_diamond hvalid (by decide) (by decide)
  exact ⟨s, hcreate, hsame s.hints s.states s.checks 8 (by decide)⟩

end TaskLoom.ListScheduler.Board
