import TaskLoom.Proofs.Timetable.Ordering

/-!
# Tasks that use the same memory

The last user of a byte before a time is the task that held it in the latest step before
that time.  Walking the steps in order, the owner table knows the last user of every byte
at the current time.  So the pairs of the policy that follows scratch memory are exactly a
task and a last user of one of its bytes.

Two tasks that hold the same byte need not be such a pair, as others may have held the byte
in between.  But then each of these is a last user for the next, so there is a path from
the earlier of the two to the later.

## Main results

* `lastUser_succ` — how a step changes the last users.
* `Knows.step` — the owner table keeps up with the steps.
* `mem_memoryPairs` — which pairs the policy puts in order.
* `exists_lastUser` — a byte that was held has a last user.
* `apply_memoryAware` — the edges that the policy adds, and the paths they give.
-/

namespace TaskLoom

/-- The task holds the byte. -/
def Placement.Occupies (p : Placement) (x : Nat) : Prop :=
  ∃ i ∈ p.ranges, i.range.Contains x

/-- Empty ranges hold nothing. -/
theorem Placement.occupies_iff_held {p : Placement} {x : Nat} :
    p.Occupies x ↔ ∃ i ∈ p.held, i.range.Contains x := by
  constructor
  · rintro ⟨i, hi, hx⟩
    refine ⟨i, List.mem_filter.2 ⟨hi, ?_⟩, hx⟩
    have hlt : i.start < i.stop := Nat.lt_of_le_of_lt hx.1 hx.2
    simp only [Interval.isEmpty, Bool.not_eq_true', beq_eq_false_iff_ne]
    omega
  · rintro ⟨i, hi, hx⟩
    exact ⟨i, (List.mem_filter.1 hi).1, hx⟩

namespace Timetable

variable {placements : List Placement} {owners : Owners} {time owner x : Nat}
  {p q : Placement}

/-- Ranges do not stop before they start, and different tasks of a step share no byte. -/
structure Exclusive (placements : List Placement) : Prop where
  start_le : ∀ p ∈ placements, ∀ i ∈ p.ranges, i.start ≤ i.stop
  apart : ∀ p ∈ placements, ∀ q ∈ placements, p.time = q.time → p.task ≠ q.task →
    ∀ x, p.Occupies x → ¬ q.Occupies x

theorem Exclusive.start_lt (h : Exclusive placements) (hp : p ∈ placements) {i : Interval}
    (hi : i ∈ p.held) : i.start < i.stop := by
  obtain ⟨hmem, hsolid⟩ := List.mem_filter.1 hi
  have hle := h.start_le p hp i hmem
  simp only [Interval.isEmpty, Bool.not_eq_true', beq_eq_false_iff_ne] at hsolid
  omega

/-! ## Last users -/

/-- A task that held a byte in the latest step before a time. -/
structure LastUser (placements : List Placement) (time x : Nat) (p : Placement) : Prop where
  placed : p ∈ placements
  earlier : p.time < time
  occupies : p.Occupies x
  latest : ∀ q ∈ placements, p.time < q.time → q.time < time → ¬ q.Occupies x

/-- The tasks of a step are the last users of what they hold, and change nothing else. -/
theorem lastUser_succ :
    LastUser placements (time + 1) x p ↔
      (p ∈ placedAt placements time ∧ p.Occupies x) ∨
      ((∀ q ∈ placedAt placements time, ¬ q.Occupies x) ∧ LastUser placements time x p) := by
  constructor
  · intro h
    have hearlier := h.earlier
    by_cases hnow : p.time = time
    · exact Or.inl ⟨mem_placedAt.2 ⟨h.placed, hnow⟩, h.occupies⟩
    · refine Or.inr ⟨?_, h.placed, by omega, h.occupies, ?_⟩
      · intro q hq
        obtain ⟨hplaced, htime⟩ := mem_placedAt.1 hq
        exact h.latest q hplaced (by omega) (by omega)
      · intro q hq hlt hlt'
        exact h.latest q hq hlt (by omega)
  · rintro (⟨hp, hx⟩ | ⟨hnone, h⟩)
    · obtain ⟨hplaced, htime⟩ := mem_placedAt.1 hp
      refine ⟨hplaced, by omega, hx, ?_⟩
      intro q _ hlt hlt'
      omega
    · have hearlier := h.earlier
      refine ⟨h.placed, by omega, h.occupies, ?_⟩
      intro q hq hlt hlt'
      by_cases hnow : q.time = time
      · exact hnone q (mem_placedAt.2 ⟨hq, hnow⟩)
      · exact h.latest q hq hlt (by omega)

/-- Steps without tasks do not change the last users. -/
theorem LastUser.skip {time' : Nat} (hle : time ≤ time')
    (hgap : ∀ q ∈ placements, time ≤ q.time → time' ≤ q.time) :
    LastUser placements time' x p ↔ LastUser placements time x p := by
  constructor
  · intro h
    have hearlier := h.earlier
    refine ⟨h.placed, ?_, h.occupies, fun q hq hlt hlt' => h.latest q hq hlt (by omega)⟩
    by_contra hlate
    have hge := hgap p h.placed (by omega)
    omega
  · intro h
    have hearlier := h.earlier
    refine ⟨h.placed, by omega, h.occupies, fun q hq hlt hlt' => h.latest q hq hlt ?_⟩
    by_contra hlate
    have hge := hgap q hq (by omega)
    omega

/-- A byte that was held has a last user, no earlier than any of its users. -/
theorem exists_lastUser (hp : p ∈ placements) (hlt : p.time < time) (hx : p.Occupies x) :
    ∃ q, LastUser placements time x q ∧ p.time ≤ q.time := by
  obtain ⟨q, hq, hqx, hqtime, hle, hlatest⟩ := exists_latest (·.Occupies x) hp hlt hx
  refine ⟨q, ⟨hq, hqtime, hqx, ?_⟩, hle⟩
  intro r hr hqr hrtime hrx
  exact Nat.not_lt_of_le (hlatest r hr hrx hrtime) hqr

/-! ## What the owner table knows -/

/-- The claims of one task overwrite what it holds. -/
theorem owns_claimAll :
    (claimAll owners p).Owns owner x ↔
      (p.Occupies x ∧ owner = p.task) ∨ (¬ p.Occupies x ∧ owners.Owns owner x) := by
  rw [Placement.occupies_iff_held, claimAll]
  induction p.held generalizing owners with
  | nil => simp
  | cons i rest ih =>
    rw [List.foldl_cons, ih, Owners.owns_claim]
    simp only [List.mem_cons, exists_eq_or_imp]
    by_cases hi : i.range.Contains x <;>
      by_cases hrest : ∃ j ∈ rest, j.range.Contains x <;> simp [hi, hrest]

/-- The claims of a step overwrite what its tasks hold, whatever their order. -/
theorem owns_foldl_claimAll {ps : List Placement}
    (hps : ps.Pairwise fun p q => ∀ x, p.Occupies x → ¬ q.Occupies x) :
    (ps.foldl claimAll owners).Owns owner x ↔
      (∃ p ∈ ps, p.Occupies x ∧ owner = p.task) ∨
      ((∀ p ∈ ps, ¬ p.Occupies x) ∧ owners.Owns owner x) := by
  induction ps generalizing owners with
  | nil => simp
  | cons p ps ih =>
    obtain ⟨hp, hrest⟩ := List.pairwise_cons.1 hps
    rw [List.foldl_cons, ih hrest, owns_claimAll]
    simp only [List.mem_cons, exists_eq_or_imp, forall_eq_or_imp]
    by_cases hx : p.Occupies x
    · have hnone : ∀ q ∈ ps, ¬ q.Occupies x := fun q hq => hp q hq x hx
      have hnot : ¬ ∃ q ∈ ps, q.Occupies x ∧ owner = q.task :=
        fun ⟨q, hq, hqx, _⟩ => hnone q hq hqx
      simpa [hx, hnot] using fun _ => hnone
    · simp [hx]

theorem solid_claimAll (howners : owners.Solid) (hp : ∀ i ∈ p.held, i.start < i.stop) :
    (claimAll owners p).Solid := by
  unfold claimAll
  generalize p.held = held at hp ⊢
  induction held generalizing owners with
  | nil => exact howners
  | cons i rest ih =>
    obtain ⟨hi, hrest⟩ := List.forall_mem_cons.1 hp
    exact ih (howners.claim hi p.task) hrest

theorem solid_foldl_claimAll {ps : List Placement} (howners : owners.Solid)
    (hps : ∀ p ∈ ps, ∀ i ∈ p.held, i.start < i.stop) : (ps.foldl claimAll owners).Solid := by
  induction ps generalizing owners with
  | nil => exact howners
  | cons p ps ih =>
    obtain ⟨hp, hrest⟩ := List.forall_mem_cons.1 hps
    exact ih (solid_claimAll howners hp) hrest

/-- The owners are the last users of the bytes before a time. -/
structure Knows (placements : List Placement) (time : Nat) (owners : Owners) : Prop where
  solid : owners.Solid
  owns_iff : ∀ owner x, owners.Owns owner x ↔ ∃ p, LastUser placements time x p ∧ p.task = owner

theorem knows_empty (placements : List Placement) : Knows placements 0 .empty where
  solid := Owners.solid_empty
  owns_iff owner x := by
    constructor
    · intro h
      exact absurd h Owners.not_owns_empty
    · rintro ⟨p, hp, -⟩
      exact absurd hp.earlier (Nat.not_lt_zero _)

theorem Knows.skip {time' : Nat} (h : Knows placements time owners) (hle : time ≤ time')
    (hgap : ∀ q ∈ placements, time ≤ q.time → time' ≤ q.time) :
    Knows placements time' owners where
  solid := h.solid
  owns_iff owner x := by
    rw [h.owns_iff]
    simp only [LastUser.skip hle hgap]

/-- After the claims of a step the table knows the last users before the next time. -/
theorem Knows.step (h : Knows placements time owners) (hheld : Exclusive placements)
    (hnodup : (placements.map (·.task)).Nodup) :
    Knows placements (time + 1) ((placedAt placements time).foldl claimAll owners) := by
  have hapart : (placedAt placements time).Pairwise
      fun p q => ∀ x, p.Occupies x → ¬ q.Occupies x := by
    have hne : (placedAt placements time).Pairwise fun p q => p.task ≠ q.task :=
      (List.pairwise_map.1 hnodup).sublist List.filter_sublist
    refine hne.imp_of_mem ?_
    intro p q hp hq htask
    obtain ⟨hp, hptime⟩ := mem_placedAt.1 hp
    obtain ⟨hq, hqtime⟩ := mem_placedAt.1 hq
    exact hheld.apart p hp q hq (by omega) htask
  constructor
  · apply solid_foldl_claimAll h.solid
    intro p hp i hi
    exact hheld.start_lt (mem_placedAt.1 hp).1 hi
  · intro owner x
    rw [owns_foldl_claimAll hapart, h.owns_iff]
    simp only [lastUser_succ]
    constructor
    · rintro (⟨p, hp, hx, rfl⟩ | ⟨hnone, p, hp, rfl⟩)
      · exact ⟨p, Or.inl ⟨hp, hx⟩, rfl⟩
      · exact ⟨p, Or.inr ⟨hnone, hp⟩, rfl⟩
    · rintro ⟨p, ⟨hp, hx⟩ | ⟨hnone, hp⟩, rfl⟩
      · exact Or.inl ⟨p, hp, hx, rfl⟩
      · exact Or.inr ⟨hnone, p, hp, rfl⟩

/-! ## The pairs of the policy -/

/-- A task takes a byte from its last user. -/
def Reuses (placements : List Placement) (p q : Placement) : Prop :=
  ∃ x, q.Occupies x ∧ LastUser placements q.time x p

/-- A task is paired with the last users of its bytes. -/
theorem mem_reusePairs (h : Knows placements q.time owners) (hheld : Exclusive placements)
    (hq : q ∈ placements) {u v : Nat} :
    (u, v) ∈ reusePairs owners q ↔ ∃ p, p.task = u ∧ q.task = v ∧ Reuses placements p q := by
  have howner : u ∈ IdSet.ofList (q.held.flatMap owners.of) ↔
      ∃ x, q.Occupies x ∧ owners.Owns u x := by
    rw [IdSet.mem_ofList, List.mem_flatMap]
    constructor
    · rintro ⟨i, hi, hu⟩
      obtain ⟨x, hx, howns⟩ := (Owners.mem_of h.solid (hheld.start_lt hq hi)).1 hu
      exact ⟨x, Placement.occupies_iff_held.2 ⟨i, hi, hx⟩, howns⟩
    · rintro ⟨x, hx, howns⟩
      obtain ⟨i, hi, hx⟩ := Placement.occupies_iff_held.1 hx
      exact ⟨i, hi, (Owners.mem_of h.solid (hheld.start_lt hq hi)).2 ⟨x, hx, howns⟩⟩
  unfold reusePairs
  simp only [List.mem_map, Prod.mk.injEq]
  constructor
  · rintro ⟨_, hu, rfl, htask⟩
    obtain ⟨x, hx, howns⟩ := howner.1 hu
    obtain ⟨p, hp, hptask⟩ := (h.owns_iff _ x).1 howns
    exact ⟨p, hptask, htask, x, hx, hp⟩
  · rintro ⟨p, hptask, htask, x, hx, hp⟩
    exact ⟨u, howner.2 ⟨x, hx, (h.owns_iff u x).2 ⟨p, hp, hptask⟩⟩, rfl, htask⟩

/-- The policy pairs every task of the steps that remain with the last users of its
bytes. -/
theorem mem_memoryPairs {steps : List (Nat × List Placement)}
    (h : Remaining placements time steps) (howners : Knows placements time owners)
    (hheld : Exclusive placements) (hnodup : (placements.map (·.task)).Nodup) {u v : Nat} :
    (u, v) ∈ memoryPairs owners steps ↔
      ∃ q ∈ placements, time ≤ q.time ∧
        ∃ p, p.task = u ∧ q.task = v ∧ Reuses placements p q := by
  induction steps generalizing time owners with
  | nil =>
    constructor
    · intro hmem
      cases hmem
    · rintro ⟨q, hq, hle, -⟩
      exact absurd ((h.occupied q.time).2 ⟨hle, q, hq, rfl⟩) (by simp)
  | cons step rest ih =>
    obtain ⟨hle, hgap⟩ := h.first_le
    have hstep := h.eq_placedAt step List.mem_cons_self
    have hknows : Knows placements step.1 owners := howners.skip hle hgap
    have hnext : Knows placements (step.1 + 1) (step.2.foldl claimAll owners) := by
      rw [hstep]
      exact hknows.step hheld hnodup
    rw [memoryPairs, List.mem_append, ih h.tail hnext, List.mem_flatMap]
    constructor
    · rintro (⟨q, hq, hpair⟩ | ⟨q, hq, hlater, hpair⟩)
      · rw [hstep] at hq
        obtain ⟨hplaced, htime⟩ := mem_placedAt.1 hq
        exact ⟨q, hplaced, by omega, (mem_reusePairs (htime ▸ hknows) hheld hplaced).1 hpair⟩
      · exact ⟨q, hq, by omega, hpair⟩
    · rintro ⟨q, hq, hfrom, hpair⟩
      by_cases hnow : q.time = step.1
      · refine Or.inl ⟨q, ?_, (mem_reusePairs (hnow ▸ hknows) hheld hq).2 hpair⟩
        rw [hstep]
        exact mem_placedAt.2 ⟨hq, hnow⟩
      · have hge := hgap q hq hfrom
        exact Or.inr ⟨q, hq, by omega, hpair⟩

/-! ## Paths between users of a byte -/

/-- Where every task comes after the last users of its bytes, there is a path between any
two tasks of different steps that hold the same byte. -/
theorem before_of_occupies {g : TaskGraph} (hheld : Exclusive placements)
    (hjoins : ∀ p q, q ∈ placements → Reuses placements p q → g.Joins p.task q.task)
    (hp : p ∈ placements) (hq : q ∈ placements) (hlt : p.time < q.time) (hpx : p.Occupies x)
    (hqx : q.Occupies x) : g.Before p.task q.task := by
  -- the last user before `q` is `p`, or it is reached from `p` in the same way
  induction hn : q.time using Nat.strongRecOn generalizing q with
  | ind n ih =>
    obtain ⟨r, hr, hle⟩ := exists_lastUser hp hlt hpx
    have hlast : g.Joins r.task q.task := hjoins r q hq ⟨x, hqx, hr⟩
    have hearlier := hr.earlier
    by_cases hnow : p.time = r.time
    · have htask : p.task = r.task := by
        by_contra hne
        exact hheld.apart p hp r hr.placed hnow hne x hpx hr.occupies
      rw [htask]
      exact .single hlast
    · exact .tail (ih r.time (by omega) hr.placed (by omega) hr.occupies rfl) hlast

end Timetable

namespace OrderingPolicy

open Timetable

/-- The policy that follows scratch memory succeeds and adds one control edge for each task
and last user of one of its bytes that had no direct edge.  Afterwards there is a path from
the earlier to the later of any two tasks of different steps that hold the same byte. -/
theorem apply_memoryAware {g : TaskGraph} {placements : List Placement} (hg : g.WellFormed)
    (h : Orders g placements) (hheld : Exclusive placements) :
    ∃ added g', OrderingPolicy.memoryAware.apply g placements = .done added.length g' ∧
      g'.tasks = g.tasks ∧ g'.edges = added ++ g.edges ∧ (∀ e ∈ added, e.kind = .control) ∧
      (added.map TaskGraph.ends).Nodup ∧
      (∀ u v, (u, v) ∈ added.map TaskGraph.ends ↔ ¬ g.Joins u v ∧
        ∃ p q, q ∈ placements ∧ p.task = u ∧ q.task = v ∧ Reuses placements p q) ∧
      ∀ p ∈ placements, ∀ q ∈ placements, p.time < q.time →
        ∀ x, p.Occupies x → q.Occupies x → g'.Before p.task q.task := by
  have hpairs : ∀ u v, (u, v) ∈ OrderingPolicy.memoryAware.pairs g placements ↔
      ∃ p q, q ∈ placements ∧ p.task = u ∧ q.task = v ∧ Reuses placements p q := by
    intro u v
    rw [pairs, mem_memoryPairs (remaining_steps placements) (knows_empty placements) hheld h.nodup]
    constructor
    · rintro ⟨q, hq, -, p, hpair⟩
      exact ⟨p, q, hq, hpair⟩
    · rintro ⟨p, q, hq, hpair⟩
      exact ⟨q, hq, Nat.zero_le _, p, hpair⟩
  obtain ⟨count, g', hdone, hgains, -, -⟩ := OrderingPolicy.memoryAware.apply_spec hg h
  obtain ⟨added, rfl, hadds⟩ := TaskGraph.adds_of_done hdone
  refine ⟨added, g', hdone, hgains.tasks_eq, hadds.edges_eq, hadds.control, hadds.nodup, ?_, ?_⟩
  · intro u v
    rw [hadds.mem_iff, hpairs, and_comm]
  · intro p hp q hq hlt x hpx hqx
    refine before_of_occupies hheld ?_ hp hq hlt hpx hqx
    intro p q hq hreuses
    exact (hgains.joins_iff _ _).2 (Or.inr ((hpairs _ _).2 ⟨p, q, hq, rfl, rfl, hreuses⟩))

/-- The load holds 100 bytes.  The next step takes some of them, and the store takes others,
of which the load is still the last user. -/
theorem apply_memoryAware_diamond :
    let load : Placement := ⟨0, 0, some ⟨1⟩, 1, [⟨0, 0, 100⟩]⟩
    let left : Placement := ⟨1, 1, some ⟨1⟩, 3, [⟨0, 0, 64⟩, ⟨1, 64, 72⟩]⟩
    let right : Placement := ⟨3, 1, Option.none, 0, [⟨0, 5, 5⟩]⟩
    let store : Placement := ⟨4, 2, some ⟨2⟩, 1, [⟨0, 80, 90⟩]⟩
    Orders TaskGraph.diamond [load, right, left, store] ∧
      Exclusive [load, right, left, store] ∧
      ∃ (added : List Edge) (g' : TaskGraph),
        OrderingPolicy.memoryAware.apply TaskGraph.diamond [load, right, left, store] =
          .done added.length g' ∧
        (0, 4) ∈ added.map TaskGraph.ends ∧ (0, 1) ∉ added.map TaskGraph.ends ∧
        g'.Before 0 4 := by
  intro load left right store
  have horders : Orders TaskGraph.diamond [load, right, left, store] := by
    constructor <;> decide
  have hheld : Exclusive [load, right, left, store] := by
    constructor
    · decide
    · simp [load, left, right, store, Placement.Occupies, ByteRange.Contains, Interval.range]
      omega
  have hload : load.Occupies 80 := ⟨⟨0, 0, 100⟩, by simp [load], by decide, by decide⟩
  have hstore : store.Occupies 80 := ⟨⟨0, 80, 90⟩, by simp [store], by decide, by decide⟩
  have hreuses : Reuses [load, right, left, store] load store := by
    refine ⟨80, hstore, by simp, by decide, hload, ?_⟩
    simp [load, left, right, store, Placement.Occupies, ByteRange.Contains, Interval.range]
  obtain ⟨added, g', hdone, -, -, -, -, hadded, hpath⟩ :=
    apply_memoryAware TaskGraph.wellFormed_diamond horders hheld
  refine ⟨horders, hheld, added, g', hdone, ?_, ?_, ?_⟩
  · exact (hadded 0 4).2 ⟨by decide, load, store, by simp, rfl, rfl, hreuses⟩
  · intro hmem
    exact absurd (by decide) ((hadded 0 1).1 hmem).1
  · exact hpath load (by simp) store (by simp) (by decide) 80 hload hstore

end OrderingPolicy

end TaskLoom
