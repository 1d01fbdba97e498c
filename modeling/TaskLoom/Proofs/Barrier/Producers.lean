import TaskLoom.Proofs.Barrier.Joining

/-!
# Who posts which barrier

Before any clean-up every task that posts is a producer of one barrier, that of its use.
Joining barriers unites uses with the same consumers, so it gives no task a second
barrier.  What the clean-up may drop is a use that nobody waits for.  A task with a
successor is waited for, and of those who wait for it the earliest on the way is never
superfluous, so it stays a producer.

Consumers stand in ascending order from the sealing on.  So barriers that are not joined,
because their lists of consumers differ, differ in a consumer.

## Main results

* `forall_sealAll` — what sealing keeps holds for all sealed barriers.
* `ascending_consumers_wire` — the consumers of wired barriers are ascending.
* `eq_of_mem_producers`, `exists_producer` — a task produces on one barrier at most, and on
  one if it has a successor.
* `wire_shares` — how wired barriers share the tasks.
-/

namespace TaskLoom

namespace Wiring

variable {g : TaskGraph} {posting : List Nat} {placements : List Placement}

/-! ## The order of consumers -/

section Kept

variable {P : VirtualBarrier → Prop}
  (hseal : ∀ (barriers : List VirtualBarrier) (u : Gathering), (∀ b ∈ barriers, P b) →
    ∀ b ∈ (sealNext g posting barriers u).1, P b)

include hseal

theorem forall_gather {physical : BarrierId} {time task : Nat} {barriers : List VirtualBarrier}
    (h : ∀ b ∈ barriers, P b) (gatherings : List Gathering) :
    ∀ b ∈ (gather g posting physical time task barriers gatherings).2, P b := by
  induction gatherings with
  | nil => exact h
  | cons u rest ih =>
    unfold gather
    split
    · exact h
    · split
      · split
        · exact h
        · exact hseal barriers u h
      · exact ih

theorem forall_foldl_take (placements : List Placement) {w : Wiring}
    (h : ∀ b ∈ w.barriers, P b) : ∀ b ∈ (placements.foldl (take g posting) w).barriers, P b := by
  induction placements generalizing w with
  | nil => exact h
  | cons p placements ih =>
    apply ih
    unfold take
    split
    · exact h
    · exact forall_gather hseal h w.gatherings

theorem forall_foldl_sealNext (gatherings : List Gathering) {barriers : List VirtualBarrier}
    (h : ∀ b ∈ barriers, P b) :
    ∀ b ∈ gatherings.foldl (fun barriers u => (sealNext g posting barriers u).1) barriers,
      P b := by
  induction gatherings generalizing barriers with
  | nil => exact h
  | cons u rest ih => exact ih (hseal barriers u h)

end Kept

/-- What sealing a gathering keeps holds for all barriers of a timetable. -/
theorem forall_sealAll {P : VirtualBarrier → Prop}
    (hseal : ∀ (barriers : List VirtualBarrier) (u : Gathering), (∀ b ∈ barriers, P b) →
      ∀ b ∈ (sealNext g (Timetable.posting placements) barriers u).1, P b) :
    ∀ b ∈ sealAll g placements, P b :=
  forall_foldl_sealNext hseal _ (forall_foldl_take hseal _ (by simp))

theorem ascending_consumers_sealNext (barriers : List VirtualBarrier) (u : Gathering)
    (h : ∀ b ∈ barriers, b.consumers.Pairwise (· < ·)) :
    ∀ b ∈ (sealNext g posting barriers u).1, b.consumers.Pairwise (· < ·) := by
  have hfence : ∀ b ∈ fence u barriers, b.consumers.Pairwise (· < ·) := by
    unfold fence
    split
    · intro b' hb'
      obtain ⟨b, hb, rfl⟩ := List.mem_map.1 hb'
      split
      · exact IdSet.pairwise_union _ (h b hb)
      · exact h b hb
    · exact h
  intro b hb
  rw [sealNext_fst] at hb
  rcases List.mem_append.1 hb with hb | hb
  · exact hfence b hb
  · obtain rfl := List.mem_singleton.1 hb
    exact IdSet.pairwise_ofList _

/-- The consumers of wired barriers are ascending. -/
theorem ascending_consumers_wire {b : VirtualBarrier} (hb : b ∈ wire g placements) :
    b.consumers.Pairwise (· < ·) := by
  obtain ⟨⟨c, hc, -, hconsumers⟩, -⟩ := mem_wire hb
  rw [← hconsumers]
  show (VirtualBarrier.neededConsumers g _ c.consumers).Pairwise (· < ·)
  exact (forall_sealAll ascending_consumers_sealNext c hc).filter _

/-- Wired barriers with the same consumers are the same barrier. -/
theorem eq_of_mem_consumers_iff {b c : VirtualBarrier} (hb : b ∈ wire g placements)
    (hc : c ∈ wire g placements) (h : ∀ x, x ∈ b.consumers ↔ x ∈ c.consumers) : b = c := by
  have hsame : b.consumers = c.consumers :=
    IdSet.eq_of_mem_iff (ascending_consumers_wire hb) (ascending_consumers_wire hc) h
  exact List.inj_on_of_nodup_map (nodup_consumers_wire g placements) hb hc hsame

/-! ## Producers -/

section Orders

variable (hg : g.WellFormed) (h : Timetable.Orders g placements)

include hg h

theorem producers_posting {b : VirtualBarrier} (hb : b ∈ wire g placements) {x : Nat}
    (hx : x ∈ b.producers) : x ∈ Timetable.posting placements := by
  obtain ⟨c, hc, -, hxc⟩ := ((mem_wire hb).2 x).1 hx
  exact (sealed_sealAll hg h).1.producers_mem c hc x hxc

/-- A task is a producer of one sealed barrier only, that of its use. -/
theorem eq_of_mem_sealed {c d : VirtualBarrier} (hc : c ∈ sealAll g placements)
    (hd : d ∈ sealAll g placements) {x : Nat} (hxc : x ∈ c.producers) (hxd : x ∈ d.producers) :
    c = d := by
  have hpost := (sealed_sealAll hg h).1.producers_mem c hc x hxc
  obtain ⟨p, hp, rfl⟩ := h.exists_placement (h.posting_mem hpost)
  have huse := (mem_producers_iff hg h hc hp).1 hxc
  have huse' := (mem_producers_iff hg h hd hp).1 hxd
  apply eq_of_useOf_eq h hc hd
  exact Timetable.Use.ext (Option.some.inj (huse.1.symm.trans huse'.1))
    (huse.2.symm.trans huse'.2)

/-- A task is a producer of one wired barrier only. -/
theorem eq_of_mem_producers {b c : VirtualBarrier} (hb : b ∈ wire g placements)
    (hc : c ∈ wire g placements) {x : Nat} (hxb : x ∈ b.producers) (hxc : x ∈ c.producers) :
    b = c := by
  obtain ⟨first, hfirst, hconsumers, hx⟩ := ((mem_wire hb).2 x).1 hxb
  obtain ⟨second, hsecond, hconsumers', hx'⟩ := ((mem_wire hc).2 x).1 hxc
  have hsame : first = second := eq_of_mem_sealed hg h hfirst hsecond hx hx'
  subst hsame
  exact List.inj_on_of_nodup_map (nodup_consumers_wire g placements) hb hc
    (hconsumers.symm.trans hconsumers')

/-- A task that posts and has a successor is a producer. -/
theorem exists_producer {x y : Nat} (hx : x ∈ Timetable.posting placements)
    (hxy : g.Joins x y) : ∃ b ∈ wire g placements, x ∈ b.producers := by
  have hchain := (enforced_wire hg h).chains x y hx (.single hxy)
  obtain ⟨z, ⟨b, hb, hxb, -⟩, -⟩ := Relation.TransGen.head'_iff.1 hchain
  exact ⟨b, hb, hxb⟩

/-- A task posts one wired barrier at most. -/
theorem length_updatesOf_le (x : Nat) :
    (VirtualBarrier.updatesOf (wire g placements) x).length ≤ 1 := by
  have hnodup : ((wire g placements).filter (·.producers.contains x)).Nodup :=
    (List.Nodup.of_map _ (nodup_consumers_wire g placements)).filter _
  have hmem : ∀ b ∈ (wire g placements).filter (·.producers.contains x),
      b ∈ wire g placements ∧ x ∈ b.producers := by
    intro b hb
    simpa using List.mem_filter.1 hb
  show (((wire g placements).filter (·.producers.contains x)).map (·.id)).length ≤ 1
  rw [List.length_map]
  generalize (wire g placements).filter (·.producers.contains x) = posted at hnodup hmem
  match posted with
  | [] => simp
  | [_] => simp
  | b :: c :: rest =>
    have hb := hmem b (by simp)
    have hc := hmem c (by simp)
    have heq : b = c := eq_of_mem_producers hg h hb.1 hc.1 hb.2 hc.2
    simp [heq] at hnodup

end Orders

end Wiring

open Wiring

variable {g : TaskGraph} {placements : List Placement}

/-- How the barriers of a timetable share its tasks. -/
structure Shares (g : TaskGraph) (placements : List Placement) (barriers : List VirtualBarrier) :
    Prop where
  ids_eq : barriers.map (·.id) = List.range barriers.length
  sides : ∀ b ∈ barriers, b.producers ≠ [] ∧ b.consumers ≠ []
  posting : ∀ b ∈ barriers, ∀ x ∈ b.producers, x ∈ Timetable.posting placements
  /-- No task posts two barriers. -/
  disjoint : barriers.Pairwise fun b c => ∀ x ∈ b.producers, x ∉ c.producers
  /-- Two barriers are told apart by a consumer. -/
  distinct : barriers.Pairwise fun b c => ∃ x, ¬ (x ∈ b.consumers ↔ x ∈ c.consumers)
  /-- Who posts and has a successor is the producer of one barrier. -/
  produces : ∀ x ∈ Timetable.posting placements, g.successors x ≠ [] →
    ∃! b, b ∈ barriers ∧ x ∈ b.producers
  updates : ∀ x, (VirtualBarrier.updatesOf barriers x).length ≤ 1

/-- The wired barriers share out the tasks that post: each has its one barrier, or none if nobody
comes after it. -/
theorem wire_shares (hg : g.WellFormed) (h : Timetable.Orders g placements) :
    Shares g placements (wire g placements) := by
  have henforced := enforced_wire hg h
  have hnodup : (wire g placements).Nodup := .of_map _ (nodup_consumers_wire g placements)
  constructor
  case ids_eq => exact henforced.numbered.ids_eq
  case sides => exact henforced.sides
  case posting => exact fun b hb x hx => producers_posting hg h hb hx
  case disjoint =>
    apply hnodup.imp_of_mem
    intro b c hb hc hne x hxb hxc
    exact hne (eq_of_mem_producers hg h hb hc hxb hxc)
  case distinct =>
    apply hnodup.imp_of_mem
    intro b c hb hc hne
    exact not_forall.1 fun hsame => hne (eq_of_mem_consumers_iff hb hc hsame)
  case produces =>
    intro x hx hsuccessors
    obtain ⟨y, hy⟩ := List.exists_mem_of_ne_nil _ hsuccessors
    obtain ⟨b, hb, hxb⟩ := exists_producer hg h hx (TaskGraph.mem_successors.1 hy)
    exact ⟨b, ⟨hb, hxb⟩, fun c hc => eq_of_mem_producers hg h hc.1 hb hc.2 hxb⟩
  case updates => exact length_updatesOf_le hg h

/-- Tasks 0 and 1 have successors and share a hardware barrier over time; the last task posts
for nobody. -/
theorem wire_shares_diamond :
    let placements : List Placement :=
      [⟨0, 0, some ⟨1⟩, 1, []⟩, ⟨3, 1, none, 0, []⟩, ⟨1, 1, some ⟨1⟩, 3, []⟩,
        ⟨4, 2, some ⟨2⟩, 1, []⟩]
    Timetable.Orders TaskGraph.diamond placements ∧
      Timetable.posting placements = [0, 1, 4] ∧
      Shares TaskGraph.diamond placements (wire TaskGraph.diamond placements) := by
  intro placements
  have horders : Timetable.Orders TaskGraph.diamond placements := by
    constructor <;> decide
  exact ⟨horders, by decide, wire_shares TaskGraph.wellFormed_diamond horders⟩

end TaskLoom
