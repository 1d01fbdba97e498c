import TaskLoom.Proofs.Barrier.Chains
import TaskLoom.Proofs.Barrier.Uses

/-!
# The reuse of a hardware barrier is fenced

A hardware barrier must not be set up again while its former use is in flight.  So the
producers of each use wait for the use before.  That wait may be dropped later on, because
another consumer leads to the producer, and its barrier may be joined with others.

Before the clean-ups the uses of a hardware barrier are a chain of such waits.  Each of
them survives as a chain of barriers, though not always as a link.  Therefore chains lead
from all producers of a use to all producers of every later one.

## Main results

* `Turns.pairwise_precedes` — a use precedes all later ones, not only the next.
* `exists_use` — the tasks that post a hardware barrier in a step are producers of one use.
* `transGen_wire` — a link from before the clean-ups is a chain after them.
* `wire_fences_reuse` — chains of barriers lead from use to use.
-/

namespace TaskLoom

/-- The tasks that post a hardware barrier in a time step. -/
def Timetable.postedAt (placements : List Placement) (physical : BarrierId) (time : Nat) :
    List Nat :=
  (placements.filter fun p => p.barrier == some physical && p.time == time).map (·.task)

theorem Timetable.mem_postedAt {placements : List Placement} {physical : BarrierId}
    {time id : Nat} :
    id ∈ postedAt placements physical time ↔
      ∃ p ∈ placements, p.barrier = some physical ∧ p.time = time ∧ p.task = id := by
  simp [postedAt, and_assoc]

namespace Wiring

open VirtualBarrier (Signals)

variable {g : TaskGraph} {start : Nat → Nat} {site : Nat → Option BarrierId}
  {barriers : List VirtualBarrier} {b c d : VirtualBarrier}

/-! ## From use to use -/

/-- Someone produces the later use, and chains of barriers lead there from every producer
of the earlier one. -/
structure Precedes (barriers : List VirtualBarrier) (b c : VirtualBarrier) : Prop where
  ne_nil : c.producers ≠ []
  chains : ∀ p ∈ b.producers, ∀ q ∈ c.producers, Relation.TransGen (Signals barriers) p q

theorem Precedes.trans (hbd : Precedes barriers b d) (hdc : Precedes barriers d c) :
    Precedes barriers b c := by
  refine ⟨hdc.ne_nil, ?_⟩
  intro p hp q hq
  obtain ⟨x, hx⟩ := List.exists_mem_of_ne_nil _ hbd.ne_nil
  exact (hbd.chains p hp x hx).trans (hdc.chains x hx q hq)

instance (barriers : List VirtualBarrier) :
    Trans (Precedes barriers) (Precedes barriers) (Precedes barriers) :=
  ⟨Precedes.trans⟩

/-- The next use waits for this one directly. -/
theorem Fences.precedes (h : Fences start b c) (hb : b ∈ barriers) (hc : c.producers ≠ []) :
    Precedes barriers b c := by
  refine ⟨hc, ?_⟩
  intro p hp q hq
  apply Relation.TransGen.single
  exact ⟨b, hb, hp, h.2 q hq⟩

/-- Of the uses of a hardware barrier, each precedes all later ones. -/
theorem Turns.pairwise_precedes {h : BarrierId} {uses : List VirtualBarrier}
    {now : Option Gathering} (hturns : Turns site start h uses now)
    (hsub : ∀ b ∈ uses, b ∈ barriers) : uses.Pairwise (Precedes barriers) := by
  have hchain : uses.IsChain (Precedes barriers) := by
    apply hturns.chain.imp_of_mem_imp
    intro b c hb hc hfences
    obtain ⟨time, hstand⟩ := hturns.stand c hc
    exact hfences.precedes (hsub b hb) hstand.ne_nil
  exact hchain.pairwise

/-! ## The uses of a timetable -/

section Timetable

variable {placements : List Placement} {physical : BarrierId}

/-- The tasks that post a hardware barrier in a step are producers of a use of it, whose
producers all run in that step. -/
theorem exists_use (hg : g.WellFormed) (h : Timetable.Orders g placements) {time id : Nat}
    (hid : id ∈ Timetable.postedAt placements physical time) :
    ∃ b ∈ usesOf (sealAll g placements) physical, id ∈ b.producers ∧
      ∀ x ∈ b.producers, Timetable.startOf placements x = time := by
  obtain ⟨p, hp, hbarrier, rfl, rfl⟩ := Timetable.mem_postedAt.1 hid
  have hposts : p.task ∈ Timetable.posting placements :=
    Timetable.mem_posting.2 ⟨p, hp, by simp [hbarrier], rfl⟩
  obtain ⟨b, hb, hproducer⟩ := (sealed_sealAll hg h).2 p.task hposts
  have hturns := @turns_sealAll g placements h.nodup b.physical
  obtain ⟨time, hstand⟩ := hturns.stand b (mem_usesOf.2 ⟨hb, rfl⟩)
  -- the producers of a use stand where and when the task does
  have hsite : b.physical = physical := by
    have hat := hstand.at_site p.task hproducer
    rw [siteOf_of_mem h.nodup hp, hbarrier] at hat
    exact (Option.some.inj hat).symm
  have htime : time = p.time := by
    rw [← hstand.at_time p.task hproducer]
    exact Timetable.startOf_of_mem h.nodup hp
  refine ⟨b, mem_usesOf.2 ⟨hb, hsite⟩, hproducer, ?_⟩
  intro x hx
  rw [hstand.at_time x hx, htime]

/-- A use in an earlier step precedes a use in a later one. -/
theorem precedes_of_lt (hnodup : (placements.map (·.task)).Nodup) {u v : Nat}
    (hb : b ∈ usesOf (sealAll g placements) physical)
    (hc : c ∈ usesOf (sealAll g placements) physical) (hu : u ∈ b.producers)
    (hv : v ∈ c.producers)
    (hlt : Timetable.startOf placements u < Timetable.startOf placements v) :
    Precedes (sealAll g placements) b c := by
  have hturns := @turns_sealAll g placements hnodup physical
  have hboth := hturns.pairwise_fenced.and
    (hturns.pairwise_precedes fun b hb => (mem_usesOf.1 hb).1)
  have hpairwise : (usesOf (sealAll g placements) physical).Pairwise
      (Relation.SymmGen fun x y => Fenced (Timetable.startOf placements) x y ∧
        Precedes (sealAll g placements) x y) :=
    hboth.imp Or.inl
  have hne : b ≠ c := by
    rintro rfl
    obtain ⟨time, hstand⟩ := hturns.stand b hb
    rw [hstand.at_time u hu, hstand.at_time v hv] at hlt
    exact Nat.lt_irrefl _ hlt
  rcases hpairwise.forall hb hc hne with hbc | hcb
  · exact hbc.2
  · -- the other way round the later task would run first
    exact absurd (hcb.1.1 v hv u hu) (Nat.lt_asymm hlt)

/-- A link from before the clean-ups is a chain of the barriers that are wired. -/
theorem transGen_wire (hg : g.WellFormed) (h : Timetable.Orders g placements) {p q : Nat}
    (hpq : Signals (sealAll g placements) p q) :
    Relation.TransGen (Signals (wire g placements)) p q := by
  obtain ⟨hsealed, hproduces⟩ := sealed_sealAll hg h
  have hkept := hsealed.transGen_of_signals hg hproduces
    (fun u v huv => h.startOf_lt_of_before hg huv) hpq
  apply hkept.lift id
  intro a b hab
  exact VirtualBarrier.signals_dropBarriers.2 hab

end Timetable

end Wiring

open VirtualBarrier (Signals) in
/-- Of two steps in which a hardware barrier is posted, chains of the wired barriers lead
from every task of the earlier to every task of the later one. -/
theorem wire_fences_reuse {g : TaskGraph} {placements : List Placement} (hg : g.WellFormed)
    (h : Timetable.Orders g placements) (physical : BarrierId) (earlier later : Nat)
    (hlt : earlier < later) :
    ∀ u ∈ Timetable.postedAt placements physical earlier,
      ∀ v ∈ Timetable.postedAt placements physical later,
        Relation.TransGen (Signals (wire g placements)) u v := by
  intro u hu v hv
  obtain ⟨b, hb, hub, hbtime⟩ := Wiring.exists_use hg h hu
  obtain ⟨c, hc, hvc, hctime⟩ := Wiring.exists_use hg h hv
  have hstart : Timetable.startOf placements u < Timetable.startOf placements v := by
    rw [hbtime u hub, hctime v hvc]
    exact hlt
  have hprecedes := Wiring.precedes_of_lt h.nodup hb hc hub hvc hstart
  apply (hprecedes.chains u hub v hvc).lift' id
  intro p q hpq
  exact Wiring.transGen_wire hg h hpq

/-- The task 1 waits for 3 only because both post the first hardware barrier.  The task 4
no longer waits for 0, which posts the second one before it, but 1 stands between them. -/
theorem wire_fences_reuse_diamond :
    let placements : List Placement :=
      [⟨0, 0, some ⟨2⟩, 1, []⟩, ⟨3, 1, some ⟨1⟩, 1, []⟩, ⟨1, 2, some ⟨1⟩, 3, []⟩,
        ⟨4, 3, some ⟨2⟩, 1, []⟩]
    Timetable.Orders TaskGraph.diamond placements ∧
      Relation.TransGen (VirtualBarrier.Signals (wire TaskGraph.diamond placements)) 3 1 ∧
      Relation.TransGen (VirtualBarrier.Signals (wire TaskGraph.diamond placements)) 0 4 := by
  intro placements
  have horders : Timetable.Orders TaskGraph.diamond placements := by
    constructor <;> decide
  have hfences := wire_fences_reuse TaskGraph.wellFormed_diamond horders
  exact ⟨horders, hfences ⟨1⟩ 1 2 (by decide) 3 (by decide) 1 (by decide),
    hfences ⟨2⟩ 0 3 (by decide) 0 (by decide) 4 (by decide)⟩

end TaskLoom
