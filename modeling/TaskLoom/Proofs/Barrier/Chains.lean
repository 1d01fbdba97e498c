import TaskLoom.Proofs.Barrier.Wiring

/-!
# Clean-ups keep the order that barriers enforce

One task waits for another if a chain of barriers leads from the other to it.  The
clean-ups drop consumers and barriers, so they drop links; the chains stay.

A consumer is dropped because another consumer of the same barrier posts and leads
to it in the graph.  That other one may be dropped as well, and what it leads through
may post nothing.  But the earliest such consumer is kept, and from there on every
path of the graph is a chain of what is kept.

## Main results

* `Sealed.transGen_of_signals` — a link that is dropped is a chain of links that stay.
* `Sealed.transGen_dropConsumers` — without superfluous consumers the chains are the same.
* `transGen_signals_wire` — the clean-ups together keep the chains of a timetable.
-/

namespace TaskLoom

namespace VirtualBarrier

variable {g : TaskGraph} {barriers : List VirtualBarrier}

/-- Dropping consumers adds no link. -/
theorem signals_of_dropConsumers {p c : Nat} (h : Signals (dropConsumers g barriers) p c) :
    Signals barriers p c := by
  obtain ⟨dropped, hdropped, hp, hc⟩ := h
  obtain ⟨b, hb, rfl⟩ := List.mem_map.1 hdropped
  exact ⟨b, hb, hp, (List.mem_filter.1 hc).1⟩

end VirtualBarrier

namespace Wiring

open VirtualBarrier (Signals)

variable {g : TaskGraph} {posting : List Nat} {start : Nat → Nat} {barriers : List VirtualBarrier}

/-- A link between two tasks is still a chain of links when superfluous consumers are
dropped. -/
theorem Sealed.transGen_of_signals (h : Sealed g posting start barriers) (hg : g.WellFormed)
    (hproduces : ∀ x ∈ posting, Produces barriers x)
    (hstart : ∀ u v, g.Before u v → start u < start v) {p c : Nat} (hpc : Signals barriers p c) :
    Relation.TransGen (Signals (VirtualBarrier.dropConsumers g barriers)) p c := by
  obtain ⟨b, hb, hp, hc⟩ := hpc
  -- the consumer itself, or the earliest one on a path to it
  obtain ⟨kept, hkept, hleads⟩ := @VirtualBarrier.exists_neededConsumer g hg start hstart
    (barriers.flatMap (·.producers)) b.consumers (h.consumers_mem b hb) c c hc (Or.inl rfl)
  have hlink : Signals (VirtualBarrier.dropConsumers g barriers) p kept :=
    ⟨_, List.mem_map.2 ⟨b, hb, rfl⟩, hp, hkept⟩
  cases hleads with
  | inl hsame =>
    subst hsame
    exact .single hlink
  | inr hbefore =>
    have hposts : kept ∈ posting := (h.mem_producers hproduces).1 hbefore.1
    apply Relation.TransGen.head hlink
    exact h.transGen_signals_dropConsumers hg hproduces hstart hposts hbefore.2

/-- The chains of sealed barriers are the same without superfluous consumers. -/
theorem Sealed.transGen_dropConsumers (h : Sealed g posting start barriers) (hg : g.WellFormed)
    (hproduces : ∀ x ∈ posting, Produces barriers x)
    (hstart : ∀ u v, g.Before u v → start u < start v) :
    Relation.TransGen (Signals (VirtualBarrier.dropConsumers g barriers)) =
      Relation.TransGen (Signals barriers) := by
  funext u v
  apply propext
  constructor
  · intro hchain
    exact hchain.lift id fun _ _ hpc => VirtualBarrier.signals_of_dropConsumers hpc
  · intro hchain
    exact hchain.lift' id fun _ _ hpc => h.transGen_of_signals hg hproduces hstart hpc

end Wiring

open VirtualBarrier (Signals) in
/-- The barriers that are wired for a timetable have the same chains as those before any
clean-up. -/
theorem transGen_signals_wire {g : TaskGraph} {placements : List Placement} (hg : g.WellFormed)
    (h : Timetable.Orders g placements) :
    Relation.TransGen (Signals (wire g placements)) =
      Relation.TransGen (Signals (Wiring.sealAll g placements)) := by
  have hsealed := Wiring.sealed_sealAll hg h
  have hlinks : Signals (wire g placements) =
      Signals (VirtualBarrier.dropConsumers g (Wiring.sealAll g placements)) := by
    funext p c
    exact propext VirtualBarrier.signals_dropBarriers
  rw [hlinks]
  exact hsealed.1.transGen_dropConsumers hg hsealed.2 fun u v huv => h.startOf_lt_of_before hg huv

/-- Of the consumers 1, 3 and 4 of the first barrier, 4 is dropped because 1 posts and
leads to it, and the barrier of 4 has no consumer. -/
theorem transGen_signals_wire_diamond :
    let placements : List Placement :=
      [⟨0, 0, some ⟨1⟩, 1, []⟩, ⟨3, 1, none, 0, []⟩, ⟨1, 1, some ⟨1⟩, 3, []⟩,
        ⟨4, 2, some ⟨2⟩, 1, []⟩]
    Timetable.Orders TaskGraph.diamond placements ∧
      Relation.TransGen (VirtualBarrier.Signals (wire TaskGraph.diamond placements)) =
        Relation.TransGen
          (VirtualBarrier.Signals (Wiring.sealAll TaskGraph.diamond placements)) := by
  intro placements
  have horders : Timetable.Orders TaskGraph.diamond placements := by
    constructor <;> decide
  exact ⟨horders, transGen_signals_wire TaskGraph.wellFormed_diamond horders⟩

end TaskLoom
