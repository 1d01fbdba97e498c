import TaskLoom.Proofs.Barrier.Sealing
import TaskLoom.Proofs.Graph.Edges
import TaskLoom.Proofs.Timetable.Check

/-!
# Wired barriers enforce the graph

Dropping barriers and joining those with the same consumers does not change who
posts a barrier that another waits for.  Dropping a consumer does, but another
consumer of the same barrier then posts and leads to it.  The earliest consumer of
a barrier that leads to a task is never dropped, so every path out of a task that
posts is still a chain of barriers.

## Main results

* `signals_dropBarriers` — who signals whom is the same without superfluous barriers.
* `exists_neededConsumer` — some consumer on the way to a task is kept.
* `transGen_signals_dropConsumers` — paths are chains of barriers.
* `enforced_wire` — what the check of the barriers asks for.
* `wire_enforces` — the wired barriers pass the check and enforce every path.
-/

namespace TaskLoom

namespace VirtualBarrier

variable {g : TaskGraph} {barriers : List VirtualBarrier}

/-! ## Superfluous barriers -/

theorem signals_cons {b : VirtualBarrier} {p c : Nat} :
    Signals (b :: barriers) p c ↔ (p ∈ b.producers ∧ c ∈ b.consumers) ∨ Signals barriers p c := by
  simp [Signals]

theorem signals_merge {b : VirtualBarrier} {p c : Nat} :
    Signals (merge b barriers) p c ↔
      (p ∈ b.producers ∧ c ∈ b.consumers) ∨ Signals barriers p c := by
  induction barriers with
  | nil => exact signals_cons
  | cons kept rest ih =>
    unfold merge
    split
    · next heq =>
      simp only [signals_cons, IdSet.mem_union, heq]
      tauto
    · simp only [signals_cons, ih]
      tauto

theorem signals_foldl_merge {kept : List VirtualBarrier} {p c : Nat} :
    Signals (barriers.foldl (fun kept b => merge b kept) kept) p c ↔
      Signals kept p c ∨ Signals barriers p c := by
  induction barriers generalizing kept with
  | nil => simp [Signals]
  | cons b barriers ih =>
    rw [List.foldl_cons, ih, signals_merge, signals_cons]
    tauto

/-- A barrier with producers and consumers. -/
def TwoSided (b : VirtualBarrier) : Prop :=
  b.producers ≠ [] ∧ b.consumers ≠ []

theorem twoSided_merge {b : VirtualBarrier} (hb : b.TwoSided) (h : ∀ k ∈ barriers, k.TwoSided) :
    ∀ k ∈ merge b barriers, k.TwoSided := by
  induction barriers with
  | nil => simpa [merge] using hb
  | cons kept rest ih =>
    obtain ⟨hkept, hrest⟩ := List.forall_mem_cons.1 h
    unfold merge
    split
    · refine List.forall_mem_cons.2 ⟨⟨?_, hkept.2⟩, hrest⟩
      obtain ⟨p, hp⟩ := List.exists_mem_of_ne_nil _ hkept.1
      exact List.ne_nil_of_mem (IdSet.mem_union.2 (Or.inr hp))
    · exact List.forall_mem_cons.2 ⟨hkept, ih hrest⟩

theorem twoSided_foldl_merge {kept : List VirtualBarrier} (hkept : ∀ k ∈ kept, k.TwoSided)
    (h : ∀ b ∈ barriers, b.TwoSided) :
    ∀ k ∈ barriers.foldl (fun kept b => merge b kept) kept, k.TwoSided := by
  induction barriers generalizing kept with
  | nil => exact hkept
  | cons b barriers ih =>
    obtain ⟨hb, hbarriers⟩ := List.forall_mem_cons.1 h
    exact ih (twoSided_merge hb hkept) hbarriers

theorem mem_renumber {b' : VirtualBarrier} (h : b' ∈ renumber barriers) :
    ∃ b ∈ barriers, b'.producers = b.producers ∧ b'.consumers = b.consumers := by
  obtain ⟨⟨b, i⟩, hb, rfl⟩ := List.mem_map.1 h
  exact ⟨b, (List.mem_zipIdx_iff_getElem?.1 hb |> List.mem_of_getElem?), rfl, rfl⟩

theorem numbered_renumber (barriers : List VirtualBarrier) :
    Timetable.Numbered (renumber barriers) := by
  intro i b hget
  rw [renumber, List.getElem?_map, List.getElem?_zipIdx, Option.map_map] at hget
  obtain ⟨c, -, rfl⟩ := Option.map_eq_some_iff.1 hget
  exact Nat.zero_add i

theorem signals_renumber {p c : Nat} : Signals (renumber barriers) p c ↔ Signals barriers p c := by
  constructor
  · rintro ⟨b', hb', hp, hc⟩
    obtain ⟨b, hb, hproducers, hconsumers⟩ := mem_renumber hb'
    exact ⟨b, hb, hproducers ▸ hp, hconsumers ▸ hc⟩
  · rintro ⟨b, hb, hp, hc⟩
    obtain ⟨i, hi⟩ := List.mem_iff_getElem?.1 hb
    refine ⟨{ b with id := i }, List.mem_map.2 ⟨(b, i), ?_, rfl⟩, hp, hc⟩
    exact List.mem_zipIdx_iff_getElem?.2 hi

/-- Dropping superfluous barriers does not change who signals whom. -/
theorem signals_dropBarriers {p c : Nat} :
    Signals (dropBarriers barriers) p c ↔ Signals barriers p c := by
  unfold dropBarriers
  rw [signals_renumber, signals_foldl_merge]
  constructor
  · rintro (⟨b, hb, -⟩ | ⟨b, hb, hpc⟩)
    · cases hb
    · exact ⟨b, (List.mem_filter.1 hb).1, hpc⟩
  · rintro ⟨b, hb, hp, hc⟩
    refine Or.inr ⟨b, List.mem_filter.2 ⟨hb, ?_⟩, hp, hc⟩
    simp [List.ne_nil_of_mem hp, List.ne_nil_of_mem hc]

theorem twoSided_dropBarriers {b : VirtualBarrier} (h : b ∈ dropBarriers barriers) :
    b.TwoSided := by
  obtain ⟨k, hk, hproducers, hconsumers⟩ := mem_renumber h
  have hused : ∀ b ∈ barriers.filter (fun b => !b.producers.isEmpty && !b.consumers.isEmpty),
      b.TwoSided := by
    intro b hb
    simpa [TwoSided] using (List.mem_filter.1 hb).2
  have hsides := twoSided_foldl_merge (by simp) hused k hk
  exact ⟨hproducers ▸ hsides.1, hconsumers ▸ hsides.2⟩

/-! ## Superfluous consumers -/

theorem mem_neededConsumers (hg : g.WellFormed) {posting consumers : List Nat}
    (hconsumers : ∀ c ∈ consumers, c ∈ g.ids) {c : Nat} :
    c ∈ neededConsumers g posting consumers ↔
      c ∈ consumers ∧ ∀ o ∈ consumers, o ∈ posting → o ≠ c → ¬ g.Leads o c := by
  unfold neededConsumers
  simp only [List.mem_filter, Bool.not_eq_true', List.any_eq_false, List.mem_map,
    forall_exists_index, and_imp, Prod.forall, Prod.mk.injEq, List.contains_eq_mem,
    decide_eq_true_eq, Bool.and_eq_true, bne_iff_ne, ne_eq]
  refine and_congr_right fun _ => ⟨?_, ?_⟩
  · intro h o ho hpost hne hleads
    exact h o (g.reachable o) o ho hpost rfl rfl
      ⟨hne, (hg.reachable_iff (TaskGraph.lt_size_of_mem_ids (hconsumers o ho))).2 hleads⟩
  · rintro h _ _ o ho hpost rfl rfl ⟨hne, hreached⟩
    exact h o ho hpost hne
      ((hg.reachable_iff (TaskGraph.lt_size_of_mem_ids (hconsumers o ho))).1 hreached)

/-- Of the consumers that a path leads through to `v`, the earliest is kept. -/
theorem exists_neededConsumer (hg : g.WellFormed) {start : Nat → Nat}
    (hstart : ∀ u v, g.Before u v → start u < start v) {posting consumers : List Nat}
    (hconsumers : ∀ c ∈ consumers, c ∈ g.ids) {v c : Nat} (hc : c ∈ consumers)
    (hcv : c = v ∨ c ∈ posting ∧ g.Before c v) :
    ∃ k ∈ neededConsumers g posting consumers, k = v ∨ k ∈ posting ∧ g.Before k v := by
  induction htime : start c using Nat.strongRecOn generalizing c with
  | ind time ih =>
    by_cases hneeded : c ∈ neededConsumers g posting consumers
    · exact ⟨c, hneeded, hcv⟩
    · -- an earlier consumer posts and leads to this one, and so to `v`
      have hother : ∃ o ∈ consumers, o ∈ posting ∧ o ≠ c ∧ g.Leads o c := by
        by_contra hnone
        refine hneeded ((mem_neededConsumers hg hconsumers).2 ⟨hc, ?_⟩)
        intro o ho hpost hne hleads
        exact hnone ⟨o, ho, hpost, hne, hleads⟩
      obtain ⟨o, ho, hpost, hne, hleads⟩ := hother
      have hoc : g.Before o c := by
        rcases Relation.reflTransGen_iff_eq_or_transGen.1 hleads with heq | hbefore
        · exact absurd heq.symm hne
        · exact hbefore
      have hov : g.Before o v := by
        rcases hcv with rfl | ⟨-, hcv⟩
        · exact hoc
        · exact hoc.trans hcv
      exact ih (start o) (htime ▸ hstart o c hoc) ho (Or.inr ⟨hpost, hov⟩) rfl

end VirtualBarrier

namespace Wiring

open VirtualBarrier (Signals)

variable {g : TaskGraph} {posting : List Nat} {start : Nat → Nat} {barriers : List VirtualBarrier}

/-- Among sealed barriers, the producers are the tasks that post. -/
theorem Sealed.mem_producers (h : Sealed g posting start barriers)
    (hproduces : ∀ x ∈ posting, Produces barriers x) {x : Nat} :
    x ∈ barriers.flatMap (·.producers) ↔ x ∈ posting := by
  rw [List.mem_flatMap]
  exact ⟨fun ⟨b, hb, hx⟩ => h.producers_mem b hb x hx, fun hx => hproduces x hx⟩

theorem Sealed.signals_dropConsumers (h : Sealed g posting start barriers) (hg : g.WellFormed)
    {p c : Nat} (hsignals : Signals (VirtualBarrier.dropConsumers g barriers) p c) :
    p ∈ posting ∧ c ∈ g.ids ∧ start p < start c := by
  obtain ⟨b', hb', hp, hc⟩ := hsignals
  obtain ⟨b, hb, rfl⟩ := List.mem_map.1 hb'
  have hc := ((VirtualBarrier.mem_neededConsumers hg (h.consumers_mem b hb)).1 hc).1
  exact ⟨h.producers_mem b hb p hp, h.consumers_mem b hb c hc, h.later b hb p hp c hc⟩

/-- A task that posts signals someone on every path out of it. -/
theorem Sealed.exists_signals (h : Sealed g posting start barriers) (hg : g.WellFormed)
    (hproduces : ∀ x ∈ posting, Produces barriers x)
    (hstart : ∀ u v, g.Before u v → start u < start v) {u v : Nat} (hu : u ∈ posting)
    (huv : g.Before u v) :
    ∃ c, Signals (VirtualBarrier.dropConsumers g barriers) u c ∧
      (c = v ∨ c ∈ posting ∧ g.Before c v) := by
  obtain ⟨b, hb, hub⟩ := hproduces u hu
  obtain ⟨w, hw, hwv⟩ := @exists_waiter g posting hg u v huv
  have hconsumer := h.covers b hb u hub w hw
  have hposting : w = v ∨ w ∈ barriers.flatMap (·.producers) ∧ g.Before w v :=
    hwv.imp_right fun hwv => ⟨(h.mem_producers hproduces).2 hwv.1, hwv.2⟩
  obtain ⟨c, hc, hcv⟩ := VirtualBarrier.exists_neededConsumer hg hstart (h.consumers_mem b hb)
    hconsumer hposting
  refine ⟨c, ⟨_, List.mem_map.2 ⟨b, hb, rfl⟩, hub, hc⟩, ?_⟩
  exact hcv.imp_right fun hcv => ⟨(h.mem_producers hproduces).1 hcv.1, hcv.2⟩

/-- Every path out of a task that posts is a chain of barriers. -/
theorem Sealed.transGen_signals_dropConsumers (h : Sealed g posting start barriers)
    (hg : g.WellFormed) (hproduces : ∀ x ∈ posting, Produces barriers x)
    (hstart : ∀ u v, g.Before u v → start u < start v) {u v : Nat} (hu : u ∈ posting)
    (huv : g.Before u v) :
    Relation.TransGen (Signals (VirtualBarrier.dropConsumers g barriers)) u v := by
  -- each link of the chain leaves less time to `v`
  induction hgap : start v - start u using Nat.strongRecOn generalizing u with
  | ind gap ih =>
    obtain ⟨c, hsignals, rfl | ⟨hc, hcv⟩⟩ := h.exists_signals hg hproduces hstart hu huv
    · exact .single hsignals
    · have hlt := (h.signals_dropConsumers hg hsignals).2.2
      have hlt' := hstart c v hcv
      exact .head hsignals (ih (start v - start c) (by omega) hc hcv rfl)

end Wiring

/-- The barriers that are wired for a timetable enforce the graph. -/
theorem enforced_wire {g : TaskGraph} {placements : List Placement} (hg : g.WellFormed)
    (h : Timetable.Orders g placements) :
    Timetable.Enforced g placements (wire g placements) := by
  obtain ⟨hsealed, hproduces⟩ := Wiring.sealed_sealAll hg h
  have hstart : ∀ u v, g.Before u v →
      Timetable.startOf placements u < Timetable.startOf placements v :=
    fun u v huv => h.startOf_lt_of_before hg huv
  refine ⟨VirtualBarrier.numbered_renumber _, fun b hb => VirtualBarrier.twoSided_dropBarriers hb,
    ?_, ?_⟩
  · intro p c hpc
    obtain ⟨hp, hc, hlt⟩ :=
      hsealed.signals_dropConsumers hg (VirtualBarrier.signals_dropBarriers.1 hpc)
    exact ⟨h.posting_mem hp, hc, hlt⟩
  · intro u v hu huv
    exact (hsealed.transGen_signals_dropConsumers hg hproduces hstart hu huv).lift id
      fun _ _ hab => VirtualBarrier.signals_dropBarriers.2 hab

open VirtualBarrier (Signals) in
/-- The barriers that are wired for a timetable pass the check, and every path out
of a task that posts is a chain of them. -/
theorem wire_enforces {g : TaskGraph} {placements : List Placement} (hg : g.WellFormed)
    (h : Timetable.Orders g placements) :
    Timetable.checkBarriers g placements (wire g placements) = .ok () ∧
      ∀ u v, u ∈ Timetable.posting placements → g.Before u v →
        Relation.TransGen (Signals (wire g placements)) u v := by
  have henforced := enforced_wire hg h
  exact ⟨Timetable.checkBarriers_ok h henforced, henforced.chains⟩

/-- Two tasks share a hardware barrier over time, and one posts nothing. -/
theorem wire_enforces_diamond :
    let placements : List Placement :=
      [⟨0, 0, some ⟨1⟩, 1, []⟩, ⟨3, 1, none, 0, []⟩, ⟨1, 1, some ⟨1⟩, 3, []⟩,
        ⟨4, 2, some ⟨2⟩, 1, []⟩]
    Timetable.Orders TaskGraph.diamond placements ∧
      Timetable.checkBarriers TaskGraph.diamond placements
        (wire TaskGraph.diamond placements) = .ok () ∧
      ∀ u v, u ∈ Timetable.posting placements → TaskGraph.diamond.Before u v →
        Relation.TransGen (VirtualBarrier.Signals (wire TaskGraph.diamond placements)) u v := by
  intro placements
  have horders : Timetable.Orders TaskGraph.diamond placements := by
    constructor <;> decide
  exact ⟨horders, wire_enforces TaskGraph.wellFormed_diamond horders⟩

end TaskLoom
