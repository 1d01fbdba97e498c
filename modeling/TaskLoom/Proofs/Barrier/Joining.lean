import TaskLoom.Proofs.Barrier.Uses
import TaskLoom.Proofs.Barrier.Wiring
import TaskLoom.Proofs.Word

/-!
# Joined uses of hardware barriers

Barriers with the same consumers are joined into one, which stays on the hardware barrier
of the first.  Joining looks at consumers only.  So the producers of a wired barrier are
those of one or more uses: one use of its own hardware barrier, since two uses of the same
hardware barrier never have the same consumers, and uses that are borrowed from others.

The own producers of two barriers on one hardware barrier take turns, and all producers of
the earlier barrier run before the own producers of the later one.  Nothing of the kind
holds for the borrowed producers of the later one, and the slots of the uses add up.

## Main results

* `joined_foldl_merge` — what joining barriers with the same consumers gives.
* `eq_of_remaining_eq` — two uses of a hardware barrier have different consumers.
* `unites_wire` — a wired barrier unites one use of its hardware barrier with uses of others.
* `Unites.slotsOf_eq` — the slots of the uses add up.
* `runBefore_own_or` — the own producers of two barriers take turns.
-/

namespace TaskLoom

/-! ## Joining by consumers -/

namespace VirtualBarrier

/-- What is left of barriers when those with the same consumers are joined. -/
structure Joined (used kept : List VirtualBarrier) : Prop where
  nodup : (kept.map (·.consumers)).Nodup
  complete : ∀ b ∈ used, b.consumers ∈ kept.map (·.consumers)
  first : ∀ k ∈ kept, ∃ b ∈ used, b.physical = k.physical ∧ b.consumers = k.consumers
  mem_producers : ∀ k ∈ kept, ∀ x, x ∈ k.producers ↔
    ∃ b ∈ used, b.consumers = k.consumers ∧ x ∈ b.producers

theorem consumers_merge (b : VirtualBarrier) (kept : List VirtualBarrier) :
    (merge b kept).map (·.consumers) =
      if b.consumers ∈ kept.map (·.consumers) then kept.map (·.consumers)
      else kept.map (·.consumers) ++ [b.consumers] := by
  induction kept with
  | nil => simp [merge]
  | cons k rest ih =>
    unfold merge
    by_cases heq : k.consumers = b.consumers
    · simp [heq]
    · rw [if_neg heq, List.map_cons, ih]
      by_cases hmem : b.consumers ∈ rest.map (·.consumers)
      · have hmem' : b.consumers ∈ (k :: rest).map (·.consumers) := List.mem_cons_of_mem _ hmem
        rw [if_pos hmem, if_pos hmem']
        rfl
      · have hnew : b.consumers ∉ (k :: rest).map (·.consumers) := by
          rw [List.map_cons, List.mem_cons, not_or]
          exact ⟨Ne.symm heq, hmem⟩
        rw [if_neg hmem, if_neg hnew]
        rfl

/-- A barrier of the list after one joins it: an old one with other consumers, the one that
took over the producers, or the new one. -/
theorem mem_merge {b : VirtualBarrier} {kept : List VirtualBarrier}
    (hnodup : (kept.map (·.consumers)).Nodup) {k : VirtualBarrier} (hk : k ∈ merge b kept) :
    (k ∈ kept ∧ k.consumers ≠ b.consumers) ∨
      (∃ old ∈ kept, old.consumers = b.consumers ∧
        k = { old with producers := IdSet.union b.producers old.producers }) ∨
      (k = b ∧ b.consumers ∉ kept.map (·.consumers)) := by
  induction kept with
  | nil => exact Or.inr (Or.inr ⟨List.mem_singleton.1 hk, by simp⟩)
  | cons head rest ih =>
    obtain ⟨hhead, hnodup⟩ := List.nodup_cons.1 hnodup
    unfold merge at hk
    split at hk
    · next heq =>
      rcases List.mem_cons.1 hk with rfl | hk
      · exact Or.inr (Or.inl ⟨head, List.mem_cons_self, heq, rfl⟩)
      · refine Or.inl ⟨List.mem_cons_of_mem head hk, fun hsame => hhead ?_⟩
        exact List.mem_map.2 ⟨k, hk, hsame.trans heq.symm⟩
    · next hne =>
      rcases List.mem_cons.1 hk with rfl | hk
      · exact Or.inl ⟨List.mem_cons_self, hne⟩
      · rcases ih hnodup hk with ⟨hmem, hother⟩ | ⟨old, hold, hsame⟩ | ⟨rfl, hnew⟩
        · exact Or.inl ⟨List.mem_cons_of_mem head hmem, hother⟩
        · exact Or.inr (Or.inl ⟨old, List.mem_cons_of_mem head hold, hsame⟩)
        · refine Or.inr (Or.inr ⟨rfl, ?_⟩)
          rw [List.map_cons, List.mem_cons, not_or]
          exact ⟨Ne.symm hne, hnew⟩

/-- One more barrier is joined. -/
theorem Joined.merge {used kept : List VirtualBarrier} (h : Joined used kept)
    (b : VirtualBarrier) : Joined (used ++ [b]) (VirtualBarrier.merge b kept) := by
  refine ⟨?_, ?_, ?_, ?_⟩
  · rw [consumers_merge]
    split
    · exact h.nodup
    · next hnew => exact List.nodup_append.2 ⟨h.nodup, List.nodup_singleton _, by simpa using hnew⟩
  · intro c hc
    rw [consumers_merge]
    rcases List.mem_append.1 hc with hc | hc
    · have hmem := h.complete c hc
      split
      · exact hmem
      · exact List.mem_append_left _ hmem
    · obtain rfl := List.mem_singleton.1 hc
      split
      · next hmem => exact hmem
      · exact List.mem_append_right _ (List.mem_singleton_self _)
  · intro k hk
    rcases mem_merge h.nodup hk with ⟨hmem, -⟩ | ⟨old, hold, -, rfl⟩ | ⟨rfl, -⟩
    · obtain ⟨c, hc, hsame⟩ := h.first k hmem
      exact ⟨c, List.mem_append_left _ hc, hsame⟩
    · obtain ⟨c, hc, hsame⟩ := h.first old hold
      exact ⟨c, List.mem_append_left _ hc, hsame⟩
    · exact ⟨k, List.mem_append_right _ (List.mem_singleton_self _), rfl, rfl⟩
  · intro k hk x
    simp only [List.mem_append, List.mem_singleton, or_and_right, exists_or, exists_eq_left]
    rcases mem_merge h.nodup hk with ⟨hmem, hother⟩ | ⟨old, hold, hsame, rfl⟩ | ⟨rfl, hnew⟩
    · rw [h.mem_producers k hmem x]
      simp [Ne.symm hother]
    · rw [IdSet.mem_union, h.mem_producers old hold x, or_comm]
      simp [hsame]
    · -- no barrier before had these consumers
      have hnone : ∀ c ∈ used, c.consumers ≠ k.consumers := fun c hc hsame =>
        hnew (hsame ▸ h.complete c hc)
      constructor
      · exact fun hx => Or.inr ⟨rfl, hx⟩
      · rintro (⟨c, hc, hsame, -⟩ | ⟨-, hx⟩)
        · exact absurd hsame (hnone c hc)
        · exact hx

/-- Joining barriers one after the other. -/
theorem joined_foldl_merge {used kept : List VirtualBarrier} (h : Joined used kept)
    (barriers : List VirtualBarrier) :
    Joined (used ++ barriers)
      (barriers.foldl (fun kept b => VirtualBarrier.merge b kept) kept) := by
  induction barriers generalizing used kept with
  | nil => rwa [List.append_nil]
  | cons b barriers ih =>
    rw [List.append_cons]
    exact ih (h.merge b)

end VirtualBarrier

/-! ## Wired barriers -/

namespace Wiring

open Timetable (startOf Orders)

variable {g : TaskGraph} {placements : List Placement}

/-- The consumers of a sealed barrier that are not superfluous. -/
def remaining (g : TaskGraph) (placements : List Placement) (c : VirtualBarrier) : List Nat :=
  VirtualBarrier.neededConsumers g ((sealAll g placements).flatMap (·.producers)) c.consumers

/-- The sealed barriers that somebody posts and somebody waits for. -/
def useful (g : TaskGraph) (placements : List Placement) : List VirtualBarrier :=
  (VirtualBarrier.dropConsumers g (sealAll g placements)).filter
    fun b => !b.producers.isEmpty && !b.consumers.isEmpty

theorem mem_useful {b : VirtualBarrier} : b ∈ useful g placements ↔
    (∃ c ∈ sealAll g placements, { c with consumers := remaining g placements c } = b) ∧
      b.TwoSided := by
  rw [useful, List.mem_filter, VirtualBarrier.dropConsumers, List.mem_map]
  simp only [remaining, VirtualBarrier.TwoSided, Bool.and_eq_true, Bool.not_eq_true',
    List.isEmpty_eq_false_iff]

/-- Wiring joins the useful barriers and numbers them. -/
theorem exists_joined (g : TaskGraph) (placements : List Placement) :
    ∃ kept, VirtualBarrier.Joined (useful g placements) kept ∧
      wire g placements = VirtualBarrier.renumber kept :=
  ⟨_, VirtualBarrier.joined_foldl_merge
    (⟨List.nodup_nil, by simp, by simp, by simp⟩ : VirtualBarrier.Joined [] []) _, rfl⟩

/-- A wired barrier has the hardware barrier and the consumers of a sealed one, and the
producers of all that have these consumers. -/
theorem mem_wire {k : VirtualBarrier} (hk : k ∈ wire g placements) :
    (∃ c ∈ sealAll g placements,
      c.physical = k.physical ∧ remaining g placements c = k.consumers) ∧
      ∀ x, x ∈ k.producers ↔
        ∃ c ∈ sealAll g placements, remaining g placements c = k.consumers ∧ x ∈ c.producers := by
  have hsides := VirtualBarrier.twoSided_dropBarriers hk
  obtain ⟨kept, hjoined, hwire⟩ := exists_joined g placements
  rw [hwire] at hk
  obtain ⟨⟨k₀, i⟩, hk₀, rfl⟩ := List.mem_map.1 hk
  have hkept := List.mem_of_getElem? (List.mem_zipIdx_iff_getElem?.1 hk₀)
  refine ⟨?_, fun x => (hjoined.mem_producers k₀ hkept x).trans ⟨?_, ?_⟩⟩
  · obtain ⟨b, hb, hphysical, hconsumers⟩ := hjoined.first k₀ hkept
    obtain ⟨⟨c, hc, rfl⟩, -⟩ := mem_useful.1 hb
    exact ⟨c, hc, hphysical, hconsumers⟩
  · rintro ⟨b, hb, hconsumers, hx⟩
    obtain ⟨⟨c, hc, rfl⟩, -⟩ := mem_useful.1 hb
    exact ⟨c, hc, hconsumers, hx⟩
  · rintro ⟨c, hc, hconsumers, hx⟩
    have hleft : remaining g placements c ≠ [] := hconsumers ▸ hsides.2
    exact ⟨_, mem_useful.2 ⟨⟨c, hc, rfl⟩, List.ne_nil_of_mem hx, hleft⟩, hconsumers, hx⟩

/-- No two wired barriers have the same consumers. -/
theorem nodup_consumers_wire (g : TaskGraph) (placements : List Placement) :
    ((wire g placements).map (·.consumers)).Nodup := by
  obtain ⟨kept, hjoined, hwire⟩ := exists_joined g placements
  have hconsumers : (VirtualBarrier.renumber kept).map (·.consumers) =
      kept.map (·.consumers) := by
    rw [VirtualBarrier.renumber, List.map_map]
    calc kept.zipIdx.map ((·.consumers) ∘ fun x => { x.1 with id := x.2 })
        = (kept.zipIdx.map Prod.fst).map (·.consumers) := by rw [List.map_map]; rfl
      _ = kept.map (·.consumers) := by rw [List.zipIdx_map_fst]
  rw [hwire, hconsumers]
  exact hjoined.nodup

/-! ## Uses of one hardware barrier have different consumers -/

section Orders

variable (hg : g.WellFormed) (h : Orders g placements)

include hg h

/-- Someone who still waits for a use runs no later than a use that it is fenced off from. -/
theorem exists_remaining_le {c d : VirtualBarrier} (hc : c ∈ sealAll g placements)
    (hfenced : Fenced (startOf placements) c d) :
    ∃ k ∈ remaining g placements c,
      ∀ q ∈ d.producers, startOf placements k ≤ startOf placements q := by
  obtain ⟨-, k, hk, hle⟩ := hfenced
  have hconsumers := (sealed_sealAll hg h).1.consumers_mem c hc
  obtain ⟨k', hk', hlead⟩ := VirtualBarrier.exists_neededConsumer hg
    (fun u v huv => h.startOf_lt_of_before hg huv) hconsumers hk (Or.inl rfl)
  refine ⟨k', hk', fun q hq => Nat.le_trans ?_ (hle q hq)⟩
  rcases hlead with rfl | ⟨-, hbefore⟩
  · exact Nat.le_refl _
  · exact Nat.le_of_lt (h.startOf_lt_of_before hg hbefore)

theorem remaining_ne_of_fenced {c d : VirtualBarrier} (hc : c ∈ sealAll g placements)
    (hd : d ∈ sealAll g placements) (hfenced : Fenced (startOf placements) c d) :
    remaining g placements c ≠ remaining g placements d := by
  intro hsame
  obtain ⟨hsealed, -⟩ := sealed_sealAll hg h
  obtain ⟨k, hk, hle⟩ := exists_remaining_le hg h hc hfenced
  obtain ⟨time, hstand⟩ := (@turns_sealAll g placements h.nodup d.physical).stand d
    (mem_usesOf.2 ⟨hd, rfl⟩)
  obtain ⟨q, hq⟩ := List.exists_mem_of_ne_nil _ hstand.ne_nil
  rw [hsame] at hk
  have hconsumer := ((VirtualBarrier.mem_neededConsumers hg (hsealed.consumers_mem d hd)).1 hk).1
  exact Nat.not_lt.2 (hle q hq) (hsealed.later d hd q hq k hconsumer)

/-- Two uses of a hardware barrier have different consumers. -/
theorem eq_of_remaining_eq {c d : VirtualBarrier} (hc : c ∈ sealAll g placements)
    (hd : d ∈ sealAll g placements) (hphysical : c.physical = d.physical)
    (hsame : remaining g placements c = remaining g placements d) : c = d := by
  by_contra hne
  rcases fenced_or_fenced h.nodup hc hd hne hphysical with hfenced | hfenced
  · exact remaining_ne_of_fenced hg h hc hd hfenced hsame
  · exact remaining_ne_of_fenced hg h hd hc hfenced hsame.symm

end Orders

end Wiring

/-! ## The uses that a barrier unites -/

namespace Timetable

/-- A time step in which a hardware barrier is posted. -/
@[ext]
structure Use where
  physical : BarrierId
  time : Nat
deriving DecidableEq, Repr

/-- The task posts the hardware barrier in this time step. -/
def Use.Has (u : Use) (p : Placement) : Prop :=
  p.barrier = some u.physical ∧ p.time = u.time

instance (u : Use) (p : Placement) : Decidable (u.Has p) :=
  inferInstanceAs (Decidable (_ ∧ _))

/-- The slots that are taken by some tasks together. -/
def slotsOf (placements : List Placement) (tasks : List Nat) : Nat :=
  Word.total ((placements.filter (tasks.contains ·.task)).map (·.slots))

/-- The slots that are taken in a use. -/
def Use.slots (placements : List Placement) (u : Use) : Nat :=
  Word.total ((placements.filter (u.Has ·)).map (·.slots))

end Timetable

open Timetable (Use startOf slotsOf Orders)

/-- The producers of a barrier are the tasks of some uses, one of them of its own hardware
barrier and the others of other ones. -/
structure VirtualBarrier.Unites (placements : List Placement) (b : VirtualBarrier)
    (uses : List Use) : Prop where
  nodup : uses.Nodup
  inhabited : ∀ u ∈ uses, ∃ p ∈ placements, u.Has p
  placed : ∀ x ∈ b.producers, ∃ p ∈ placements, p.task = x
  mem_producers : ∀ p ∈ placements, p.task ∈ b.producers ↔ ∃ u ∈ uses, u.Has p
  own : ∃ time, ⟨b.physical, time⟩ ∈ uses ∧ ∀ u ∈ uses, u.physical = b.physical → u.time = time

/-- The slots of the uses add up. -/
theorem VirtualBarrier.Unites.slotsOf_eq {placements : List Placement} {b : VirtualBarrier}
    {uses : List Use} (h : b.Unites placements uses) :
    slotsOf placements b.producers = Word.total (uses.map (Use.slots placements)) := by
  have hfilter : placements.filter (b.producers.contains ·.task) =
      placements.filter fun p => uses.any fun u => decide (u.Has p) := by
    refine List.filter_congr fun p hp => ?_
    rw [List.contains_eq_mem, Bool.eq_iff_iff, decide_eq_true_eq, List.any_eq_true,
      h.mem_producers p hp]
    simp
  rw [slotsOf, hfilter]
  have hnodup := h.nodup
  clear h hfilter
  induction uses with
  | nil => simp
  | cons u uses ih =>
    obtain ⟨hu, hnodup⟩ := List.nodup_cons.1 hnodup
    simp only [List.any_cons]
    rw [Word.total_filter_or, ih hnodup]
    · rfl
    · -- a task is in one use only
      intro p hp hhas
      rw [List.any_eq_false]
      intro v hv hhas'
      have hhas := of_decide_eq_true hhas
      have hhas' := of_decide_eq_true hhas'
      refine hu ?_
      have hsame : u = v :=
        Use.ext (Option.some.inj (hhas.1.symm.trans hhas'.1)) (hhas.2.symm.trans hhas'.2)
      rwa [hsame]

namespace Wiring

variable {g : TaskGraph} {placements : List Placement}

/-- The use of a sealed barrier. -/
def useOf (placements : List Placement) (c : VirtualBarrier) : Use :=
  ⟨c.physical, startOf placements (c.producers.headD 0)⟩

section Orders

variable (hg : g.WellFormed) (h : Orders g placements)

include h in
/-- The producers of a sealed barrier stand on its hardware barrier in the step of its use. -/
theorem stand_useOf {c : VirtualBarrier} (hc : c ∈ sealAll g placements) :
    Stand (siteOf placements) (startOf placements) c.physical (useOf placements c).time
      c.producers := by
  obtain ⟨time, hstand⟩ := (@turns_sealAll g placements h.nodup c.physical).stand c
    (mem_usesOf.2 ⟨hc, rfl⟩)
  have htime : (useOf placements c).time = time := by
    cases hproducers : c.producers with
    | nil => exact absurd hproducers hstand.ne_nil
    | cons y rest =>
      rw [useOf, hproducers]
      exact hstand.at_time y (by rw [hproducers]; exact List.mem_cons_self)
  rwa [htime]

include h in
/-- Two sealed barriers are of different uses. -/
theorem eq_of_useOf_eq {c d : VirtualBarrier} (hc : c ∈ sealAll g placements)
    (hd : d ∈ sealAll g placements) (hsame : useOf placements c = useOf placements d) : c = d := by
  by_contra hne
  have hphysical : c.physical = d.physical := congrArg Use.physical hsame
  have htime : (useOf placements c).time = (useOf placements d).time := congrArg Use.time hsame
  have hstand := stand_useOf h hc
  have hstand' := stand_useOf h hd
  obtain ⟨p, hp⟩ := List.exists_mem_of_ne_nil _ hstand.ne_nil
  obtain ⟨q, hq⟩ := List.exists_mem_of_ne_nil _ hstand'.ne_nil
  have htimep := hstand.at_time p hp
  have htimeq := hstand'.at_time q hq
  rcases fenced_or_fenced h.nodup hc hd hne hphysical with hfenced | hfenced
  · have hlt := hfenced.1 p hp q hq
    omega
  · have hlt := hfenced.1 q hq p hp
    omega

include hg h

/-- The producers of a sealed barrier are all tasks of its use. -/
theorem mem_producers_iff {c : VirtualBarrier} (hc : c ∈ sealAll g placements) {p : Placement}
    (hp : p ∈ placements) : p.task ∈ c.producers ↔ (useOf placements c).Has p := by
  have hstand := stand_useOf h hc
  constructor
  · intro hmem
    refine ⟨?_, ?_⟩
    · rw [← siteOf_of_mem h.nodup hp]
      exact hstand.at_site p.task hmem
    · rw [← Timetable.startOf_of_mem h.nodup hp]
      exact hstand.at_time p.task hmem
  · rintro ⟨hbarrier, htime⟩
    -- the task is a producer of some barrier, which has the same use
    obtain ⟨d, hd, hmem⟩ := (sealed_sealAll hg h).2 p.task
      (Timetable.mem_posting.2 ⟨p, hp, by simp [hbarrier], rfl⟩)
    have hstand' := stand_useOf h hd
    have hsite := hstand'.at_site p.task hmem
    have hstep := hstand'.at_time p.task hmem
    rw [siteOf_of_mem h.nodup hp, hbarrier] at hsite
    rw [Timetable.startOf_of_mem h.nodup hp, htime] at hstep
    have hsame : useOf placements c = useOf placements d :=
      Use.ext (Option.some.inj hsite) hstep
    rwa [eq_of_useOf_eq h hc hd hsame]

/-- A wired barrier unites one use of its hardware barrier with uses of others. -/
theorem unites_wire {b : VirtualBarrier} (hb : b ∈ wire g placements) :
    ∃ uses, b.Unites placements uses := by
  obtain ⟨⟨first, hfirst, hphysical, hconsumers⟩, hproducers⟩ := mem_wire hb
  obtain ⟨hsealed, -⟩ := sealed_sealAll hg h
  have hmem : ∀ u, u ∈ ((sealAll g placements).filter
      fun c => remaining g placements c = b.consumers).map (useOf placements) ↔
        ∃ c ∈ sealAll g placements, remaining g placements c = b.consumers ∧
          useOf placements c = u := by
    intro u
    simp [and_assoc]
  have hnodup : (sealAll g placements).Nodup := by
    refine List.pairwise_iff_getElem.2 fun i j hi hj hij heq => ?_
    have hidi := hsealed.id_eq i _ (List.getElem?_eq_getElem hi)
    have hidj := hsealed.id_eq j _ (List.getElem?_eq_getElem hj)
    rw [heq] at hidi
    omega
  refine ⟨((sealAll g placements).filter
    fun c => remaining g placements c = b.consumers).map (useOf placements), ?_, ?_, ?_, ?_, ?_⟩
  · refine (hnodup.filter _).map_on fun c hc d hd hsame => ?_
    exact eq_of_useOf_eq h (List.mem_filter.1 hc).1 (List.mem_filter.1 hd).1 hsame
  · intro u hu
    obtain ⟨c, hc, -, rfl⟩ := (hmem u).1 hu
    obtain ⟨x, hx⟩ := List.exists_mem_of_ne_nil _ (stand_useOf h hc).ne_nil
    obtain ⟨p, hp, rfl⟩ := h.exists_placement (h.posting_mem (hsealed.producers_mem c hc x hx))
    exact ⟨p, hp, (mem_producers_iff hg h hc hp).1 hx⟩
  · intro x hx
    obtain ⟨c, hc, -, hx⟩ := (hproducers x).1 hx
    exact h.exists_placement (h.posting_mem (hsealed.producers_mem c hc x hx))
  · intro p hp
    rw [hproducers]
    constructor
    · rintro ⟨c, hc, hsame, hx⟩
      exact ⟨_, (hmem _).2 ⟨c, hc, hsame, rfl⟩, (mem_producers_iff hg h hc hp).1 hx⟩
    · rintro ⟨u, hu, hhas⟩
      obtain ⟨c, hc, hsame, rfl⟩ := (hmem u).1 hu
      exact ⟨c, hc, hsame, (mem_producers_iff hg h hc hp).2 hhas⟩
  · refine ⟨(useOf placements first).time, (hmem _).2 ⟨first, hfirst, hconsumers, ?_⟩, ?_⟩
    · rw [← hphysical]
      rfl
    · intro u hu hown
      obtain ⟨c, hc, hsame, rfl⟩ := (hmem u).1 hu
      rw [eq_of_remaining_eq hg h hc hfirst (hown.trans hphysical.symm)
        (hsame.trans hconsumers.symm)]

end Orders

end Wiring

/-! ## Own and borrowed producers -/

namespace VirtualBarrier

open Wiring (siteOf)

/-- The producers that stand on the hardware barrier of the barrier. -/
def own (placements : List Placement) (b : VirtualBarrier) : List Nat :=
  b.producers.filter (siteOf placements · == some b.physical)

/-- The producers that stand on another hardware barrier. -/
def borrowed (placements : List Placement) (b : VirtualBarrier) : List Nat :=
  b.producers.filter (siteOf placements · != some b.physical)

/-- All of the first tasks run before all of the second. -/
def RunBefore (placements : List Placement) (tasks tasks' : List Nat) : Prop :=
  ∀ p ∈ tasks, ∀ q ∈ tasks', startOf placements p < startOf placements q

instance (placements : List Placement) (tasks tasks' : List Nat) :
    Decidable (RunBefore placements tasks tasks') :=
  inferInstanceAs (Decidable (∀ p ∈ tasks, ∀ q ∈ tasks', _))

variable {placements : List Placement} {b : VirtualBarrier}

theorem mem_own {x : Nat} :
    x ∈ b.own placements ↔ x ∈ b.producers ∧ siteOf placements x = some b.physical := by
  simp [own]

/-- Every producer is own or borrowed. -/
theorem runBefore_producers_iff {tasks : List Nat} :
    RunBefore placements tasks b.producers ↔
      RunBefore placements tasks (b.own placements) ∧
        RunBefore placements tasks (b.borrowed placements) := by
  constructor
  · intro h
    exact ⟨fun p hp q hq => h p hp q (List.mem_filter.1 hq).1,
      fun p hp q hq => h p hp q (List.mem_filter.1 hq).1⟩
  · rintro ⟨hown, hborrowed⟩ p hp q hq
    by_cases hsite : siteOf placements q = some b.physical
    · exact hown p hp q (mem_own.2 ⟨hq, hsite⟩)
    · exact hborrowed p hp q (List.mem_filter.2 ⟨hq, by simpa using hsite⟩)

theorem own_eq_producers (h : b.borrowed placements = []) : b.own placements = b.producers := by
  refine List.filter_eq_self.2 fun x hx => ?_
  simpa using List.filter_eq_nil_iff.1 h x hx

/-- The own producers share a time step. -/
theorem Unites.own_step {uses : List Use} (h : b.Unites placements uses)
    (hnodup : (placements.map (·.task)).Nodup) :
    ∃ time, b.own placements ≠ [] ∧ ∀ x ∈ b.own placements, startOf placements x = time := by
  obtain ⟨time, hmem, honly⟩ := h.own
  obtain ⟨p, hp, hhas⟩ := h.inhabited _ hmem
  have hsite : ∀ q ∈ placements, siteOf placements q.task = q.barrier :=
    fun q hq => Wiring.siteOf_of_mem hnodup hq
  refine ⟨time, List.ne_nil_of_mem (mem_own.2 ⟨(h.mem_producers p hp).2 ⟨_, hmem, hhas⟩, ?_⟩), ?_⟩
  · rw [hsite p hp]
    exact hhas.1
  · intro x hx
    obtain ⟨hx, hown⟩ := mem_own.1 hx
    obtain ⟨q, hq, rfl⟩ := h.placed x hx
    obtain ⟨u, hu, hhas'⟩ := (h.mem_producers q hq).1 hx
    rw [hsite q hq, hhas'.1] at hown
    rw [Timetable.startOf_of_mem hnodup hq, hhas'.2]
    exact honly u hu (Option.some.inj hown)

/-- The own producers take the slots of the own use. -/
theorem Unites.slotsOf_own {uses : List Use} (h : b.Unites placements uses)
    (hnodup : (placements.map (·.task)).Nodup) :
    ∃ u ∈ uses, slotsOf placements (b.own placements) = u.slots placements := by
  obtain ⟨time, hmem, honly⟩ := h.own
  have hfilter : placements.filter ((b.own placements).contains ·.task) =
      placements.filter fun p => decide (Use.Has ⟨b.physical, time⟩ p) := by
    refine List.filter_congr fun p hp => ?_
    rw [List.contains_eq_mem]
    refine decide_eq_decide.2 ?_
    rw [mem_own, h.mem_producers p hp, Wiring.siteOf_of_mem hnodup hp]
    constructor
    · rintro ⟨⟨u, hu, hhas⟩, hsite⟩
      exact ⟨hsite, hhas.2.trans (honly u hu (Option.some.inj (hhas.1.symm.trans hsite)))⟩
    · exact fun hhas => ⟨⟨_, hmem, hhas⟩, hhas.1⟩
  exact ⟨_, hmem, by rw [slotsOf, hfilter, Use.slots]⟩

/-- Two barriers take turns exactly if the borrowed producers of the one whose own
producers run later run after the other. -/
theorem takeTurns_iff {c : VirtualBarrier} (hb : b.own placements ≠ [])
    (hc : c.own placements ≠ [])
    (h : RunBefore placements b.producers (c.own placements) ∨
      RunBefore placements c.producers (b.own placements)) :
    (RunBefore placements b.producers c.producers ∨
        RunBefore placements c.producers b.producers) ↔
      (RunBefore placements b.producers (c.own placements) →
          RunBefore placements b.producers (c.borrowed placements)) ∧
        (RunBefore placements c.producers (b.own placements) →
          RunBefore placements c.producers (b.borrowed placements)) := by
  obtain ⟨p, hp⟩ := List.exists_mem_of_ne_nil _ hb
  obtain ⟨q, hq⟩ := List.exists_mem_of_ne_nil _ hc
  have hp' := (List.mem_filter.1 hp).1
  have hq' := (List.mem_filter.1 hq).1
  -- own producers exist, so the turns are not taken both ways
  have hexclusive : RunBefore placements b.producers (c.own placements) →
      ¬ RunBefore placements c.producers (b.own placements) := fun hbc hcb =>
    Nat.lt_asymm (hbc p hp' q hq) (hcb q hq' p hp)
  rw [runBefore_producers_iff, runBefore_producers_iff]
  tauto

end VirtualBarrier

namespace Wiring

variable {g : TaskGraph} {placements : List Placement}

section Orders

variable (hg : g.WellFormed) (h : Orders g placements)

include hg h

/-- The own producers of a wired barrier are those of its first use. -/
theorem mem_producers_of_mem_own {b first : VirtualBarrier} (hb : b ∈ wire g placements)
    (hfirst : first ∈ sealAll g placements) (hphysical : first.physical = b.physical)
    (hconsumers : remaining g placements first = b.consumers) {x : Nat}
    (hx : x ∈ b.own placements) : x ∈ first.producers := by
  obtain ⟨hx, hsite⟩ := VirtualBarrier.mem_own.1 hx
  obtain ⟨c, hc, hsame, hx⟩ := ((mem_wire hb).2 x).1 hx
  rw [(stand_useOf h hc).at_site x hx] at hsite
  have hown : c.physical = first.physical := (Option.some.inj hsite).trans hphysical.symm
  rwa [← eq_of_remaining_eq hg h hc hfirst hown (hsame.trans hconsumers.symm)]

/-- All producers of a barrier run before the own producers of another one whose first use
it is fenced off from. -/
theorem runBefore_own_of_fenced {b c first next : VirtualBarrier} (hb : b ∈ wire g placements)
    (hc : c ∈ wire g placements) (hfirst : first ∈ sealAll g placements)
    (hconsumers : remaining g placements first = b.consumers)
    (hnext : next ∈ sealAll g placements) (hphysical : next.physical = c.physical)
    (hconsumers' : remaining g placements next = c.consumers)
    (hfenced : Fenced (startOf placements) first next) :
    VirtualBarrier.RunBefore placements b.producers (c.own placements) := by
  intro p hp q hq
  obtain ⟨k, hk, hle⟩ := exists_remaining_le hg h hfirst hfenced
  have hlt := ((enforced_wire hg h).times p k ⟨b, hb, hp, hconsumers ▸ hk⟩).2.2
  have hq' := mem_producers_of_mem_own hg h hc hnext hphysical hconsumers' hq
  exact Nat.lt_of_lt_of_le hlt (hle q hq')

/-- Of two wired barriers on one hardware barrier, all producers of one run before the own
producers of the other. -/
theorem runBefore_own_or {b c : VirtualBarrier} (hb : b ∈ wire g placements)
    (hc : c ∈ wire g placements) (hne : b ≠ c) (hphysical : b.physical = c.physical) :
    VirtualBarrier.RunBefore placements b.producers (c.own placements) ∨
      VirtualBarrier.RunBefore placements c.producers (b.own placements) := by
  obtain ⟨⟨first, hfirst, hphysical₁, hconsumers₁⟩, -⟩ := mem_wire hb
  obtain ⟨⟨next, hnext, hphysical₂, hconsumers₂⟩, -⟩ := mem_wire hc
  have hdistinct : first ≠ next := by
    rintro rfl
    exact hne (List.inj_on_of_nodup_map (nodup_consumers_wire g placements) hb hc
      (hconsumers₁.symm.trans hconsumers₂))
  rcases fenced_or_fenced h.nodup hfirst hnext hdistinct
    (hphysical₁.trans (hphysical.trans hphysical₂.symm)) with hfenced | hfenced
  · exact Or.inl (runBefore_own_of_fenced hg h hb hc hfirst hconsumers₁ hnext hphysical₂
      hconsumers₂ hfenced)
  · exact Or.inr (runBefore_own_of_fenced hg h hc hb hnext hconsumers₂ hfirst hphysical₁
      hconsumers₁ hfenced)

end Orders

end Wiring

end TaskLoom
