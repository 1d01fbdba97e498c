import Mathlib.Data.List.Chain
import TaskLoom.Proofs.Barrier.Sealing

/-!
# The uses of a hardware barrier

Before any clean-up, the barriers on one hardware barrier are used in turn.  The producers
of each share a time step and stand on the hardware barrier, those of the next one run
later, and they wait for it.

Gatherings are looked at one hardware barrier at a time: taking a producer changes the
gathering of its own hardware barrier and no other.  What was sealed on a hardware
barrier is a chain, and its gathering names the last link.

## Main results

* `gather_spec_current` — what taking a producer does to each gathering.
* `Turns.seals` — sealing a gathering adds a link to the chain.
* `turns_sealAll` — the barriers of a timetable are used in turn.
* `fenced_or_fenced` — of two barriers on a hardware barrier, one is done before the other
  starts, and someone in between waits for it.
-/

namespace TaskLoom.Wiring

variable {g : TaskGraph} {posting : List Nat} {start : Nat → Nat} {site : Nat → Option BarrierId}

/-! ## Gatherings -/

/-- The gathering of a hardware barrier. -/
def current (gatherings : List Gathering) (h : BarrierId) : Option Gathering :=
  gatherings.find? (·.physical == h)

theorem current_cons (u : Gathering) (gatherings : List Gathering) (h : BarrierId) :
    current (u :: gatherings) h = if u.physical = h then some u else current gatherings h := by
  unfold current
  by_cases heq : u.physical = h <;> simp [heq]

theorem physical_of_current {gatherings : List Gathering} {h : BarrierId} {u : Gathering}
    (hu : current gatherings h = some u) : u.physical = h := by
  simpa using List.find?_some hu

/-- The gatherings stand in the order of their hardware barriers. -/
def Ascending (gatherings : List Gathering) : Prop :=
  gatherings.Pairwise (·.physical.number < ·.physical.number)

theorem current_eq_none_of_lt {gatherings : List Gathering} {h : BarrierId}
    (hlt : ∀ u ∈ gatherings, h.number < u.physical.number) : current gatherings h = none := by
  refine List.find?_eq_none.2 fun u hu heq => ?_
  have hnumber := hlt u hu
  rw [beq_iff_eq.1 heq] at hnumber
  exact Nat.lt_irrefl _ hnumber

/-- The gathering of a hardware barrier after it takes a producer, and the barriers then. -/
def takeUp (g : TaskGraph) (posting : List Nat) (physical : BarrierId) (time task : Nat)
    (barriers : List VirtualBarrier) : Option Gathering → Gathering × List VirtualBarrier
  | none => (⟨physical, time, none, [task]⟩, barriers)
  | some u =>
    if u.time = time then ({ u with producers := task :: u.producers }, barriers)
    else (⟨physical, time, some (sealNext g posting barriers u).2, [task]⟩,
      (sealNext g posting barriers u).1)

theorem physical_of_mem_gather {physical : BarrierId} {time task : Nat}
    {barriers : List VirtualBarrier} {gatherings : List Gathering} {v : Gathering}
    (hv : v ∈ (gather g posting physical time task barriers gatherings).1) :
    v.physical = physical ∨ ∃ u ∈ gatherings, u.physical = v.physical := by
  induction gatherings with
  | nil =>
    obtain rfl := List.mem_singleton.1 hv
    exact Or.inl rfl
  | cons u rest ih =>
    unfold gather at hv
    split at hv
    · rcases List.mem_cons.1 hv with rfl | hv
      · exact Or.inl rfl
      · exact Or.inr ⟨v, hv, rfl⟩
    · split at hv
      · next heq =>
        -- the head is replaced, by a gathering for the same hardware barrier
        have hhead : v.physical = physical ∨ v ∈ rest := by
          split at hv
          · refine (List.mem_cons.1 hv).imp_left ?_
            rintro rfl
            exact heq
          · refine (List.mem_cons.1 hv).imp_left ?_
            rintro rfl
            rfl
        exact hhead.imp_right fun hv => ⟨v, List.mem_cons_of_mem u hv, rfl⟩
      · rcases List.mem_cons.1 hv with rfl | hv
        · exact Or.inr ⟨v, List.mem_cons_self, rfl⟩
        · refine (ih hv).imp_right ?_
          rintro ⟨w, hw, heq⟩
          exact ⟨w, List.mem_cons_of_mem u hw, heq⟩

/-- Taking a producer changes the gathering of its hardware barrier and no other. -/
theorem gather_spec_current {physical : BarrierId} {time task : Nat}
    {barriers : List VirtualBarrier} {gatherings : List Gathering} (h : Ascending gatherings) :
    Ascending (gather g posting physical time task barriers gatherings).1 ∧
      (∀ q, current (gather g posting physical time task barriers gatherings).1 q =
        if physical = q then
          some (takeUp g posting physical time task barriers (current gatherings physical)).1
        else current gatherings q) ∧
      (gather g posting physical time task barriers gatherings).2 =
        (takeUp g posting physical time task barriers (current gatherings physical)).2 := by
  induction gatherings with
  | nil => exact ⟨List.pairwise_singleton _ _, fun q => current_cons _ _ q, rfl⟩
  | cons u rest ih =>
    obtain ⟨hu, hrest⟩ := List.pairwise_cons.1 h
    by_cases hlt : physical.number < u.physical.number
    · -- the hardware barrier comes before all that are in use
      have hall : ∀ v ∈ u :: rest, physical.number < v.physical.number :=
        List.forall_mem_cons.2 ⟨hlt, fun v hv => Nat.lt_trans hlt (hu v hv)⟩
      have hnone := current_eq_none_of_lt hall
      have hgather : gather g posting physical time task barriers (u :: rest) =
          (⟨physical, time, none, [task]⟩ :: u :: rest, barriers) := by
        rw [gather, if_pos hlt]
      rw [hgather, hnone]
      exact ⟨List.pairwise_cons.2 ⟨hall, h⟩, fun q => current_cons _ _ q, rfl⟩
    · by_cases heq : u.physical = physical
      · subst heq
        have hcurrent : current (u :: rest) u.physical = some u := by
          rw [current_cons, if_pos rfl]
        rw [gather, if_neg hlt, if_pos rfl, hcurrent, takeUp]
        by_cases htime : u.time = time
        · rw [if_pos htime, if_pos htime]
          refine ⟨List.pairwise_cons.2 ⟨hu, hrest⟩, fun q => ?_, rfl⟩
          rw [current_cons, current_cons]
          split <;> rfl
        · rw [if_neg htime, if_neg htime]
          refine ⟨List.pairwise_cons.2 ⟨hu, hrest⟩, fun q => ?_, rfl⟩
          rw [current_cons, current_cons]
          split <;> rfl
      · obtain ⟨hascending, hcurrent, hbarriers⟩ := ih hrest
        have hbefore : u.physical.number < physical.number := by
          have hne : u.physical.number ≠ physical.number := fun hnumber => heq (by
            cases hup : u.physical
            cases physical
            simpa [hup] using hnumber)
          omega
        have hcurrent' : current (u :: rest) physical = current rest physical := by
          rw [current_cons, if_neg heq]
        rw [gather, if_neg hlt, if_neg heq, hcurrent']
        refine ⟨List.pairwise_cons.2 ⟨fun v hv => ?_, hascending⟩, fun q => ?_, hbarriers⟩
        · rcases physical_of_mem_gather hv with hphysical | ⟨w, hw, hphysical⟩
          · rwa [hphysical]
          · rw [← hphysical]
            exact hu w hw
        · rw [current_cons, current_cons, hcurrent q]
          by_cases hq : u.physical = q
          · rw [if_pos hq, if_pos hq, if_neg fun hp => heq (hq.trans hp.symm)]
          · rw [if_neg hq, if_neg hq]

/-! ## Barriers on one hardware barrier -/

/-- The barriers on a hardware barrier, in the order in which they were sealed. -/
def usesOf (barriers : List VirtualBarrier) (h : BarrierId) : List VirtualBarrier :=
  barriers.filter (·.physical == h)

theorem mem_usesOf {barriers : List VirtualBarrier} {h : BarrierId} {b : VirtualBarrier} :
    b ∈ usesOf barriers h ↔ b ∈ barriers ∧ b.physical = h := by
  simp [usesOf]

theorem usesOf_addConsumers (barriers : List VirtualBarrier) (id : Nat) (tasks : List Nat)
    (h : BarrierId) :
    usesOf (addConsumers barriers id tasks) h = addConsumers (usesOf barriers h) id tasks := by
  unfold usesOf addConsumers
  rw [List.filter_map]
  refine congrArg _ (List.filter_congr fun b _ => ?_)
  simp only [Function.comp_apply]
  split <;> rfl

/-- Adds the producers of a gathering to the consumers of the former use. -/
def fence (u : Gathering) (barriers : List VirtualBarrier) : List VirtualBarrier :=
  match u.former with
  | some former => addConsumers barriers former (IdSet.ofList u.producers)
  | none => barriers

theorem usesOf_fence (u : Gathering) (barriers : List VirtualBarrier) (h : BarrierId) :
    usesOf (fence u barriers) h = fence u (usesOf barriers h) := by
  unfold fence
  split
  · exact usesOf_addConsumers _ _ _ h
  · rfl

/-- The barrier of a sealed gathering. -/
def sealedBarrier (g : TaskGraph) (posting : List Nat) (id : Nat) (u : Gathering) :
    VirtualBarrier :=
  ⟨id, u.physical, IdSet.ofList u.producers,
    IdSet.ofList ((IdSet.ofList u.producers).flatMap (waiters g posting))⟩

theorem sealNext_fst (barriers : List VirtualBarrier) (u : Gathering) :
    (sealNext g posting barriers u).1 =
      fence u barriers ++ [sealedBarrier g posting barriers.length u] :=
  rfl

theorem usesOf_sealNext (barriers : List VirtualBarrier) (u : Gathering) (h : BarrierId) :
    usesOf (sealNext g posting barriers u).1 h = fence u (usesOf barriers h) ++
      if u.physical = h then [sealedBarrier g posting barriers.length u] else [] := by
  rw [sealNext_fst, usesOf, List.filter_append, ← usesOf, usesOf_fence]
  by_cases heq : u.physical = h <;> simp [sealedBarrier, heq]

/-! ## Turns -/

/-- A use is over before the next one starts, whose producers wait for it. -/
def Fences (start : Nat → Nat) (b c : VirtualBarrier) : Prop :=
  (∀ p ∈ b.producers, ∀ q ∈ c.producers, start p < start q) ∧
    ∀ q ∈ c.producers, q ∈ b.consumers

/-- Tasks that stand on a hardware barrier in one time step. -/
structure Stand (site : Nat → Option BarrierId) (start : Nat → Nat) (h : BarrierId) (time : Nat)
    (tasks : List Nat) : Prop where
  ne_nil : tasks ≠ []
  at_site : ∀ x ∈ tasks, site x = some h
  at_time : ∀ x ∈ tasks, start x = time

theorem Stand.of_mem_iff {h : BarrierId} {time : Nat} {tasks tasks' : List Nat}
    (hstand : Stand site start h time tasks) (hiff : ∀ x, x ∈ tasks' ↔ x ∈ tasks) :
    Stand site start h time tasks' := by
  obtain ⟨x, hx⟩ := List.exists_mem_of_ne_nil _ hstand.ne_nil
  exact ⟨List.ne_nil_of_mem ((hiff x).2 hx), fun y hy => hstand.at_site y ((hiff y).1 hy),
    fun y hy => hstand.at_time y ((hiff y).1 hy)⟩

/-- What holds for the gathering of a hardware barrier. -/
structure Continues (site : Nat → Option BarrierId) (start : Nat → Nat) (h : BarrierId)
    (uses : List VirtualBarrier) (u : Gathering) : Prop where
  stand : Stand site start h u.time u.producers
  former_eq : u.former = uses.getLast?.map (·.id)
  later : ∀ b ∈ uses, ∀ p ∈ b.producers, start p < u.time

/-- A hardware barrier is used in turn, and its gathering goes on from there. -/
structure Turns (site : Nat → Option BarrierId) (start : Nat → Nat) (h : BarrierId)
    (uses : List VirtualBarrier) (now : Option Gathering) : Prop where
  stand : ∀ b ∈ uses, ∃ time, Stand site start h time b.producers
  chain : uses.IsChain (Fences start)
  continues : ∀ u, now = some u → Continues site start h uses u

theorem turns_nil (site : Nat → Option BarrierId) (start : Nat → Nat) (h : BarrierId) :
    Turns site start h [] none :=
  ⟨by simp, .nil, by simp⟩

section Turns

variable {h : BarrierId} {uses : List VirtualBarrier} {now : Option Gathering} {u : Gathering}

/-- A gathering that starts anew. -/
theorem Turns.begins (hturns : Turns site start h uses none) {time : Nat} {former : Option Nat}
    {tasks : List Nat} (hstand : Stand site start h time tasks)
    (hformer : former = uses.getLast?.map (·.id))
    (hlater : ∀ b ∈ uses, ∀ p ∈ b.producers, start p < time) :
    Turns site start h uses (some ⟨h, time, former, tasks⟩) :=
  ⟨hturns.stand, hturns.chain, fun _ hu => Option.some.inj hu ▸ ⟨hstand, hformer, hlater⟩⟩

/-- A producer joins the gathering of its step. -/
theorem Turns.joins (hturns : Turns site start h uses (some u)) {task : Nat}
    (hsite : site task = some h) (htime : start task = u.time) :
    Turns site start h uses (some { u with producers := task :: u.producers }) := by
  have hu := hturns.continues u rfl
  refine ⟨hturns.stand, hturns.chain, fun _ heq => Option.some.inj heq ▸ ⟨⟨?_, ?_, ?_⟩,
    hu.former_eq, hu.later⟩⟩
  · exact List.cons_ne_nil _ _
  · exact List.forall_mem_cons.2 ⟨hsite, hu.stand.at_site⟩
  · exact List.forall_mem_cons.2 ⟨htime, hu.stand.at_time⟩

/-- More consumers do not disturb the turns. -/
theorem Turns.addConsumers (hturns : Turns site start h uses now) (id : Nat) (tasks : List Nat) :
    Turns site start h (addConsumers uses id tasks) now := by
  refine ⟨?_, ?_, ?_⟩
  · intro b' hb'
    obtain ⟨b, hb, -, hproducers, -⟩ := mem_addConsumers hb'
    rw [hproducers]
    exact hturns.stand b hb
  · refine (List.isChain_map _).2 (hturns.chain.imp fun b c hbc => ?_)
    refine ⟨fun p hp q hq => hbc.1 p ?_ q ?_, fun q hq => ?_⟩
    · split at hp <;> exact hp
    · split at hq <;> exact hq
    · have hq' : q ∈ b.consumers := hbc.2 q (by split at hq <;> exact hq)
      split
      · exact IdSet.mem_union.2 (Or.inr hq')
      · exact hq'
  · intro u hu
    have hcontinues := hturns.continues u hu
    refine ⟨hcontinues.stand, ?_, ?_⟩
    · rw [hcontinues.former_eq, Wiring.addConsumers, List.getLast?_map, Option.map_map]
      congr 1
      funext b
      simp only [Function.comp_apply]
      split <;> rfl
    · intro b' hb' p hp
      obtain ⟨b, hb, -, hproducers, -⟩ := mem_addConsumers hb'
      exact hcontinues.later b hb p (hproducers ▸ hp)

theorem Turns.fence (hturns : Turns site start h uses now) (u : Gathering) :
    Turns site start h (fence u uses) now := by
  unfold Wiring.fence
  split
  · exact hturns.addConsumers _ _
  · exact hturns

/-- The last use is fenced off by the producers of the gathering. -/
theorem Continues.fences_last (hu : Continues site start h uses u) {last : VirtualBarrier}
    (hlast : (fence u uses).getLast? = some last) (id : Nat) :
    Fences start last (sealedBarrier g posting id u) := by
  unfold Wiring.fence at hlast
  rw [hu.former_eq] at hlast
  cases hformer : uses.getLast? with
  | none =>
    rw [hformer] at hlast
    simp only [Option.map_none] at hlast
    rw [hformer] at hlast
    cases hlast
  | some former =>
    rw [hformer] at hlast
    simp only [Option.map_some, Wiring.addConsumers, List.getLast?_map, hformer, if_true,
      Option.some.injEq] at hlast
    subst hlast
    refine ⟨fun p hp q hq => ?_, fun q hq => IdSet.mem_union.2 (Or.inl hq)⟩
    rw [hu.stand.at_time q (IdSet.mem_ofList.1 hq)]
    exact hu.later former (List.mem_of_getLast? hformer) p hp

/-- Sealing the gathering of a hardware barrier adds a use to the chain. -/
theorem Turns.seals (hturns : Turns site start h uses (some u)) (id : Nat) :
    Turns site start h (Wiring.fence u uses ++ [sealedBarrier g posting id u]) none := by
  have hu := hturns.continues u rfl
  have hfenced := hturns.fence u
  refine ⟨?_, ?_, by simp⟩
  · intro b hb
    rcases List.mem_append.1 hb with hb | hb
    · exact hfenced.stand b hb
    · obtain rfl := List.mem_singleton.1 hb
      exact ⟨u.time, hu.stand.of_mem_iff fun _ => IdSet.mem_ofList⟩
  · refine hfenced.chain.append (List.isChain_singleton _) fun last hlast new hnew => ?_
    obtain rfl := Option.some.inj hnew
    exact hu.fences_last hlast id

end Turns

/-! ## All hardware barriers -/

/-- All hardware barriers are used in turn, and one without a gathering was not used. -/
structure InTurn (site : Nat → Option BarrierId) (start : Nat → Nat) (w : Wiring) : Prop where
  ascending : Ascending w.gatherings
  turns : ∀ h, Turns site start h (usesOf w.barriers h) (current w.gatherings h)
  unused : ∀ h, current w.gatherings h = none → usesOf w.barriers h = []

/-- Sealing a gathering leaves the turns of the other hardware barriers. -/
theorem Turns.sealNext_of_ne {h : BarrierId} {barriers : List VirtualBarrier} {u : Gathering}
    {now : Option Gathering} (hturns : Turns site start h (usesOf barriers h) now)
    (hne : u.physical ≠ h) :
    Turns site start h (usesOf (sealNext g posting barriers u).1 h) now := by
  rw [usesOf_sealNext, if_neg hne, List.append_nil]
  exact hturns.fence u

theorem Turns.sealNext_self {barriers : List VirtualBarrier} {u : Gathering}
    (hturns : Turns site start u.physical (usesOf barriers u.physical) (some u)) :
    Turns site start u.physical (usesOf (sealNext g posting barriers u).1 u.physical) none := by
  rw [usesOf_sealNext, if_pos rfl]
  exact hturns.seals barriers.length

section Take

variable {w : Wiring} {physical : BarrierId} {time task : Nat}

/-- The hardware barrier of a producer stays in turn: its gathering is new, of the same
step, or sealed. -/
theorem InTurn.takeUp_self (hw : InTurn site start w) (hsite : site task = some physical)
    (htime : start task = time)
    (hle : ∀ u, current w.gatherings physical = some u → u.time ≤ time) :
    Turns site start physical
      (usesOf (takeUp g posting physical time task w.barriers (current w.gatherings physical)).2
        physical)
      (some (takeUp g posting physical time task w.barriers (current w.gatherings physical)).1) ∧
    (takeUp g posting physical time task w.barriers (current w.gatherings physical)).1.time =
      time := by
  have hstand : Stand site start physical time [task] :=
    ⟨List.cons_ne_nil _ _, by simpa using hsite, by simpa using htime⟩
  have hturns := hw.turns physical
  cases hnow : current w.gatherings physical with
  | none =>
    have hnone := hw.unused physical hnow
    rw [hnow] at hturns
    rw [takeUp]
    exact ⟨hturns.begins hstand (by rw [hnone]; rfl) (by simp [hnone]), rfl⟩
  | some u =>
    rw [hnow] at hturns
    rw [takeUp]
    by_cases hstep : u.time = time
    · rw [if_pos hstep]
      exact ⟨hturns.joins hsite (htime.trans hstep.symm), hstep⟩
    · rw [if_neg hstep]
      have hlt : u.time < time := Nat.lt_of_le_of_ne (hle u hnow) hstep
      obtain rfl := physical_of_current hnow
      refine ⟨hturns.sealNext_self.begins hstand ?_ ?_, rfl⟩
      · rw [usesOf_sealNext, if_pos rfl, List.getLast?_append]
        rfl
      · intro b hb p hp
        rw [usesOf_sealNext, if_pos rfl] at hb
        rcases List.mem_append.1 hb with hb | hb
        · exact Nat.lt_trans (((hturns.fence u).continues u rfl).later b hb p hp) hlt
        · obtain rfl := List.mem_singleton.1 hb
          rw [(hturns.continues u rfl).stand.at_time p (IdSet.mem_ofList.1 hp)]
          exact hlt

/-- The other hardware barriers stay in turn. -/
theorem InTurn.takeUp_of_ne (hw : InTurn site start w) {h : BarrierId} (hne : physical ≠ h) :
    Turns site start h
      (usesOf (takeUp g posting physical time task w.barriers (current w.gatherings physical)).2 h)
      (current w.gatherings h) ∧
    (current w.gatherings h = none →
      usesOf (takeUp g posting physical time task w.barriers
        (current w.gatherings physical)).2 h = []) := by
  have hturns := hw.turns h
  cases hnow : current w.gatherings physical with
  | none => exact ⟨hturns, hw.unused h⟩
  | some u =>
    have hne' : u.physical ≠ h := physical_of_current hnow ▸ hne
    rw [takeUp]
    split
    · exact ⟨hturns, hw.unused h⟩
    · refine ⟨hturns.sealNext_of_ne hne', fun hnone => ?_⟩
      rw [usesOf_sealNext, if_neg hne', hw.unused h hnone, Wiring.fence]
      split <;> rfl

/-- Taking a producer keeps the hardware barriers in turn, if no gathering is for a later
time step. -/
theorem InTurn.takes (hw : InTurn site start w) (hsite : site task = some physical)
    (htime : start task = time)
    (hle : ∀ h u, current w.gatherings h = some u → u.time ≤ time)
    {gatherings : List Gathering} {barriers : List VirtualBarrier}
    (hgather : gather g posting physical time task w.barriers w.gatherings =
      (gatherings, barriers)) :
    InTurn site start ⟨gatherings, barriers⟩ ∧
      ∀ h u, current gatherings h = some u → u.time ≤ time := by
  obtain ⟨hascending, hcurrent, hbarriers⟩ :=
    @gather_spec_current g posting physical time task w.barriers w.gatherings hw.ascending
  obtain ⟨hown, hstep⟩ := @InTurn.takeUp_self g posting start site w physical time task hw hsite
    htime (hle physical)
  have hother := fun h => @InTurn.takeUp_of_ne g posting start site w physical time task hw h
  rw [hgather] at hascending hcurrent hbarriers
  simp only at hascending hcurrent hbarriers
  subst hbarriers
  refine ⟨⟨hascending, fun h => ?_, fun h hnone => ?_⟩, fun h u hu => ?_⟩
  · show Turns site start h _ (current gatherings h)
    rw [hcurrent h]
    split
    · next heq => exact heq ▸ hown
    · next hne => exact (hother h hne).1
  · have hnone' : current gatherings h = none := hnone
    rw [hcurrent h] at hnone'
    split at hnone'
    · cases hnone'
    · next hne => exact (hother h hne).2 hnone'
  · rw [hcurrent h] at hu
    split at hu
    · exact Nat.le_of_eq (Option.some.inj hu ▸ hstep)
    · exact hle h u hu

end Take

/-- Taking placements in order of time keeps the hardware barriers in turn. -/
theorem InTurn.foldl_take (placements : List Placement)
    (hsite : ∀ p ∈ placements, site p.task = p.barrier)
    (htime : ∀ p ∈ placements, start p.task = p.time)
    (hsorted : placements.Pairwise (fun p q => p.time ≤ q.time)) {w : Wiring}
    (hw : InTurn site start w)
    (hle : ∀ h u, current w.gatherings h = some u → ∀ p ∈ placements, u.time ≤ p.time) :
    InTurn site start (placements.foldl (take g posting) w) := by
  induction placements generalizing w with
  | nil => exact hw
  | cons p placements ih =>
    obtain ⟨hlater, hsorted⟩ := List.pairwise_cons.1 hsorted
    obtain ⟨hsitep, hsite⟩ := List.forall_mem_cons.1 hsite
    obtain ⟨htimep, htime⟩ := List.forall_mem_cons.1 htime
    rw [List.foldl_cons]
    cases hbarrier : p.barrier with
    | none =>
      have hsame : take g posting w p = w := by simp [take, hbarrier]
      rw [hsame]
      exact ih hsite htime hsorted hw
        fun h u hu q hq => hle h u hu q (List.mem_cons_of_mem p hq)
    | some physical =>
      rcases hgather : gather g posting physical p.time p.task w.barriers w.gatherings with
        ⟨gatherings, barriers⟩
      obtain ⟨hnext, hbound⟩ := hw.takes (hsitep.trans hbarrier) htimep
        (fun h u hu => hle h u hu p List.mem_cons_self) hgather
      have hstep : take g posting w p = ⟨gatherings, barriers⟩ := by
        simp [take, hbarrier, hgather]
      rw [hstep]
      exact ih hsite htime hsorted hnext
        fun h u hu q hq => Nat.le_trans (hbound h u hu) (hlater q hq)

/-- Sealing what is left keeps the hardware barriers in turn. -/
theorem turns_foldl_sealNext {gatherings : List Gathering} (hascending : Ascending gatherings)
    {barriers : List VirtualBarrier}
    (hturns : ∀ h, Turns site start h (usesOf barriers h) (current gatherings h)) (h : BarrierId) :
    Turns site start h (usesOf (gatherings.foldl
      (fun barriers u => (sealNext g posting barriers u).1) barriers) h) none := by
  induction gatherings generalizing barriers with
  | nil => exact hturns h
  | cons u rest ih =>
    obtain ⟨hu, hrest⟩ := List.pairwise_cons.1 hascending
    refine ih hrest fun q => ?_
    have hq := hturns q
    rw [current_cons] at hq
    by_cases heq : u.physical = q
    · subst heq
      rw [if_pos rfl] at hq
      rw [current_eq_none_of_lt hu]
      exact hq.sealNext_self
    · rw [if_neg heq] at hq
      exact hq.sealNext_of_ne heq

/-! ## The barriers of a timetable -/

/-- The hardware barrier of a task, if it posts one. -/
def siteOf (placements : List Placement) (task : Nat) : Option BarrierId :=
  (placements.find? (·.task == task)).bind (·.barrier)

theorem siteOf_of_mem {placements : List Placement} (hnodup : (placements.map (·.task)).Nodup)
    {p : Placement} (hp : p ∈ placements) : siteOf placements p.task = p.barrier := by
  obtain ⟨q, hfind⟩ := Option.isSome_iff_exists.1
    (List.find?_isSome.2 ⟨p, hp, beq_self_eq_true p.task⟩ :
      (placements.find? (·.task == p.task)).isSome = true)
  have htask : q.task = p.task := by simpa using List.find?_some hfind
  obtain rfl : q = p := List.inj_on_of_nodup_map hnodup (List.mem_of_find?_eq_some hfind) hp htask
  simp [siteOf, hfind]

/-- Before any clean-up, every hardware barrier is used in turn. -/
theorem turns_sealAll {placements : List Placement} (hnodup : (placements.map (·.task)).Nodup)
    (h : BarrierId) :
    Turns (siteOf placements) (Timetable.startOf placements) h
      (usesOf (sealAll g placements) h) none := by
  have hmem : ∀ p, p ∈ Timetable.sorted placements ↔ p ∈ placements :=
    fun p => (Timetable.sorted_perm placements).mem_iff
  have hturn := @InTurn.foldl_take g (Timetable.posting placements) _ _
    (Timetable.sorted placements) (fun p hp => siteOf_of_mem hnodup ((hmem p).1 hp))
    (fun p hp => Timetable.startOf_of_mem hnodup ((hmem p).1 hp))
    (Timetable.pairwise_sorted placements) ⟨[], []⟩
    ⟨.nil, fun q => turns_nil _ _ q, fun _ _ => rfl⟩ (by simp [current])
  exact turns_foldl_sealNext hturn.ascending hturn.turns h

/-- One use of a hardware barrier is over before another starts, and someone who waits for
it runs no later than the other. -/
def Fenced (start : Nat → Nat) (b c : VirtualBarrier) : Prop :=
  (∀ p ∈ b.producers, ∀ q ∈ c.producers, start p < start q) ∧
    ∃ k ∈ b.consumers, ∀ q ∈ c.producers, start k ≤ start q

/-- In a chain every use is fenced off from all later ones. -/
theorem Turns.pairwise_fenced {h : BarrierId} {uses : List VirtualBarrier}
    (hturns : Turns site start h uses none) : uses.Pairwise (Fenced start) := by
  obtain ⟨hstand, hchain, -⟩ := hturns
  induction uses with
  | nil => exact .nil
  | cons b uses ih =>
    obtain ⟨-, hstand'⟩ := List.forall_mem_cons.1 hstand
    refine List.pairwise_cons.2 ⟨?_, ih hstand' hchain.of_cons⟩
    cases uses with
    | nil => simp
    | cons d rest =>
      -- the next use fences the first off from those after it as well
      obtain ⟨⟨hbefore, hwait⟩, hchain'⟩ := List.isChain_cons_cons.1 hchain
      obtain ⟨time, hd⟩ := hstand' d List.mem_cons_self
      obtain ⟨k, hk⟩ := List.exists_mem_of_ne_nil _ hd.ne_nil
      intro c hc
      rcases List.mem_cons.1 hc with rfl | hc
      · refine ⟨hbefore, k, hwait k hk, fun q hq => ?_⟩
        rw [hd.at_time k hk, hd.at_time q hq]
      · have hdc := (List.pairwise_cons.1 (ih hstand' hchain')).1 c hc
        exact ⟨fun p hp q hq => Nat.lt_trans (hbefore p hp k hk) (hdc.1 k hk q hq),
          k, hwait k hk, fun q hq => Nat.le_of_lt (hdc.1 k hk q hq)⟩

/-- Of two barriers on one hardware barrier, one is fenced off from the other. -/
theorem fenced_or_fenced {placements : List Placement} (hnodup : (placements.map (·.task)).Nodup)
    {b c : VirtualBarrier} (hb : b ∈ sealAll g placements) (hc : c ∈ sealAll g placements)
    (hne : b ≠ c) (hsame : b.physical = c.physical) :
    Fenced (Timetable.startOf placements) b c ∨ Fenced (Timetable.startOf placements) c b := by
  have hpairwise : (usesOf (sealAll g placements) b.physical).Pairwise fun x y =>
      Fenced (Timetable.startOf placements) x y ∨ Fenced (Timetable.startOf placements) y x :=
    (turns_sealAll hnodup b.physical).pairwise_fenced.imp Or.inl
  have hsymm : Std.Symm fun x y => Fenced (Timetable.startOf placements) x y ∨
      Fenced (Timetable.startOf placements) y x := ⟨fun _ _ => Or.symm⟩
  exact hpairwise.forall (mem_usesOf.2 ⟨hb, rfl⟩) (mem_usesOf.2 ⟨hc, hsame.symm⟩) hne

end TaskLoom.Wiring
