import TaskLoom.Barrier.Wiring
import TaskLoom.Proofs.Timetable.Times

/-!
# Sealed barriers

What holds for the virtual barriers before any clean-up.  Every task that posts is
a producer of one of them; whoever waits for the task, directly or behind tasks that
post nothing, is a consumer of it; and all producers run before all consumers.

The last point needs the sorted order: producers are gathered for one time step, and
the consumers that a barrier gains later are gathered for a later one.

## Main results

* `mem_waiters`, `exists_waiter` — who waits for a task.
* `sealNext_spec`, `gather_spec` — what one step of the wiring keeps.
* `sealed_sealAll` — what holds for the barriers of a timetable.
-/

namespace TaskLoom.Wiring

variable {g : TaskGraph} {posting : List Nat} {start : Nat → Nat}

/-! ## Who waits for a task -/

/-- One edge out of a task that posts nothing. -/
def Passes (g : TaskGraph) (posting : List Nat) (a b : Nat) : Prop :=
  a ∉ posting ∧ g.Joins a b

theorem mem_waiters (hg : g.WellFormed) {u w : Nat} (hu : u < g.tasks.size) :
    w ∈ waiters g posting u ↔
      ∃ x, g.Joins u x ∧ Relation.ReflTransGen (Passes g posting) x w := by
  have hstep : ∀ {a b : Nat}, a < g.tasks.size →
      (Expands (fun v => if posting.contains v then [] else g.successorTable.getD v [])
        g.tasks.size a b ↔ Passes g posting a b) := by
    intro a b ha
    unfold Expands Passes
    by_cases hpost : a ∈ posting
    · simp [hpost]
    · simp only [List.contains_eq_mem, hpost, decide_false, Bool.false_eq_true, if_false,
        not_false_eq_true, true_and, TaskGraph.mem_successorTable ha]
      exact ⟨fun h => h.1, fun h => ⟨h, TaskGraph.lt_size_of_mem_ids (hg.joins_right h)⟩⟩
  have hlt : ∀ {x : Nat}, g.Joins u x → x < g.tasks.size := fun hx =>
    TaskGraph.lt_size_of_mem_ids (hg.joins_right hx)
  simp only [waiters, List.mem_filter, List.mem_range, explore_marks_iff,
    TaskGraph.mem_successorTable hu]
  constructor
  · rintro ⟨-, x, hx, hxlt, path⟩
    refine ⟨x, hx, ?_⟩
    induction path with
    | refl => exact .refl
    | tail path step ih =>
      refine ih.tail ((hstep ?_).1 step)
      rcases Relation.ReflTransGen.cases_tail path with rfl | ⟨c, -, hc⟩
      · exact hxlt
      · exact hc.2
  · rintro ⟨x, hx, path⟩
    have hpath : Relation.ReflTransGen (Expands (fun v =>
        if posting.contains v then [] else g.successorTable.getD v []) g.tasks.size) x w ∧
          w < g.tasks.size := by
      induction path with
      | refl => exact ⟨.refl, hlt hx⟩
      | tail _ step ih =>
        exact ⟨ih.1.tail ((hstep ih.2).2 step),
          TaskGraph.lt_size_of_mem_ids (hg.joins_right step.2)⟩
    exact ⟨hpath.2, x, hx, hlt hx, hpath.1⟩

theorem before_of_mem_waiters (hg : g.WellFormed) {u w : Nat} (hu : u < g.tasks.size)
    (h : w ∈ waiters g posting u) : g.Before u w := by
  obtain ⟨x, hx, path⟩ := (mem_waiters hg hu).1 h
  exact Relation.TransGen.head' hx (path.lift id fun _ _ step => step.2)

/-- On a path out of a task, a waiter of it stands at the end, or posts and leads on. -/
theorem exists_waiter (hg : g.WellFormed) {u v : Nat} (huv : g.Before u v) :
    ∃ c ∈ waiters g posting u, c = v ∨ c ∈ posting ∧ g.Before c v := by
  have hfirst : ∀ {x : Nat}, g.Leads x v → ∃ c,
      Relation.ReflTransGen (Passes g posting) x c ∧ (c = v ∨ c ∈ posting ∧ g.Before c v) := by
    intro x hx
    induction hx using Relation.ReflTransGen.head_induction_on with
    | refl => exact ⟨v, .refl, Or.inl rfl⟩
    | @head x y step rest ih =>
      by_cases hpost : x ∈ posting
      · exact ⟨x, .refl, Or.inr ⟨hpost, Relation.TransGen.head' step rest⟩⟩
      · obtain ⟨c, path, hc⟩ := ih
        exact ⟨c, path.head ⟨hpost, step⟩, hc⟩
  obtain ⟨x, hux, hxv⟩ := Relation.TransGen.head'_iff.1 huv
  obtain ⟨c, path, hc⟩ := hfirst hxv
  have hu := TaskGraph.lt_size_of_mem_ids (hg.before_left huv)
  exact ⟨c, (mem_waiters hg hu).2 ⟨x, hux, path⟩, hc⟩

/-! ## Invariants -/

/-- What a barrier keeps while consumers are added: its id and its producers. -/
def outline (b : VirtualBarrier) : Nat × List Nat := (b.id, b.producers)

/-- What holds for the sealed barriers. -/
structure Sealed (g : TaskGraph) (posting : List Nat) (start : Nat → Nat)
    (barriers : List VirtualBarrier) : Prop where
  id_eq : ∀ (i : Nat) (b : VirtualBarrier), barriers[i]? = some b → b.id = i
  producers_mem : ∀ b ∈ barriers, ∀ p ∈ b.producers, p ∈ posting
  consumers_mem : ∀ b ∈ barriers, ∀ c ∈ b.consumers, c ∈ g.ids
  later : ∀ b ∈ barriers, ∀ p ∈ b.producers, ∀ c ∈ b.consumers, start p < start c
  covers : ∀ b ∈ barriers, ∀ p ∈ b.producers, ∀ c ∈ waiters g posting p, c ∈ b.consumers

/-- What holds for a gathering: its producers post in its time step, after those of
the former use. -/
structure Open (posting : List Nat) (start : Nat → Nat) (barriers : List VirtualBarrier)
    (u : Gathering) : Prop where
  posts : ∀ x ∈ u.producers, x ∈ posting ∧ start x = u.time
  former : ∀ id, u.former = some id → ∃ producers,
    (barriers.map outline)[id]? = some (id, producers) ∧ ∀ p ∈ producers, start p < u.time

/-- Barriers were added, and consumers to those before. -/
def Extends (barriers barriers' : List VirtualBarrier) : Prop :=
  ∃ more, barriers'.map outline = barriers.map outline ++ more

theorem Extends.refl (barriers : List VirtualBarrier) : Extends barriers barriers :=
  ⟨[], (List.append_nil _).symm⟩

theorem Extends.trans {bs bs' bs'' : List VirtualBarrier} (h : Extends bs bs')
    (h' : Extends bs' bs'') : Extends bs bs'' := by
  obtain ⟨more, hmore⟩ := h
  obtain ⟨more', hmore'⟩ := h'
  exact ⟨more ++ more', by rw [hmore', hmore, List.append_assoc]⟩

theorem Open.extends {barriers barriers' : List VirtualBarrier} {u : Gathering}
    (h : Open posting start barriers u) (hext : Extends barriers barriers') :
    Open posting start barriers' u := by
  refine ⟨h.posts, ?_⟩
  intro id hid
  obtain ⟨more, hmore⟩ := hext
  obtain ⟨producers, hget, hbefore⟩ := h.former id hid
  refine ⟨producers, ?_, hbefore⟩
  rw [hmore, List.getElem?_append_left (List.getElem?_eq_some_iff.1 hget).1, hget]

/-- A task is a producer of a sealed barrier. -/
def Produces (barriers : List VirtualBarrier) (x : Nat) : Prop :=
  ∃ b ∈ barriers, x ∈ b.producers

theorem produces_iff {barriers : List VirtualBarrier} {x : Nat} :
    Produces barriers x ↔ ∃ o ∈ barriers.map outline, x ∈ o.2 := by
  simp [Produces, outline]

theorem Produces.extends {barriers barriers' : List VirtualBarrier} {x : Nat}
    (h : Produces barriers x) (hext : Extends barriers barriers') : Produces barriers' x := by
  obtain ⟨more, hmore⟩ := hext
  obtain ⟨o, ho, hx⟩ := produces_iff.1 h
  refine produces_iff.2 ⟨o, ?_, hx⟩
  rw [hmore]
  exact List.mem_append_left more ho

/-- A task is a producer of a gathering or of a sealed barrier. -/
def Taken (gatherings : List Gathering) (barriers : List VirtualBarrier) (x : Nat) : Prop :=
  (∃ u ∈ gatherings, x ∈ u.producers) ∨ Produces barriers x

theorem taken_cons {u : Gathering} {gatherings : List Gathering} {barriers : List VirtualBarrier}
    {x : Nat} :
    Taken (u :: gatherings) barriers x ↔ x ∈ u.producers ∨ Taken gatherings barriers x := by
  simp [Taken, or_assoc]

theorem Taken.extends {gatherings : List Gathering} {barriers barriers' : List VirtualBarrier}
    {x : Nat} (h : Taken gatherings barriers x) (hext : Extends barriers barriers') :
    Taken gatherings barriers' x :=
  h.imp_right fun hx => hx.extends hext

/-- What taking a producer in a time step leaves of the gatherings and the barriers. -/
structure Takes (g : TaskGraph) (posting : List Nat) (start : Nat → Nat) (time task : Nat)
    (gatherings gatherings' : List Gathering) (barriers barriers' : List VirtualBarrier) :
    Prop where
  isSealed : Sealed g posting start barriers'
  grows : Extends barriers barriers'
  isOpen : ∀ u ∈ gatherings', Open posting start barriers' u ∧ u.time ≤ time
  taken : ∀ x, x = task ∨ Taken gatherings barriers x → Taken gatherings' barriers' x

section Takes

variable {time task : Nat} {barriers barriers' : List VirtualBarrier} {u : Gathering}
  {gatherings gatherings' : List Gathering}

/-- A gathering with its first producer. -/
theorem open_singleton (htask : task ∈ posting) (htime : start task = time)
    (physical : BarrierId) : Open posting start barriers ⟨physical, time, none, [task]⟩ := by
  constructor
  · intro x hx
    obtain rfl := List.mem_singleton.1 hx
    exact ⟨htask, htime⟩
  · intro id hid
    cases hid

/-- The producer starts a gathering of its own. -/
theorem Takes.fresh (h : Sealed g posting start barriers)
    (hopen : ∀ u ∈ gatherings, Open posting start barriers u ∧ u.time ≤ time)
    (htask : task ∈ posting) (htime : start task = time) (physical : BarrierId) :
    Takes g posting start time task gatherings
      (⟨physical, time, none, [task]⟩ :: gatherings) barriers barriers where
  isSealed := h
  grows := .refl _
  isOpen := List.forall_mem_cons.2 ⟨⟨open_singleton htask htime physical, Nat.le_refl _⟩, hopen⟩
  taken := by
    rintro x (rfl | hx)
    · exact taken_cons.2 (Or.inl (List.mem_singleton_self _))
    · exact taken_cons.2 (Or.inr hx)

/-- The producer joins a gathering of its step. -/
theorem Takes.join (h : Sealed g posting start barriers)
    (hopen : ∀ w ∈ u :: gatherings, Open posting start barriers w ∧ w.time ≤ time)
    (htask : task ∈ posting) (htime : start task = u.time) :
    Takes g posting start time task (u :: gatherings)
      ({ u with producers := task :: u.producers } :: gatherings) barriers barriers := by
  obtain ⟨⟨hu, hutime⟩, hrest⟩ := List.forall_mem_cons.1 hopen
  refine ⟨h, .refl _, List.forall_mem_cons.2 ⟨⟨⟨?_, hu.former⟩, hutime⟩, hrest⟩, ?_⟩
  · intro x hx
    rcases List.mem_cons.1 hx with rfl | hx
    · exact ⟨htask, htime⟩
    · exact hu.posts x hx
  · rintro x (rfl | hx)
    · exact taken_cons.2 (Or.inl List.mem_cons_self)
    · exact taken_cons.2 ((taken_cons.1 hx).imp_left (List.mem_cons_of_mem _))

/-- The producer was taken behind a gathering of another barrier. -/
theorem Takes.cons (h : Takes g posting start time task gatherings gatherings' barriers barriers')
    (hu : Open posting start barriers u) (hutime : u.time ≤ time) :
    Takes g posting start time task (u :: gatherings) (u :: gatherings') barriers barriers' where
  isSealed := h.isSealed
  grows := h.grows
  isOpen := List.forall_mem_cons.2 ⟨⟨hu.extends h.grows, hutime⟩, h.isOpen⟩
  taken := by
    rintro x (rfl | hx)
    · exact taken_cons.2 (Or.inr (h.taken x (Or.inl rfl)))
    · exact taken_cons.2 ((taken_cons.1 hx).imp_right fun hx => h.taken x (Or.inr hx))

end Takes

/-! ## Sealing a gathering -/

theorem outline_addConsumers (barriers : List VirtualBarrier) (id : Nat) (tasks : List Nat) :
    (addConsumers barriers id tasks).map outline = barriers.map outline := by
  unfold addConsumers
  rw [List.map_map]
  refine List.map_congr_left fun b _ => ?_
  simp only [Function.comp_apply]
  split <;> rfl

theorem mem_addConsumers {barriers : List VirtualBarrier} {id : Nat} {tasks : List Nat}
    {b' : VirtualBarrier} (h : b' ∈ addConsumers barriers id tasks) :
    ∃ b ∈ barriers, b'.id = b.id ∧ b'.producers = b.producers ∧
      ∀ c, c ∈ b'.consumers ↔ c ∈ b.consumers ∨ b.id = id ∧ c ∈ tasks := by
  obtain ⟨b, hb, rfl⟩ := List.mem_map.1 h
  refine ⟨b, hb, ?_⟩
  split
  · next heq =>
    refine ⟨rfl, rfl, fun c => ?_⟩
    simp [heq, or_comm]
  · next hne =>
    refine ⟨rfl, rfl, fun c => ?_⟩
    simp [hne]

/-- Later tasks may be added as consumers. -/
theorem Sealed.addConsumers {barriers : List VirtualBarrier}
    (h : Sealed g posting start barriers) {id : Nat} {tasks : List Nat}
    (htasks : ∀ x ∈ tasks, x ∈ g.ids)
    (hlater : ∀ b ∈ barriers, b.id = id → ∀ p ∈ b.producers, ∀ x ∈ tasks, start p < start x) :
    Sealed g posting start (addConsumers barriers id tasks) := by
  constructor
  · intro i b' hget
    rw [Wiring.addConsumers, List.getElem?_map] at hget
    obtain ⟨b, hb, rfl⟩ := Option.map_eq_some_iff.1 hget
    have hid := h.id_eq i b hb
    split <;> exact hid
  · intro b' hb' p hp
    obtain ⟨b, hb, -, hproducers, -⟩ := mem_addConsumers hb'
    exact h.producers_mem b hb p (hproducers ▸ hp)
  · intro b' hb' c hc
    obtain ⟨b, hb, -, -, hconsumers⟩ := mem_addConsumers hb'
    rcases (hconsumers c).1 hc with hc | ⟨-, hc⟩
    · exact h.consumers_mem b hb c hc
    · exact htasks c hc
  · intro b' hb' p hp c hc
    obtain ⟨b, hb, -, hproducers, hconsumers⟩ := mem_addConsumers hb'
    rw [hproducers] at hp
    rcases (hconsumers c).1 hc with hc | ⟨hid, hc⟩
    · exact h.later b hb p hp c hc
    · exact hlater b hb hid p hp c hc
  · intro b' hb' p hp c hc
    obtain ⟨b, hb, -, hproducers, hconsumers⟩ := mem_addConsumers hb'
    rw [hproducers] at hp
    exact (hconsumers c).2 (Or.inl (h.covers b hb p hp c hc))

/-- The barrier of a gathering joins the others. -/
theorem Sealed.append {barriers : List VirtualBarrier} (h : Sealed g posting start barriers)
    (hg : g.WellFormed) (hpost : ∀ x ∈ posting, x ∈ g.ids)
    (hstart : ∀ u v, g.Before u v → start u < start v) {physical : BarrierId}
    {producers : List Nat} {time : Nat}
    (hproducers : ∀ x ∈ producers, x ∈ posting ∧ start x = time) :
    Sealed g posting start (barriers ++
      [⟨barriers.length, physical, producers,
        IdSet.ofList (producers.flatMap (waiters g posting))⟩]) := by
  have hwait : ∀ {p c : Nat}, p ∈ producers → c ∈ waiters g posting p → g.Before p c :=
    fun hp hc => before_of_mem_waiters hg
      (TaskGraph.lt_size_of_mem_ids (hpost _ (hproducers _ hp).1)) hc
  constructor
  · intro i b hget
    by_cases hi : i < barriers.length
    · rw [List.getElem?_append_left hi] at hget
      exact h.id_eq i b hget
    · rw [List.getElem?_append_right (by omega)] at hget
      obtain ⟨hlt, rfl⟩ := List.getElem?_eq_some_iff.1 hget
      simp only [List.length_singleton] at hlt
      simp only [List.getElem_singleton]
      omega
  · intro b hb p hp
    rcases List.mem_append.1 hb with hb | hb
    · exact h.producers_mem b hb p hp
    · obtain rfl := List.mem_singleton.1 hb
      exact (hproducers p hp).1
  · intro b hb c hc
    rcases List.mem_append.1 hb with hb | hb
    · exact h.consumers_mem b hb c hc
    · obtain rfl := List.mem_singleton.1 hb
      obtain ⟨p, hp, hc⟩ := List.mem_flatMap.1 (IdSet.mem_ofList.1 hc)
      exact hg.before_right (hwait hp hc)
  · intro b hb p hp c hc
    rcases List.mem_append.1 hb with hb | hb
    · exact h.later b hb p hp c hc
    · obtain rfl := List.mem_singleton.1 hb
      -- the waiter may wait for another producer, but all of them share a time step
      obtain ⟨q, hq, hc⟩ := List.mem_flatMap.1 (IdSet.mem_ofList.1 hc)
      have hlt := hstart q c (hwait hq hc)
      have htime := (hproducers p hp).2
      have htime' := (hproducers q hq).2
      omega
  · intro b hb p hp c hc
    rcases List.mem_append.1 hb with hb | hb
    · exact h.covers b hb p hp c hc
    · obtain rfl := List.mem_singleton.1 hb
      exact IdSet.mem_ofList.2 (List.mem_flatMap.2 ⟨p, hp, hc⟩)

section Steps

variable (hg : g.WellFormed) (hpost : ∀ x ∈ posting, x ∈ g.ids)
  (hstart : ∀ u v, g.Before u v → start u < start v)

include hg hpost hstart

/-- Sealing a gathering adds its barrier. -/
theorem sealNext_spec {barriers : List VirtualBarrier} {u : Gathering}
    (h : Sealed g posting start barriers) (hu : Open posting start barriers u) :
    Sealed g posting start (sealNext g posting barriers u).1 ∧
      (sealNext g posting barriers u).1.map outline =
        barriers.map outline ++ [(barriers.length, IdSet.ofList u.producers)] := by
  have hproducers : ∀ x ∈ IdSet.ofList u.producers, x ∈ posting ∧ start x = u.time :=
    fun x hx => hu.posts x (IdSet.mem_ofList.1 hx)
  unfold sealNext
  cases hformer : u.former with
  | none =>
    refine ⟨h.append hg hpost hstart hproducers, ?_⟩
    rw [List.map_append]
    rfl
  | some former =>
    -- the producers of the former use ran in an earlier step
    obtain ⟨earlier, hget, hbefore⟩ := hu.former former hformer
    have hfenced : Sealed g posting start
        (addConsumers barriers former (IdSet.ofList u.producers)) := by
      refine h.addConsumers (fun x hx => hpost x (hproducers x hx).1) ?_
      intro b hb hid p hp x hx
      obtain ⟨i, hi⟩ := List.mem_iff_getElem?.1 hb
      have hindex := h.id_eq i b hi
      rw [List.getElem?_map, ← hid, hindex, hi] at hget
      have hsame : b.producers = earlier := congrArg Prod.snd (Option.some.inj hget)
      have htime := (hproducers x hx).2
      have hlt := hbefore p (hsame ▸ hp)
      omega
    have hlength : (addConsumers barriers former (IdSet.ofList u.producers)).length =
        barriers.length := by simp [addConsumers]
    have hsealed := @Sealed.append g posting start _ hfenced hg hpost hstart u.physical _ _
      hproducers
    rw [hlength] at hsealed
    refine ⟨hsealed, ?_⟩
    rw [List.map_append, outline_addConsumers]
    rfl

/-- The producers of a sealed gathering are producers of its barrier. -/
theorem produces_sealNext {barriers : List VirtualBarrier} {u : Gathering}
    (h : Sealed g posting start barriers) (hu : Open posting start barriers u) {x : Nat}
    (hx : x ∈ u.producers) : Produces (sealNext g posting barriers u).1 x := by
  obtain ⟨-, houtline⟩ := sealNext_spec hg hpost hstart h hu
  refine produces_iff.2 ⟨(barriers.length, IdSet.ofList u.producers), ?_, IdSet.mem_ofList.2 hx⟩
  rw [houtline]
  exact List.mem_append_right _ (List.mem_singleton_self _)

/-- A gathering of an earlier step is sealed, and the producer starts the next use. -/
theorem Takes.next {time task : Nat} {barriers : List VirtualBarrier} {u : Gathering}
    {gatherings : List Gathering} (h : Sealed g posting start barriers)
    (hopen : ∀ w ∈ u :: gatherings, Open posting start barriers w ∧ w.time ≤ time)
    (htask : task ∈ posting) (htime : start task = time) (hne : u.time ≠ time)
    (physical : BarrierId) :
    Takes g posting start time task (u :: gatherings)
      (⟨physical, time, some (sealNext g posting barriers u).2, [task]⟩ :: gatherings) barriers
      (sealNext g posting barriers u).1 := by
  obtain ⟨⟨hu, hutime⟩, hrest⟩ := List.forall_mem_cons.1 hopen
  obtain ⟨hsealed, houtline⟩ := sealNext_spec hg hpost hstart h hu
  have hext : Extends barriers (sealNext g posting barriers u).1 := ⟨_, houtline⟩
  have hposts := (open_singleton htask htime physical : Open posting start barriers _).posts
  refine ⟨hsealed, hext, List.forall_mem_cons.2 ⟨⟨⟨hposts, ?_⟩, Nat.le_refl _⟩, ?_⟩, ?_⟩
  · -- the former use is the barrier that was just sealed
    intro id hid
    obtain rfl : barriers.length = id := Option.some.inj hid
    refine ⟨IdSet.ofList u.producers, by simp [houtline], ?_⟩
    intro p hp
    have hstep := (hu.posts p (IdSet.mem_ofList.1 hp)).2
    show start p < time
    omega
  · intro w hw
    exact ⟨(hrest w hw).1.extends hext, (hrest w hw).2⟩
  · rintro x (rfl | hx)
    · exact taken_cons.2 (Or.inl (List.mem_singleton_self _))
    · rcases taken_cons.1 hx with hx | hx
      · exact Or.inr (produces_sealNext hg hpost hstart h hu hx)
      · exact taken_cons.2 (Or.inr (hx.extends hext))

/-- Taking a producer keeps what holds, if no gathering is for a later time step. -/
theorem gather_spec {physical : BarrierId} {time task : Nat} (htask : task ∈ posting)
    (htime : start task = time) (barriers : List VirtualBarrier) (gatherings : List Gathering)
    (h : Sealed g posting start barriers)
    (hopen : ∀ u ∈ gatherings, Open posting start barriers u ∧ u.time ≤ time) :
    Takes g posting start time task gatherings
      (gather g posting physical time task barriers gatherings).1 barriers
      (gather g posting physical time task barriers gatherings).2 := by
  induction gatherings with
  | nil => exact .fresh h hopen htask htime physical
  | cons u rest ih =>
    obtain ⟨⟨hu, hutime⟩, hrest⟩ := List.forall_mem_cons.1 hopen
    unfold gather
    split
    · exact .fresh h hopen htask htime physical
    · split
      · split
        · next heq => exact .join h hopen htask (htime.trans heq.symm)
        · next hne => exact .next hg hpost hstart h hopen htask htime hne physical
      · exact (ih hrest).cons hu hutime

/-- Taking placements in order of time keeps what holds. -/
theorem foldl_take_spec (placements : List Placement)
    (hplaced : ∀ p ∈ placements, p.barrier.isSome = true → p.task ∈ posting)
    (htimes : ∀ p ∈ placements, start p.task = p.time)
    (hsorted : placements.Pairwise (fun p q => p.time ≤ q.time)) (w : Wiring)
    (h : Sealed g posting start w.barriers)
    (hopen : ∀ u ∈ w.gatherings,
      Open posting start w.barriers u ∧ ∀ p ∈ placements, u.time ≤ p.time) :
    Sealed g posting start (placements.foldl (take g posting) w).barriers ∧
      (∀ u ∈ (placements.foldl (take g posting) w).gatherings,
        Open posting start (placements.foldl (take g posting) w).barriers u) ∧
      ∀ x, (∃ p ∈ placements, p.barrier.isSome = true ∧ p.task = x) ∨
          Taken w.gatherings w.barriers x →
        Taken (placements.foldl (take g posting) w).gatherings
          (placements.foldl (take g posting) w).barriers x := by
  induction placements generalizing w with
  | nil =>
    refine ⟨h, fun u hu => (hopen u hu).1, ?_⟩
    rintro x (⟨p, hp, -⟩ | hx)
    · cases hp
    · exact hx
  | cons p placements ih =>
    obtain ⟨hlater, hsorted⟩ := List.pairwise_cons.1 hsorted
    obtain ⟨hplacedp, hplaced⟩ := List.forall_mem_cons.1 hplaced
    obtain ⟨htimep, htimes⟩ := List.forall_mem_cons.1 htimes
    rw [List.foldl_cons]
    cases hbarrier : p.barrier with
    | none =>
      have hsame : take g posting w p = w := by simp [take, hbarrier]
      rw [hsame]
      obtain ⟨hsealed, hopen', htaken⟩ := ih hplaced htimes hsorted w h
        fun u hu => ⟨(hopen u hu).1, fun q hq => (hopen u hu).2 q (List.mem_cons_of_mem p hq)⟩
      refine ⟨hsealed, hopen', ?_⟩
      rintro x (⟨q, hq, hpostq, rfl⟩ | hx)
      · rcases List.mem_cons.1 hq with rfl | hq
        · simp [hbarrier] at hpostq
        · exact htaken _ (Or.inl ⟨q, hq, hpostq, rfl⟩)
      · exact htaken x (Or.inr hx)
    | some physical =>
      have htakes := @gather_spec g posting start hg hpost hstart physical p.time p.task
        (hplacedp (by simp [hbarrier])) htimep w.barriers w.gatherings h
        fun u hu => ⟨(hopen u hu).1, (hopen u hu).2 p List.mem_cons_self⟩
      have hstep : take g posting w p =
          ⟨(gather g posting physical p.time p.task w.barriers w.gatherings).1,
            (gather g posting physical p.time p.task w.barriers w.gatherings).2⟩ := by
        simp [take, hbarrier]
      rw [hstep]
      obtain ⟨hsealed', hopen', htaken⟩ := ih hplaced htimes hsorted
        ⟨(gather g posting physical p.time p.task w.barriers w.gatherings).1,
          (gather g posting physical p.time p.task w.barriers w.gatherings).2⟩ htakes.isSealed
        fun u hu => ⟨(htakes.isOpen u hu).1, fun q hq =>
          Nat.le_trans (htakes.isOpen u hu).2 (hlater q hq)⟩
      refine ⟨hsealed', hopen', ?_⟩
      rintro x (⟨q, hq, hpostq, rfl⟩ | hx)
      · rcases List.mem_cons.1 hq with rfl | hq
        · exact htaken _ (Or.inr (htakes.taken _ (Or.inl rfl)))
        · exact htaken _ (Or.inl ⟨q, hq, hpostq, rfl⟩)
      · exact htaken x (Or.inr (htakes.taken x (Or.inr hx)))

/-- Sealing what is left seals every producer. -/
theorem foldl_sealNext_spec (gatherings : List Gathering) (barriers : List VirtualBarrier)
    (h : Sealed g posting start barriers)
    (hopen : ∀ u ∈ gatherings, Open posting start barriers u) :
    Sealed g posting start
        (gatherings.foldl (fun barriers u => (sealNext g posting barriers u).1) barriers) ∧
      ∀ x, Taken gatherings barriers x →
        Produces (gatherings.foldl (fun barriers u => (sealNext g posting barriers u).1) barriers)
          x := by
  induction gatherings generalizing barriers with
  | nil =>
    refine ⟨h, ?_⟩
    rintro x (⟨u, hu, -⟩ | hx)
    · cases hu
    · exact hx
  | cons u rest ih =>
    obtain ⟨hu, hrest⟩ := List.forall_mem_cons.1 hopen
    obtain ⟨hsealed, houtline⟩ := sealNext_spec hg hpost hstart h hu
    have hext : Extends barriers (sealNext g posting barriers u).1 := ⟨_, houtline⟩
    obtain ⟨hsealed', hproduces⟩ := ih _ hsealed fun w hw => (hrest w hw).extends hext
    refine ⟨hsealed', ?_⟩
    intro x hx
    rcases taken_cons.1 hx with hx | hx
    · exact hproduces x (Or.inr (produces_sealNext hg hpost hstart h hu hx))
    · exact hproduces x (hx.extends hext)

end Steps

/-- The barriers of a timetable before any clean-up. -/
theorem sealed_sealAll {placements : List Placement} (hg : g.WellFormed)
    (h : Timetable.Orders g placements) :
    Sealed g (Timetable.posting placements) (Timetable.startOf placements)
        (sealAll g placements) ∧
      ∀ x ∈ Timetable.posting placements, Produces (sealAll g placements) x := by
  have hpost : ∀ x ∈ Timetable.posting placements, x ∈ g.ids := fun x hx => h.posting_mem hx
  have hstart : ∀ u v, g.Before u v →
      Timetable.startOf placements u < Timetable.startOf placements v :=
    fun u v huv => h.startOf_lt_of_before hg huv
  have hmem : ∀ p, p ∈ Timetable.sorted placements ↔ p ∈ placements :=
    fun p => (Timetable.sorted_perm placements).mem_iff
  have hempty : Sealed g (Timetable.posting placements) (Timetable.startOf placements) [] := by
    constructor <;> simp
  obtain ⟨hsealed, hopen, htaken⟩ := foldl_take_spec hg hpost hstart (Timetable.sorted placements)
    (fun p hp hbarrier => Timetable.mem_posting.2 ⟨p, (hmem p).1 hp, hbarrier, rfl⟩)
    (fun p hp => Timetable.startOf_of_mem h.nodup ((hmem p).1 hp))
    (Timetable.pairwise_sorted placements) ⟨[], []⟩ hempty (by simp)
  obtain ⟨hsealed', hproduces⟩ := foldl_sealNext_spec hg hpost hstart _ _ hsealed hopen
  refine ⟨hsealed', ?_⟩
  intro x hx
  obtain ⟨p, hp, hbarrier, rfl⟩ := Timetable.mem_posting.1 hx
  exact hproduces _ (htaken _ (Or.inl ⟨p, (hmem p).2 hp, hbarrier, rfl⟩))

end TaskLoom.Wiring
