import TaskLoom.Proofs.Timetable.Plain
import TaskLoom.Proofs.Timetable.Refusal

/-!
# Setting tasks aside changes nothing

The list scheduler checks a ready task once in a step and sets it aside if it does not
fit.  The plain scheduler checks every ready task again at every iteration.  Both place
the same tasks in the same order, because a task that was set aside does not fit later in
the step either.

So while a step is filled, the ready tasks of the plain scheduler are those that are still
to be considered and those set aside, and of the latter none fits.  Checking in order of
rank, the plain scheduler passes over some that were set aside and comes to the first that
is to be considered.

## Main results

* `Filling.firstFitting` — the plain scheduler comes to the same task.
* `placeHinted_considerBeside`, `loop_fill` — the hinted tasks of a step, and all of it.
* `loop_runSteps` — the whole run.
* `schedule_eq_plain` — both schedulers end alike.
-/

namespace TaskLoom.ListScheduler

open Plain (view viewEnd view_eq_iff mem_ready)

variable {s : ListScheduler} {r r' : Run} {ready rest : List Nat} {task : Nat}

/-! ## A step that is being filled -/

/-- A step is being filled: `ready` are the tasks still to be considered, in order of rank,
and the other ready tasks were set aside because they do not fit. -/
structure Filling (s : ListScheduler) (ready : List Nat) (r : Run) : Prop where
  sound : Sound s r
  awaits : Awaits s r ready
  sorted : ready.Pairwise (s.rank · < s.rank ·)
  one_range : r.memory.free.length ≤ 1
  mem_ready : ∀ t, t ∈ Plain.ready s r ↔ t ∈ ready ∨ t ∈ r.deferred
  unfit : ∀ t ∈ r.deferred, s.fits r t = .ok false

theorem nodup_ready (s : ListScheduler) (r : Run) : (Plain.ready s r).Nodup := by
  refine (s.sortByRank_perm _).nodup_iff.2 ?_
  exact (s.graph.nodup_ids.filter _).filter _

/-- Tasks that do not fit are passed over. -/
theorem firstFitting_append {pre : List Nat} (h : ∀ t ∈ pre, s.fits r t = .ok false) :
    Plain.firstFitting s r (pre ++ rest) = Plain.firstFitting s r rest := by
  induction pre with
  | nil => rfl
  | cons t pre ih =>
    obtain ⟨ht, hpre⟩ := List.forall_mem_cons.1 h
    rw [List.cons_append, Plain.firstFitting, ht]
    exact ih hpre

/-- Before the first task to be considered, there are only tasks that were set aside. -/
theorem Filling.firstFitting (h : Filling s (task :: rest) r) :
    ∃ later, Plain.firstFitting s r (Plain.ready s r) =
      Plain.firstFitting s r (task :: later) := by
  obtain ⟨pre, later, hsplit⟩ :=
    List.append_of_mem ((h.mem_ready task).2 (Or.inl List.mem_cons_self))
  refine ⟨later, ?_⟩
  rw [hsplit]
  refine firstFitting_append fun t ht => h.unfit t ?_
  have hready : t ∈ Plain.ready s r := by
    rw [hsplit]
    exact List.mem_append_left _ ht
  have hle : s.rank t ≤ s.rank task := by
    have hsorted := s.pairwise_sortByRank
      ((Plain.unplaced s r).filter fun id => (s.graph.predecessors id).all (Plain.finished r))
    rw [show s.sortByRank _ = pre ++ task :: later from hsplit] at hsorted
    exact (List.pairwise_append.1 hsorted).2.2 t ht task List.mem_cons_self
  refine ((h.mem_ready t).1 hready).resolve_left fun hmem => ?_
  rcases List.mem_cons.1 hmem with rfl | hmem
  · have hnodup := nodup_ready s r
    rw [hsplit] at hnodup
    exact (List.nodup_append.1 hnodup).2.2 t ht t List.mem_cons_self rfl
  · exact absurd hle (Nat.not_le.2 ((List.pairwise_cons.1 h.sorted).1 t hmem))

/-- With all tasks considered, none fits. -/
theorem Filling.firstFitting_nil (h : Filling s [] r) :
    Plain.firstFitting s r (Plain.ready s r) = .ok none := by
  rw [← List.append_nil (Plain.ready s r)]
  exact firstFitting_append fun t ht =>
    h.unfit t (((h.mem_ready t).1 ht).resolve_left List.not_mem_nil)

/-! ## One task -/

theorem view_of_core (hcore : core r' = core r) : view r' = view r := by
  obtain ⟨hmemory, hbarriers, hrunning, -, hplacements, htime⟩ := core_eq_iff.1 hcore
  exact view_eq_iff.2 ⟨hmemory, hbarriers, hrunning, hplacements, htime⟩

theorem view_setAside (task : Nat) (r : Run) : view (setAside task (checked task r)) = view r := by
  simp only [view, setAside, checked, Run.enter, Run.record]

/-- A task that does not fit is set aside. -/
theorem Filling.setAside (h : Filling s ready r) (hvalid : s.settings.validate = .ok ())
    (hperm : ready.Perm (task :: rest)) (hsub : rest.Sublist ready)
    (hunfit : s.fits r task = .ok false) :
    Filling s rest (setAside task (checked task r)) ∧
      Fills s [task] r (ListScheduler.setAside task (checked task r)) := by
  have hcore : core (checked task r) = core r := rfl
  have hfills : Fills s [task] r (ListScheduler.setAside task (checked task r)) :=
    (fills_setAside (h.sound.of_core hcore) fun hidle =>
      not_fitsAlone h.sound hvalid hidle hunfit).of_core hcore rfl
  have hview := view_setAside task r
  have hdeferred : (ListScheduler.setAside task (checked task r)).deferred = task :: r.deferred :=
    rfl
  refine ⟨⟨hfills.sound, ?_, h.sorted.sublist hsub, h.one_range, ?_, ?_⟩, hfills⟩
  · exact Awaits.after (h.awaits.perm hperm) hfills
  · intro t
    rw [Plain.ready_congr hview, hdeferred, h.mem_ready, hperm.mem_iff, List.mem_cons,
      List.mem_cons]
    tauto
  · rw [Plain.fits_congr hview, hdeferred]
    exact List.forall_mem_cons.2 ⟨hunfit, h.unfit⟩

/-- A placed task is not ready any more, and no other becomes ready in this step. -/
theorem mem_ready_place (hplace : s.place task r = .done () r') (t : Nat) :
    t ∈ Plain.ready s r' ↔ t ∈ Plain.ready s r ∧ t ≠ task := by
  obtain ⟨p, rfl, hnow, -, -, hplacements, -, htime⟩ := place_done hplace
  have hbefore : ∀ u, (∃ q ∈ r'.placements, q.task = u ∧ q.time < r'.time) ↔
      ∃ q ∈ r.placements, q.task = u ∧ q.time < r.time := by
    intro u
    rw [hplacements, htime, List.exists_mem_cons_iff]
    have hnot : ¬ (p.task = u ∧ p.time < r.time) := by omega
    simp only [hnot, false_or]
  rw [mem_ready, mem_ready]
  simp only [hbefore]
  rw [hplacements, List.map_cons, List.mem_cons]
  tauto

/-- A task that fits is placed. -/
theorem Filling.place (h : Filling s ready r) (hg : s.graph.WellFormed)
    (hperm : ready.Perm (task :: rest)) (hsub : rest.Sublist ready)
    (hfits : s.fits r task = .ok true) {r₁ : Run} (hcore : core r₁ = core r)
    (hdeferred : r₁.deferred = r.deferred) :
    ∃ r', s.place task r₁ = .done () r' ∧ Filling s rest r' ∧ Fills s [task] r r' := by
  have hawaits := h.awaits.perm hperm
  obtain ⟨r', hplace, hfills⟩ := fills_place hg (h.sound.of_core hcore)
    (hawaits.of_core hcore hdeferred) ((fits_eq_true_iff.1 hfits).of_core hcore)
  have hview := view_of_core hcore
  have hone : r₁.memory.free.length ≤ 1 := by
    rw [(core_eq_iff.1 hcore).1]
    exact h.one_range
  obtain ⟨hone', hunfit⟩ := fits_place (h.sound.of_core hcore) hfills.sound hone hplace
  obtain ⟨p, -, -, -, -, -, hdeferred', -⟩ := place_done hplace
  have hfills' := hfills.of_core hcore hdeferred
  refine ⟨r', hplace, ⟨hfills.sound, Awaits.after hawaits hfills', h.sorted.sublist hsub, hone',
    ?_, ?_⟩, hfills'⟩
  · intro t
    have hnodup := hawaits.nodup
    rw [mem_ready_place hplace, Plain.ready_congr hview, h.mem_ready, hperm.mem_iff, hdeferred',
      hdeferred, List.mem_cons]
    have hrest : task ∉ rest := (List.nodup_cons.1 (List.nodup_append.1 hnodup).2.1).1
    have haside : task ∉ r.deferred := fun hmem => (List.nodup_append.1 hnodup).2.2 task
      (List.mem_append_right _ hmem) task List.mem_cons_self rfl
    constructor
    · rintro ⟨(rfl | hmem) | hmem, hne⟩
      · exact absurd rfl hne
      · exact Or.inl hmem
      · exact Or.inr hmem
    · rintro (hmem | hmem)
      · exact ⟨Or.inl (Or.inr hmem), fun heq => hrest (heq ▸ hmem)⟩
      · exact ⟨Or.inr hmem, fun heq => haside (heq ▸ hmem)⟩
  · rw [hdeferred', hdeferred]
    intro t ht
    refine hunfit t ?_
    rw [Plain.fits_congr hview]
    exact h.unfit t ht

/-- Considering a task ends as checking it does: it is set aside, or placed as the plain
scheduler places it. -/
theorem Filling.consider (h : Filling s ready r) (hg : s.graph.WellFormed)
    (hvalid : s.settings.validate = .ok ()) (hperm : ready.Perm (task :: rest))
    (hsub : rest.Sublist ready) (beside : Option Nat) :
    (∃ r', s.fits r task = .error .overflow ∧
      s.consider task beside r = .failed .overflow r') ∨
    (∃ r', s.fits r task = .ok false ∧ s.consider task beside r = .done false r' ∧
      view r' = view r ∧ Filling s rest r' ∧ Fills s [task] r r') ∨
    ∃ r₁ r', s.fits r task = .ok true ∧ s.consider task beside r = .done true r' ∧
      s.place task r = .done () r₁ ∧ view r₁ = view r' ∧ Filling s rest r' ∧
      Fills s [task] r r' := by
  unfold ListScheduler.consider
  rw [check_eq]
  cases hfits : s.fits r task with
  | error fault =>
    obtain rfl := overflow_of_fits hfits
    exact Or.inl ⟨_, rfl, rfl⟩
  | ok fits =>
    cases fits with
    | false =>
      obtain ⟨hfilling, hfills⟩ := h.setAside hvalid hperm hsub hfits
      exact Or.inr (Or.inl ⟨_, rfl, rfl, view_setAside task r, hfilling, hfills⟩)
    | true =>
      -- recording the hint changes nothing that placing looks at
      have hplace : ∀ r₂ : Run, core r₂ = core r → r₂.deferred = r.deferred →
          ∃ r₁ r', s.place task r₂ = .done () r' ∧ s.place task r = .done () r₁ ∧
            view r₁ = view r' ∧ Filling s rest r' ∧ Fills s [task] r r' := by
        intro r₂ hcore hdeferred
        obtain ⟨r', hr', hfilling, hfills⟩ := h.place hg hperm hsub hfits hcore hdeferred
        obtain ⟨r₁, hr₁, -, -⟩ := h.place hg hperm hsub hfits rfl rfl
        have hend := Plain.place_congr (s := s) (view_of_core hcore) task
        rw [hr', hr₁] at hend
        exact ⟨r₁, r', hr', hr₁, (Except.ok.inj hend).symm, hfilling, hfills⟩
      refine Or.inr (Or.inr ?_)
      cases beside with
      | none =>
        obtain ⟨r₁, r', hr', hrest⟩ := hplace (checked task r) rfl rfl
        exact ⟨r₁, r', rfl, by simp only [hr'], hrest⟩
      | some other =>
        obtain ⟨r₁, r', hr', hrest⟩ :=
          hplace ((checked task r).record (.prefetched task other)) rfl rfl
        exact ⟨r₁, r', rfl, by simp only [hr'], hrest⟩

/-! ## Hinted tasks -/

theorem leftOver_nil (ready : List Nat) : leftOver [] ready = ready := by
  simp [leftOver]

/-- The hinted tasks that are ready, if the first of them is. -/
theorem filter_eraseDups_cons (hnodup : ready.Nodup) (hmem : task ∈ ready) (hints : List Nat) :
    ((task :: hints).filter ready.contains).eraseDups =
      task :: (hints.filter (ready.erase task).contains).eraseDups := by
  rw [List.filter_cons_of_pos (by simpa using hmem), List.eraseDups_cons, List.filter_filter]
  congr 2
  refine List.filter_congr fun t _ => ?_
  rw [Bool.eq_iff_iff]
  simp [hnodup.mem_erase_iff]

theorem leftOver_cons (hnodup : ready.Nodup) (considered : List Nat) :
    leftOver (task :: considered) ready = leftOver considered (ready.erase task) := by
  unfold leftOver
  rw [hnodup.erase_eq_filter, List.filter_filter]
  refine List.filter_congr fun t _ => ?_
  rw [Bool.eq_iff_iff]
  simp [and_comm]

/-- The plain scheduler tries all hinted tasks.  Those that were set aside do not fit, so it
places the same ones. -/
theorem placeHinted_considerBeside (hg : s.graph.WellFormed)
    (hvalid : s.settings.validate = .ok ()) (beside : Nat) (hints : List Nat)
    (h : Filling s ready r) {r₀ : Run} (hview : view r₀ = view r) :
    (∃ r', s.considerBeside beside (hints.filter ready.contains).eraseDups r =
        .failed .overflow r' ∧ Plain.placeHinted s hints r₀ = .error .overflow) ∨
    ∃ r₁ r', s.considerBeside beside (hints.filter ready.contains).eraseDups r = .done () r' ∧
      Plain.placeHinted s hints r₀ = .ok r₁ ∧ view r₁ = view r' ∧
      Filling s (leftOver (hints.filter ready.contains).eraseDups ready) r' ∧
      Fills s (hints.filter ready.contains).eraseDups r r' := by
  induction hints generalizing ready r r₀ with
  | nil =>
    refine Or.inr ⟨r₀, r, rfl, rfl, hview, ?_, .refl h.sound⟩
    rw [List.filter_nil, List.eraseDups_nil, leftOver_nil]
    exact h
  | cons task hints ih =>
    have hnodup : ready.Nodup := (List.nodup_append.1 h.awaits.nodup).2.1
    by_cases hmem : task ∈ ready
    · have hcontains : (Plain.ready s r).contains task = true := by
        simpa using (h.mem_ready task).2 (Or.inl hmem)
      rw [filter_eraseDups_cons hnodup hmem, leftOver_cons hnodup, considerBeside,
        Plain.placeHinted, Plain.ready_congr hview, Plain.fits_congr hview, if_pos hcontains]
      rcases h.consider hg hvalid (List.perm_cons_erase hmem) List.erase_sublist (some beside) with
        ⟨r', hfits, hconsider⟩ | ⟨r', hfits, hconsider, hview', hfilling, hfills⟩ |
        ⟨r₁, r', hfits, hconsider, hplace, hview', hfilling, hfills⟩
      · rw [hconsider, hfits]
        exact Or.inl ⟨r', rfl, rfl⟩
      · rw [hconsider, hfits]
        rcases ih hfilling (hview.trans hview'.symm) with hover | ⟨r₂, r'', hdone, hrest, hend,
          hfilling', hfills'⟩
        · exact Or.inl hover
        · exact Or.inr ⟨r₂, r'', hdone, hrest, hend, hfilling', hfills.trans hfills'⟩
      · rw [hconsider, hfits]
        have hend := Plain.place_congr (s := s) hview task
        rw [hplace] at hend
        rcases Plain.viewEnd_cases hend with ⟨_, _, _, hr, -⟩ | ⟨r₁', r₀', hr, hr₀', hview₀⟩
        · cases hr
        · cases hr
          rw [hr₀']
          rcases ih hfilling (hview₀.trans hview') with hover | ⟨r₂, r'', hdone, hrest, hend,
            hfilling', hfills'⟩
          · exact Or.inl hover
          · exact Or.inr ⟨r₂, r'', hdone, hrest, hend, hfilling', hfills.trans hfills'⟩
    · -- a hinted task that is not to be considered is not ready, or does not fit
      have hskip : Plain.placeHinted s (task :: hints) r₀ = Plain.placeHinted s hints r₀ := by
        rw [Plain.placeHinted, Plain.ready_congr hview, Plain.fits_congr hview]
        split
        · next hcontains =>
          have hready : task ∈ Plain.ready s r := by simpa using hcontains
          rw [h.unfit task (((h.mem_ready task).1 hready).resolve_left hmem)]
        · rfl
      rw [List.filter_cons_of_neg (by simpa using hmem), hskip]
      exact ih h hview

/-! ## One step -/

/-- An iteration in which a check fails. -/
theorem Filling.step_overflow (h : Filling s (task :: rest) r)
    (hfits : s.fits r task = .error .overflow) : Plain.step s r = .error .overflow := by
  obtain ⟨later, hfirst⟩ := h.firstFitting
  rw [Plain.step, hfirst, Plain.firstFitting, hfits]

/-- An iteration in which a task is placed. -/
theorem Filling.step_place (h : Filling s (task :: rest) r) (hfits : s.fits r task = .ok true)
    {r₁ : Run} (hplace : s.place task r = .done () r₁) :
    Plain.step s r = (Plain.placeHinted s (s.hints.beside task) r₁).map some := by
  obtain ⟨later, hfirst⟩ := h.firstFitting
  rw [Plain.step, hfirst, Plain.firstFitting, hfits]
  simp only [hplace]

/-- Filling a step, the plain scheduler comes to the same run. -/
theorem loop_fill (hg : s.graph.WellFormed) (hvalid : s.settings.validate = .ok ())
    (ready : List Nat) (h : Filling s ready r) :
    (∃ r', s.fill ready r = .failed .overflow r' ∧ Plain.loop s r = .error .overflow) ∨
    ∃ r', s.fill ready r = .done () r' ∧ Plain.loop s r = Plain.loop s r' ∧ Filling s [] r' ∧
      Fills s ready r r' := by
  induction hlength : ready.length using Nat.strongRecOn generalizing ready r with
  | ind length ih =>
    cases ready with
    | nil => exact Or.inr ⟨r, by rw [fill], rfl, h, .refl h.sound⟩
    | cons task rest =>
      rw [fill]
      rcases h.consider hg hvalid (.refl _) (List.sublist_cons_self task rest) none with
        ⟨r', hfits, hconsider⟩ | ⟨r', hfits, hconsider, hview, hfilling, hfills⟩ |
        ⟨r₁, r', hfits, hconsider, hplace, hview, hfilling, hfills⟩
      · rw [hconsider]
        exact Or.inl ⟨r', rfl, Plain.loop_error (h.step_overflow hfits)⟩
      · rw [hconsider, ← Plain.loop_congr hview]
        rcases ih rest.length (by rw [← hlength]; exact Nat.lt_succ_self _) rest hfilling rfl with
          hover | ⟨r'', hfill, hloop, hfilling', hfills'⟩
        · exact Or.inl hover
        · exact Or.inr ⟨r'', hfill, hloop, hfilling', hfills.trans hfills'⟩
      · rw [hconsider]
        have hstep := h.step_place hfits hplace
        rcases placeHinted_considerBeside hg hvalid task (s.hints.beside task) hfilling hview with
          ⟨r₂, hbeside, hhinted⟩ | ⟨r₂', r₂, hbeside, hhinted, hview₂, hfilling₂, hfills₂⟩
        · rw [hhinted] at hstep
          simp only [hbeside]
          exact Or.inl ⟨r₂, rfl, Plain.loop_error hstep⟩
        · rw [hhinted] at hstep
          simp only [hbeside]
          rw [Plain.loop_some hstep, Plain.loop_congr hview₂]
          have hnodup : rest.Nodup := (List.nodup_append.1 hfilling.awaits.nodup).2.1
          have hshorter := length_leftOver_le
            ((s.hints.beside task).filter rest.contains).eraseDups rest
          rcases ih _ (by rw [← hlength]; exact Nat.lt_succ_of_le hshorter) _ hfilling₂ rfl with
            hover | ⟨r₃, hfill, hloop, hfilling₃, hfills₃⟩
          · exact Or.inl hover
          · refine Or.inr ⟨r₃, hfill, hloop, hfilling₃, ?_⟩
            exact (hfills.trans (hfills₂.trans hfills₃)).perm_tasks
              ((perm_append_leftOver hnodup).symm.cons task)

/-! ## The whole run -/

/-- Ranks tell the tasks of the graph apart. -/
def RanksApart (s : ListScheduler) : Prop :=
  ∀ a ∈ s.graph.ids, ∀ b ∈ s.graph.ids, s.rank a = s.rank b → a = b

theorem Ranked.ranksApart {levels : Array Nat} (h : Ranked s levels) : RanksApart s :=
  fun a ha b hb heq =>
    (h a ha b hb (Nat.le_of_eq heq)).antisymm (h b hb a ha (Nat.le_of_eq heq.symm))

/-- Tasks without repeats have ascending ranks when they are sorted. -/
theorem RanksApart.pairwise_lt (h : RanksApart s) {tasks : List Nat}
    (hids : ∀ t ∈ tasks, t ∈ s.graph.ids) (hnodup : tasks.Nodup) :
    (s.sortByRank tasks).Pairwise (s.rank · < s.rank ·) := by
  have hperm := s.sortByRank_perm tasks
  have hboth := (s.pairwise_sortByRank tasks).and (hperm.nodup_iff.2 hnodup)
  refine hboth.imp_of_mem fun {a b} ha hb hab => Nat.lt_of_le_of_ne hab.1 fun heq => hab.2 ?_
  exact h a (hids a (hperm.mem_iff.1 ha)) b (hids b (hperm.mem_iff.1 hb)) heq

/-- Between two steps, the ready tasks have ascending ranks. -/
theorem RanksApart.pairwise_ready (h : RanksApart s) {waiting tasks : List Nat}
    (hbetween : Between s waiting (s.sortByRank tasks) r) :
    (s.sortByRank tasks).Pairwise (s.rank · < s.rank ·) := by
  have hperm := s.sortByRank_perm tasks
  have hawaits := hbetween.awaits
  refine h.pairwise_lt (fun t ht => hawaits.mem_ids t (hperm.mem_iff.2 ht)) ?_
  exact hperm.nodup_iff.1 (List.nodup_append.1 hawaits.nodup).2.1

/-- Between two steps, what is ready is to be considered. -/
theorem Between.filling {waiting : List Nat} (h : Between s waiting ready r)
    (hvalid : s.settings.validate = .ok ()) (hsorted : ready.Pairwise (s.rank · < s.rank ·)) :
    Filling s ready r := by
  obtain ⟨hcmx, -, -, -⟩ := Settings.validate_eq_ok_iff.1 hvalid
  have hempty : r.memory.Holds [] := by
    have hholds := h.sound.memory
    rwa [h.idle] at hholds
  refine ⟨h.sound, h.awaits, hsorted, ?_, ?_, ?_⟩
  · rw [hempty.free_eq (by rw [h.sound.capacity_eq]; exact hcmx)]
    simp
  · intro t
    rw [h.none_aside, mem_ready]
    constructor
    · rintro ⟨⟨hid, hnot⟩, hbefore⟩
      have hmem := h.perm.mem_iff.2 hid
      simp only [List.mem_append] at hmem
      rcases hmem with (hplaced | hwaiting) | hready
      · exact absurd hplaced hnot
      · obtain ⟨u, hu, hleft⟩ := h.waits t hwaiting
        obtain ⟨p, hp, rfl, -⟩ := hbefore u hu
        exact absurd (List.mem_map_of_mem hp) hleft
      · exact Or.inl hready
    · rintro (hready | hmem)
      · refine ⟨⟨h.awaits.mem_ids t hready, fun hplaced => ?_⟩, h.ready t hready⟩
        exact (List.nodup_append.1 h.awaits.nodup).2.2 t (List.mem_append_left _ hplaced) t hready
          rfl
      · cases hmem
  · rw [h.none_aside]
    intro t ht
    cases ht

/-- How listing fails: a size leaves the word, or a task exceeds the hardware. -/
def ListingFault (fault : Fault) : Prop :=
  fault = .overflow ∨ ∃ name resource required available,
    fault = .refused (.infeasible .listing name resource required available)

/-- Why a task does not fit, unless a size leaves the word. -/
theorem shortage_cases (s : ListScheduler) (task : Nat) (m : FirstFit) :
    s.shortage task m = .error .overflow ∨ ∃ name resource required available,
      s.shortage task m = .ok (.infeasible .listing name resource required available) := by
  simp only [shortage, bind, Except.bind]
  cases hreserve : m.canReserve ((s.graph.task task).requests.map (·.2)) with
  | error fault =>
    obtain rfl := FirstFit.overflow_of_serveAll hreserve
    exact Or.inl rfl
  | ok fits =>
    cases fits with
    | true => exact Or.inr ⟨_, _, _, _, rfl⟩
    | false =>
      cases hrounded : ((s.graph.task task).requests.map (·.2)).mapM m.aligned with
      | error fault =>
        obtain rfl := overflow_of_mapM (fun _ _ => Word.overflow_of_roundUp) hrounded
        exact Or.inl rfl
      | ok sizes =>
        cases hsum : Word.sum sizes with
        | error fault =>
          obtain rfl := Word.overflow_of_fit hsum
          simp only [hsum]
          exact Or.inl rfl
        | ok required =>
          simp only [hsum]
          exact Or.inr ⟨_, _, _, _, rfl⟩

/-- With all tasks considered, the ready tasks are those that were set aside. -/
theorem Filling.ready_eq (h : Filling s [] r) (hapart : RanksApart s) :
    Plain.ready s r = s.sortByRank r.deferred := by
  have hnodup : r.deferred.Nodup := by
    have hall := h.awaits.nodup
    rw [List.append_nil] at hall
    exact (List.nodup_append.1 hall).2.1
  have hperm : (Plain.ready s r).Perm (s.sortByRank r.deferred) := by
    refine List.Perm.trans ?_ (s.sortByRank_perm _).symm
    refine (List.perm_ext_iff_of_nodup (nodup_ready s r) hnodup).2 fun t => ?_
    rw [h.mem_ready]
    simp
  have hids : ∀ t ∈ Plain.ready s r, t ∈ s.graph.ids := fun t ht => (Plain.mem_ready.1 ht).1.1
  refine List.Perm.eq_of_pairwise (fun a b ha hb hab hba => ?_) (s.pairwise_sortByRank _)
    (s.pairwise_sortByRank _) hperm
  exact hapart a (hids a ha) b (hids b (hperm.mem_iff.2 hb)) (Nat.le_antisymm hab hba)

/-- A run that is stuck is refused because of the same task. -/
theorem Filling.step_stuck (h : Filling s [] r) (hapart : RanksApart s)
    (hidle : r.running = []) (haside : r.deferred ≠ []) (waiting : List Nat) :
    Plain.step s r = .error (s.stuck waiting r) ∧ ListingFault (s.stuck waiting r) := by
  have hready := h.ready_eq hapart
  obtain ⟨task, rest, hsorted⟩ : ∃ task rest, s.sortByRank r.deferred = task :: rest := by
    refine List.exists_cons_of_ne_nil fun hnil => haside ?_
    have hperm := s.sortByRank_perm r.deferred
    rw [hnil] at hperm
    exact hperm.symm.eq_nil
  have hleft : Plain.unplaced s r ≠ [] := by
    have hmem : task ∈ Plain.ready s r := by
      rw [hready, hsorted]
      exact List.mem_cons_self
    exact List.ne_nil_of_mem (Plain.mem_unplaced.2 (Plain.mem_ready.1 hmem).1)
  have hfault : Plain.shortfall s r = s.stuck waiting r := by
    cases hshortage : s.shortage task r.memory <;>
      simp only [Plain.shortfall, stuck, hready, hsorted, hshortage]
  constructor
  · rw [Plain.step, h.firstFitting_nil]
    simp [hidle, hleft, hfault]
  · unfold stuck
    rw [hsorted]
    rcases s.shortage_cases task r.memory with
      hover | ⟨name, resource, required, available, hrefused⟩
    · simp only [hover]
      exact Or.inl rfl
    · simp only [hrefused]
      exact Or.inr ⟨name, resource, required, available, rfl⟩

/-- With all tasks considered, a step in which something runs is ended. -/
theorem Filling.step_advance (h : Filling s [] r) (hruns : r.running ≠ [])
    (hadvance : advance r = .done () r') : Plain.step s r = .ok (some r') := by
  rw [Plain.step, h.firstFitting_nil]
  simp [hruns, hadvance]

/-- With all tasks placed, both schedulers are done. -/
theorem Between.step_none (h : Between s [] [] r) (hvalid : s.settings.validate = .ok ()) :
    Plain.step s r = .ok none := by
  have hall : Plain.unplaced s r = [] := by
    refine List.eq_nil_iff_forall_not_mem.2 fun t ht => ?_
    obtain ⟨hid, hnot⟩ := Plain.mem_unplaced.1 ht
    have hmem := h.perm.mem_iff.2 hid
    rw [List.append_nil, List.append_nil] at hmem
    exact hnot hmem
  rw [Plain.step, (h.filling hvalid .nil).firstFitting_nil]
  simp [h.idle, hall]

/-- Step by step, the plain scheduler ends as the list scheduler does. -/
theorem loop_runSteps (hg : s.graph.WellFormed) (hac : s.graph.Acyclic)
    (hvalid : s.settings.validate = .ok ()) (hslots : s.settings.slotsPerBarrier < Word.bound)
    (hapart : RanksApart s) (count : Nat) (waiting ready : List Nat)
    (h : Between s waiting ready r) (hsorted : ready.Pairwise (s.rank · < s.rank ·))
    (hcount : s.graph.ids.length ≤ r.placements.length + count) :
    (∃ r', s.runSteps s.graph.predecessorTable count waiting ready r = .done () r' ∧
      Plain.loop s r = .ok r'.placements.reverse) ∨
    ∃ fault r', s.runSteps s.graph.predecessorTable count waiting ready r = .failed fault r' ∧
      Plain.loop s r = .error fault ∧ ListingFault fault := by
  induction count generalizing waiting ready r with
  | zero =>
    -- every step so far placed a task, so none is left
    have hlength := h.perm.length_eq
    simp only [List.length_append, List.length_map] at hlength
    obtain rfl : waiting = [] := List.eq_nil_of_length_eq_zero (by omega)
    obtain rfl : ready = [] := List.eq_nil_of_length_eq_zero (by omega)
    exact Or.inl ⟨r, by rw [runSteps], Plain.loop_none (h.step_none hvalid)⟩
  | succ count ih =>
    by_cases hdone : waiting = [] ∧ ready = []
    · obtain ⟨rfl, rfl⟩ := hdone
      exact Or.inl ⟨r, by rw [runSteps], Plain.loop_none (h.step_none hvalid)⟩
    have hne : waiting ≠ [] ∨ ready ≠ [] := by tauto
    rw [runSteps_succ hdone]
    rcases loop_fill hg hvalid ready (h.filling hvalid hsorted) with
      ⟨r₁, hfill, hloop⟩ | ⟨r₁, hfill, hloop, hfilling, hfills⟩
    · rw [hfill]
      exact Or.inr ⟨.overflow, r₁, rfl, hloop, Or.inl rfl⟩
    rw [hfill, hloop]
    by_cases hruns : r₁.running = []
    · have hstuck := h.stuck hg hne hfills hruns
      obtain ⟨hstep, hfault⟩ :=
        hfilling.step_stuck hapart hruns (hstuck.some_aside hac) waiting
      exact Or.inr ⟨s.stuck waiting r₁, r₁, by simp [hruns], Plain.loop_error hstep, hfault⟩
    · obtain ⟨r₂, hadvance, -, -, hlt, hnext⟩ := h.advance hslots hfills hruns
      have hcount' : s.graph.ids.length ≤
          ({ r₂ with deferred := [] } : Run).placements.length + count := by
        show s.graph.ids.length ≤ r₂.placements.length + count
        omega
      simp only [List.isEmpty_eq_false_iff.2 hruns, Bool.false_eq_true, if_false, hadvance]
      have hview : view { r₂ with deferred := [] } = view r₂ := rfl
      rw [Plain.loop_some (hfilling.step_advance hruns hadvance), ← Plain.loop_congr hview]
      exact ih _ _ hnext (hapart.pairwise_ready hnext) hcount'

/-- Listing ends as the plain scheduler does. -/
theorem schedule_result (hg : s.graph.WellFormed) (hac : s.graph.Acyclic)
    (hvalid : s.settings.validate = .ok ()) (hslots : s.settings.slotsPerBarrier < Word.bound)
    (hapart : RanksApart s) : s.schedule.result = Plain.schedule s ∧
      ∀ fault, s.schedule.result = .error fault → ListingFault fault := by
  obtain ⟨barriers, hcreate⟩ := exists_holdings hvalid
  simp only [schedule, Plain.schedule, hcreate]
  generalize hstart : ({ memory := FirstFit.create s.settings.cmxSize s.settings.alignment
                         barriers, running := [], deferred := []
                         retired := Array.replicate s.graph.tasks.size false
                         placements := [], time := 0, states := s.states, checks := s.checks
                         events := [] } : Run) = start
  have hbetween : Between s
      (s.graph.ids.filter (!released s.graph.predecessorTable start ·))
      (s.sortByRank (s.graph.ids.filter (released s.graph.predecessorTable start))) start := by
    subst hstart
    exact between_start (sound_start hvalid rfl hcreate rfl rfl rfl) rfl rfl rfl
  have hsorted := hapart.pairwise_ready hbetween
  rw [show Plain.loop s _ = Plain.loop s start by
    subst hstart; exact Plain.loop_congr rfl]
  rcases loop_runSteps hg hac hvalid hslots hapart _ _ _ hbetween hsorted (Nat.le_add_left _ _)
    with ⟨r', hrun, hloop⟩ | ⟨fault, r', hrun, hloop, hfault⟩
  · rw [hrun, hloop]
    exact ⟨rfl, fun fault herror => by cases herror⟩
  · rw [hrun, hloop]
    refine ⟨rfl, fun fault' herror => ?_⟩
    cases herror
    exact hfault

/-- Listing a graph without cycles gives the timetable of the plain scheduler, or fails with
its fault, whatever the hints are.  Neither the states of the tasks nor earlier checks play
a part. -/
theorem schedule_eq_plain {g : TaskGraph} {settings : Settings} (hg : g.WellFormed)
    (hac : g.Acyclic) (hvalid : settings.validate = .ok ())
    (hslots : settings.slotsPerBarrier < Word.bound) :
    ∃ s, create g settings = .ok s ∧ ∀ hints states checks,
      (schedule { s with hints, states, checks }).result =
        Plain.schedule { s with hints, states, checks } := by
  obtain ⟨s, levels, hcreate, -, -, rfl, rfl, hranked⟩ := create_spec hg hac hvalid
  refine ⟨s, hcreate, fun hints states checks => ?_⟩
  have hresult := @schedule_result { s with hints, states, checks }
  exact (hresult hg hac hvalid hslots hranked.ranksApart).1

/-- On the sample, with a hint. -/
theorem schedule_eq_plain_diamond :
    let settings : Settings := { cmxSize := 128, barrierCount := 2, slotsPerBarrier := 4 }
    settings.validate = .ok () ∧ ∃ s, create .diamond settings = .ok s ∧
      (schedule { s with hints := [(1, [3, 1])] }).result =
        Plain.schedule { s with hints := [(1, [3, 1])] } := by
  intro settings
  have hvalid : settings.validate = .ok () := Settings.validate_eq_ok_iff.2 (by decide +kernel)
  obtain ⟨s, hcreate, hsame⟩ :=
    schedule_eq_plain TaskGraph.wellFormed_diamond TaskGraph.acyclic_diamond hvalid (by decide)
  exact ⟨hvalid, s, hcreate, hsame _ s.states s.checks⟩

end TaskLoom.ListScheduler
