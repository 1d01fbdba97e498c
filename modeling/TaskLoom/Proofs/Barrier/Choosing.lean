import TaskLoom.Proofs.Barrier.Pool

/-!
# The choice of a barrier

A demand is served from the lowest untouched barrier, as long as there is one and a
barrier has that many slots at all.  Otherwise it is served from the tightest fit: of the
barriers with enough free slots one that has the fewest, and of several the lowest.

The pool looks for neither.  It walks its ranking from the first barrier with enough free
slots on, and takes the first untouched one that it meets, or else the one where it
started.  No barrier has more free slots than an untouched one, so the walk meets all of
them, in the order of their ids.  If there is none, all barriers are in use, and among
those the ranking goes by free slots and then by id.

## Main results

* `Prefers` — the rule.
* `Consistent.prefers_of_pick` — the walk ends at the barrier of the rule.
* `Consistent.call`, `Consistent.after` — every call keeps a pool consistent.
* `assign_after` — what a demand gets from a pool after any calls.
-/

namespace TaskLoom.BarrierPool

variable {p p' : BarrierPool} {b : BarrierId} {demand : Nat}

/-! ## The rule -/

/-- The barrier has enough free slots for a demand. -/
def Offers (p : BarrierPool) (demand : Nat) (b : BarrierId) : Prop :=
  ∃ free, p.available b = .ok free ∧ demand ≤ free

/-- All slots of the barrier are free. -/
def Untouched (p : BarrierPool) (b : BarrierId) : Prop :=
  p.available b = .ok p.maxSlots

/-- The rule by which a barrier is chosen for a demand. -/
inductive Prefers (p : BarrierPool) (demand : Nat) (b : BarrierId) : Prop
  /-- The lowest untouched barrier. -/
  | untouched (fits : demand ≤ p.maxSlots) (free : p.Untouched b)
      (lowest : ∀ c, p.Untouched c → b.number ≤ c.number)
  /-- If that is no choice, the tightest fit, and of several the lowest. -/
  | tightest (none : ¬ (demand ≤ p.maxSlots ∧ ∃ c, p.Untouched c)) (free : Nat)
      (room : p.available b = .ok free) (fits : demand ≤ free)
      (least : ∀ c other, p.available c = .ok other → demand ≤ other →
        free < other ∨ free = other ∧ b.number ≤ c.number)

/-- Slots were taken from one barrier, and all others are as they were. -/
structure Takes (p : BarrierPool) (b : BarrierId) (demand : Nat) (p' : BarrierPool) : Prop where
  count_eq : p'.count = p.count
  maxSlots_eq : p'.maxSlots = p.maxSlots
  taken : ∃ free, p.available b = .ok (free + demand) ∧ p'.available b = .ok free ∧
    p'.inUse b = .ok (decide (free < p.maxSlots))
  others : ∀ c, c ≠ b → p'.vacancy c = p.vacancy c

/-! ## Reading the table -/

/-- The vacancy of a barrier is the one of the table that has its number. -/
theorem Consistent.vacancy_eq_ok_iff (h : p.Consistent) {k : Vacancy} :
    p.vacancy b = .ok k ↔ k ∈ p.vacancies ∧ k.barrier = b.number := by
  constructor
  · intro hget
    unfold vacancy at hget
    split at hget
    · cases hget
    · next i hnumber =>
      split at hget
      · next x hx =>
        cases hget
        exact ⟨List.mem_of_getElem? hx, (h.barrier_eq i k hx).trans hnumber.symm⟩
      · cases hget
  · rintro ⟨hk, hnumber⟩
    have hget := h.vacancy_eq_ok hk
    rwa [hnumber] at hget

theorem Consistent.available_eq_ok_iff (h : p.Consistent) {free : Nat} :
    p.available b = .ok free ↔
      ∃ k ∈ p.vacancies, k.barrier = b.number ∧ k.available = free := by
  unfold available
  constructor
  · intro hmap
    cases hget : p.vacancy b with
    | error fault => simp [hget, Except.map] at hmap
    | ok k =>
      have hk := h.vacancy_eq_ok_iff.1 hget
      rw [hget] at hmap
      exact ⟨k, hk.1, hk.2, Except.ok.inj hmap⟩
  · rintro ⟨k, hk, hnumber, rfl⟩
    rw [h.vacancy_eq_ok_iff.2 ⟨hk, hnumber⟩]
    rfl

theorem Consistent.available_of_mem (h : p.Consistent) {k : Vacancy} (hk : k ∈ p.vacancies) :
    p.available ⟨k.barrier⟩ = .ok k.available :=
  h.available_eq_ok_iff.2 ⟨k, hk, rfl, rfl⟩

/-- A barrier is untouched if it is not in use. -/
theorem Consistent.untouched_iff (h : p.Consistent) :
    p.Untouched b ↔ ∃ k ∈ p.vacancies, k.barrier = b.number ∧ k.inUse = false := by
  unfold Untouched
  rw [h.available_eq_ok_iff]
  constructor
  · rintro ⟨k, hk, hnumber, hfull⟩
    refine ⟨k, hk, hnumber, ?_⟩
    rw [Bool.eq_false_iff, ne_eq, h.inUse_iff k hk]
    omega
  · rintro ⟨k, hk, hnumber, hunused⟩
    exact ⟨k, hk, hnumber, h.available_eq hk hunused⟩

theorem Consistent.offers_iff (h : p.Consistent) :
    p.Offers demand b ↔ ∃ k ∈ p.vacancies, k.barrier = b.number ∧ demand ≤ k.available := by
  unfold Offers
  simp only [h.available_eq_ok_iff]
  constructor
  · rintro ⟨free, ⟨k, hk, hnumber, rfl⟩, hle⟩
    exact ⟨k, hk, hnumber, hle⟩
  · rintro ⟨k, hk, hnumber, hle⟩
    exact ⟨k.available, ⟨k, hk, hnumber, rfl⟩, hle⟩

theorem Consistent.hasRoom_iff (h : p.Consistent) (demand : Nat) :
    p.hasRoom demand = true ↔ ∃ b, p.Offers demand b := by
  unfold hasRoom
  rw [Option.isSome_iff_ne_none, ne_eq, pick_eq_none_iff h]
  simp only [h.offers_iff, not_forall, Nat.not_lt]
  constructor
  · rintro ⟨k, hk, hle⟩
    exact ⟨⟨k.barrier⟩, k, hk, rfl, hle⟩
  · rintro ⟨b, k, hk, -, hle⟩
    exact ⟨k, hk, hle⟩

/-! ## The walk along the ranking -/

/-- The walk ends at the barrier of the rule. -/
theorem Consistent.prefers_of_pick (h : p.Consistent) (hpick : p.pick demand = some b) :
    p.Prefers demand b := by
  obtain ⟨k, hk, rfl, hroom, hchoice⟩ := h.pick_eq_some hpick
  rcases hchoice with ⟨hunused, hlowest⟩ | hused
  · have hfits : demand ≤ p.maxSlots := Nat.le_trans hroom (h.available_le k hk)
    apply Prefers.untouched hfits (h.untouched_iff.2 ⟨k, hk, rfl, hunused⟩)
    intro c hc
    obtain ⟨x, hx, hnumber, hxu⟩ := h.untouched_iff.1 hc
    exact hnumber ▸ hlowest x hx hxu
  · have hnone : ¬ (demand ≤ p.maxSlots ∧ ∃ c, p.Untouched c) := by
      rintro ⟨hfits, c, hc⟩
      obtain ⟨x, hx, -, hxu⟩ := h.untouched_iff.1 hc
      have hxused := (hused x hx (by rw [h.available_eq hx hxu]; exact hfits)).1
      rw [hxu] at hxused
      cases hxused
    apply Prefers.tightest hnone k.available (h.available_of_mem hk) hroom
    intro c other hc hle
    obtain ⟨x, hx, hnumber, rfl⟩ := h.available_eq_ok_iff.1 hc
    exact hnumber ▸ (hused x hx hle).2

/-- A preferred barrier has room. -/
theorem Prefers.offers (h : p.Prefers demand b) : p.Offers demand b := by
  cases h with
  | untouched fits free _ => exact ⟨p.maxSlots, free, fits⟩
  | tightest _ free room fits _ => exact ⟨free, room, fits⟩

/-- The rule leaves no choice. -/
theorem Prefers.eq {c : BarrierId} (hb : p.Prefers demand b) (hc : p.Prefers demand c) :
    b = c := by
  have heq : b.number = c.number := by
    cases hb with
    | untouched fits free lowest =>
      cases hc with
      | untouched _ free' lowest' => exact Nat.le_antisymm (lowest c free') (lowest' b free)
      | tightest none _ _ _ _ => exact absurd ⟨fits, b, free⟩ none
    | tightest none free room fits least =>
      cases hc with
      | untouched fits' free' _ => exact absurd ⟨fits', c, free'⟩ none
      | tightest _ other room' fits' least' =>
        have hle := least c other room' fits'
        have hge := least' b free room fits
        omega
  cases b
  cases c
  exact congrArg BarrierId.mk heq

/-! ## Calls -/

/-- A call that changes a pool. -/
inductive Call where
  /-- Starts over with a fresh pool. -/
  | reset (count slots : Nat)
  /-- Takes slots from the preferred barrier. -/
  | assign (demand : Nat)
  /-- Takes slots from one barrier. -/
  | assignTo (b : BarrierId) (demand : Nat)
  /-- Returns slots to one barrier. -/
  | unassign (b : BarrierId) (demand : Nat)
deriving DecidableEq, Repr

/-- The pool after a call. -/
def call (p : BarrierPool) : Call → Except Fault BarrierPool
  | .reset count slots => create count slots
  | .assign demand => (p.assign demand).map (·.2)
  | .assignTo b demand => (p.assignTo b demand).map (·.2)
  | .unassign b demand => (p.unassign b demand).map (·.2)

/-- The pool after calls one after the other.  A call that fails changes nothing. -/
def after (p : BarrierPool) (calls : List Call) : BarrierPool :=
  calls.foldl (fun p c => (p.call c).toOption.getD p) p

/-- A call that succeeds ends in this pool. -/
theorem map_snd_eq_ok {α : Type} {r : Except Fault (α × BarrierPool)}
    (h : r.map (·.2) = .ok p') : ∃ a, r = .ok (a, p') := by
  cases r with
  | error fault => cases h
  | ok result => exact ⟨result.1, congrArg Except.ok (Prod.ext rfl (Except.ok.inj h))⟩

/-- Taking slots from one barrier. -/
theorem Consistent.assignTo (h : p.Consistent) {k : Vacancy} (hk : k ∈ p.vacancies)
    (hroom : demand ≤ k.available) :
    ∃ p', p.assignTo ⟨k.barrier⟩ demand = .ok (true, p') ∧ p'.Consistent ∧
      p.Takes ⟨k.barrier⟩ demand p' := by
  have hle : k.available - demand ≤ p.maxSlots :=
    Nat.le_trans (Nat.sub_le _ _) (h.available_le k hk)
  obtain ⟨p', hupdate, hconsistent, hmax, hvacancies⟩ := h.update hk hle
  obtain ⟨i, hi⟩ := List.mem_iff_getElem?.1 hk
  have hbarrier := h.barrier_eq i k hi
  have hlt : i < p.vacancies.length := (List.getElem?_eq_some_iff.1 hi).1
  have hcount : p'.count = p.count := by simp [count, hvacancies]
  rw [show k.barrier - 1 = i by omega] at hvacancies
  refine ⟨p', ?_, hconsistent, hcount, hmax, ⟨k.available - demand, ?_, ?_, ?_⟩, ?_⟩
  · simp only [BarrierPool.assignTo, h.vacancy_eq_ok hk, hroom, if_true, hupdate, bind,
      Except.bind]
  · rw [h.available_of_mem hk, Nat.sub_add_cancel hroom]
  · simp [available, vacancy, hbarrier, hvacancies, hlt, Except.map]
  · simp [inUse, vacancy, hbarrier, hvacancies, hlt, Except.map]
  · intro c hne
    have hindex : ∀ j, c.number = j + 1 → i ≠ j := by
      rintro j hj rfl
      apply hne
      cases c
      exact congrArg BarrierId.mk (hj.trans hbarrier.symm)
    unfold vacancy
    rw [hcount]
    split
    · rfl
    · next j hj => rw [hvacancies, List.getElem?_set_ne (hindex j hj)]

/-- The preferred barrier has the slots that are taken from it. -/
theorem Consistent.assign (h : p.Consistent) (hpick : p.pick demand = some b) :
    ∃ p', p.assign demand = .ok (b, p') ∧ p'.Consistent ∧ p.Takes b demand p' := by
  obtain ⟨k, hk, rfl, hroom, -⟩ := h.pick_eq_some hpick
  obtain ⟨p', hassign, hconsistent, htakes⟩ := h.assignTo hk hroom
  refine ⟨p', ?_, hconsistent, htakes⟩
  simp only [BarrierPool.assign, hpick, hassign, bind, Except.bind, pure, Except.pure]

theorem Consistent.of_assign (h : p.Consistent) (hassign : p.assign demand = .ok (b, p')) :
    p'.Consistent := by
  cases hpick : p.pick demand with
  | none =>
    rw [BarrierPool.assign, hpick] at hassign
    cases hassign
    exact h
  | some c =>
    obtain ⟨q, hq, hconsistent, -⟩ := h.assign hpick
    cases hq.symm.trans hassign
    exact hconsistent

theorem Consistent.of_assignTo (h : p.Consistent) {answer : Bool}
    (hassign : p.assignTo b demand = .ok (answer, p')) : p'.Consistent := by
  cases hget : p.vacancy b with
  | error fault => simp [BarrierPool.assignTo, hget, bind, Except.bind] at hassign
  | ok k =>
    obtain ⟨hk, hnumber⟩ := h.vacancy_eq_ok_iff.1 hget
    by_cases hroom : demand ≤ k.available
    · obtain ⟨q, hq, hconsistent, -⟩ := h.assignTo hk hroom
      rw [hnumber] at hq
      cases hq.symm.trans hassign
      exact hconsistent
    · simp [BarrierPool.assignTo, hget, hroom, bind, Except.bind] at hassign

theorem Consistent.of_unassign (h : p.Consistent) {answer : Bool}
    (hunassign : p.unassign b demand = .ok (answer, p')) : p'.Consistent := by
  cases hget : p.vacancy b with
  | error fault => simp [BarrierPool.unassign, hget, bind, Except.bind] at hunassign
  | ok k =>
    obtain ⟨hk, hnumber⟩ := h.vacancy_eq_ok_iff.1 hget
    cases hadd : Word.add k.available demand with
    | error fault => simp [BarrierPool.unassign, hget, hadd, bind, Except.bind] at hunassign
    | ok restored =>
      by_cases hle : restored ≤ p.maxSlots
      · obtain ⟨q, hq, hconsistent, -⟩ := h.update hk hle
        rw [hnumber] at hq
        simp only [BarrierPool.unassign, hget, hadd, hle, if_true, bind, Except.bind]
          at hunassign
        cases hq.symm.trans hunassign
        exact hconsistent
      · simp [BarrierPool.unassign, hget, hadd, hle, bind, Except.bind] at hunassign

/-- A call that succeeds keeps a pool consistent. -/
theorem Consistent.call (h : p.Consistent) {c : Call} (hcall : p.call c = .ok p') :
    p'.Consistent := by
  cases c with
  | reset count slots => exact (consistent_create hcall).1
  | assign demand =>
    obtain ⟨b, hassign⟩ := map_snd_eq_ok hcall
    exact h.of_assign hassign
  | assignTo b demand =>
    obtain ⟨answer, hassign⟩ := map_snd_eq_ok hcall
    exact h.of_assignTo hassign
  | unassign b demand =>
    obtain ⟨answer, hunassign⟩ := map_snd_eq_ok hcall
    exact h.of_unassign hunassign

/-- Every run of calls keeps a pool consistent. -/
theorem Consistent.after (h : p.Consistent) (calls : List Call) : (p.after calls).Consistent := by
  induction calls generalizing p with
  | nil => exact h
  | cons c calls ih =>
    show ((Option.getD (p.call c).toOption p).after calls).Consistent
    apply ih
    cases hcall : p.call c with
    | error fault => exact h
    | ok next => exact h.call hcall

/-! ## What a demand gets -/

theorem Consistent.assign_of_full (h : p.Consistent) (hnone : ¬ ∃ b, p.Offers demand b) :
    p.assign demand = .ok (.invalid, p) := by
  have hpick : p.pick demand = none := by
    rw [← h.hasRoom_iff, Bool.not_eq_true] at hnone
    exact Option.isNone_iff_eq_none.1 (by simpa [hasRoom] using hnone)
  rw [BarrierPool.assign, hpick]

/-- A barrier with room is a barrier of the pool. -/
theorem Consistent.has_of_offers (h : p.Consistent) (hoffers : p.Offers demand b) :
    p.has b = true := by
  obtain ⟨k, hk, hnumber, -⟩ := h.offers_iff.1 hoffers
  obtain ⟨i, hi⟩ := List.mem_iff_getElem?.1 hk
  have hbarrier := h.barrier_eq i k hi
  have hlt : i < p.vacancies.length := (List.getElem?_eq_some_iff.1 hi).1
  simp only [has, Bool.and_eq_true, decide_eq_true_eq]
  unfold count
  omega

/-- How a pool answers a demand. -/
structure Answers (p : BarrierPool) (demand : Nat) : Prop where
  hasRoom_iff : p.hasRoom demand = true ↔ ∃ b, p.Offers demand b
  chosen : (∃ b, p.Offers demand b) → ∃ b, p.Prefers demand b
  taken : ∀ b, p.Prefers demand b → ∃ p', p.assign demand = .ok (b, p') ∧ p.Takes b demand p'
  /-- The number that stands for "none" is the answer if no barrier has room.  No table is so
  long that it is also the number of a barrier. -/
  refused_iff : p.has .invalid = false →
    (p.assign demand = .ok (.invalid, p) ↔ ¬ ∃ b, p.Offers demand b)

/-- Whatever calls were made to a pool before, it has room for a demand if a barrier has, takes
the slots from the barrier of the rule and no other, and is left alone if none has room. -/
theorem assign_after {count slots : Nat} {fresh : BarrierPool}
    (hcreate : create count slots = .ok fresh) (calls : List Call) (demand : Nat) :
    (fresh.after calls).Answers demand := by
  have h : (fresh.after calls).Consistent := (consistent_create hcreate).1.after calls
  have hpicks : (∃ b, (fresh.after calls).Offers demand b) →
      ∃ b, (fresh.after calls).pick demand = some b := by
    intro hroom
    rw [← h.hasRoom_iff] at hroom
    exact Option.isSome_iff_exists.1 hroom
  constructor
  · exact h.hasRoom_iff demand
  · intro hroom
    obtain ⟨b, hpick⟩ := hpicks hroom
    exact ⟨b, h.prefers_of_pick hpick⟩
  · intro b hb
    obtain ⟨c, hpick⟩ := hpicks ⟨b, hb.offers⟩
    obtain ⟨p', hassign, -, htakes⟩ := h.assign hpick
    rw [hb.eq (h.prefers_of_pick hpick)]
    exact ⟨p', hassign, htakes⟩
  · intro hinvalid
    refine ⟨fun hanswer hroom => ?_, h.assign_of_full⟩
    obtain ⟨c, hpick⟩ := hpicks hroom
    obtain ⟨p', hassign, -, -⟩ := h.assign hpick
    cases hassign.symm.trans hanswer
    have hhas := h.has_of_offers (h.prefers_of_pick hpick).offers
    rw [hinvalid] at hhas
    cases hhas

/-- After calls of which two fail, no barrier is untouched.  Of the first and the third, which
have room for two slots, the first is the tighter fit. -/
theorem assign_after_worn :
    ∃ fresh p', create 2 3 = .ok fresh ∧
      (fresh.after [.reset 3 4, .assignTo ⟨1⟩ 2, .assignTo ⟨2⟩ 3, .assignTo ⟨1⟩ 9,
        .unassign ⟨3⟩ 1, .assign 1]).assign 2 = .ok (⟨1⟩, p') ∧
      (fresh.after [.reset 3 4, .assignTo ⟨1⟩ 2, .assignTo ⟨2⟩ 3, .assignTo ⟨1⟩ 9,
        .unassign ⟨3⟩ 1, .assign 1]).Takes ⟨1⟩ 2 p' := by
  have hcreate : create 2 3 = .ok ⟨[⟨3, false, 1⟩, ⟨3, false, 2⟩],
      [⟨3, false, 1⟩, ⟨3, false, 2⟩], 3⟩ := rfl
  have hanswers := assign_after hcreate [.reset 3 4, .assignTo ⟨1⟩ 2, .assignTo ⟨2⟩ 3,
    .assignTo ⟨1⟩ 9, .unassign ⟨3⟩ 1, .assign 1] 2
  obtain ⟨b, hb⟩ := hanswers.chosen (hanswers.hasRoom_iff.1 rfl)
  obtain ⟨p', hassign, htakes⟩ := hanswers.taken b hb
  have hfirst : b = ⟨1⟩ := (congrArg Prod.fst (Except.ok.inj hassign)).symm
  rw [hfirst] at hassign htakes
  exact ⟨_, p', hcreate, hassign, htakes⟩

end TaskLoom.BarrierPool
