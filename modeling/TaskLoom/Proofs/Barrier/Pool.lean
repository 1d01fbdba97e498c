import Mathlib.Data.List.Nodup
import Mathlib.Data.List.Perm.Subperm
import Mathlib.Data.List.TakeWhile
import TaskLoom.Barrier.Holdings
import TaskLoom.Proofs.Word

/-!
# Barrier slots that are taken and returned

A pool is *consistent* if its ranking lists the vacancies of its table in order.
What tasks hold is *balanced* if the free slots of a barrier and those that tasks
hold on it are all of its slots.  Taking and returning slots keeps both.

A barrier is only taken up when no lower one is untouched.  So the barriers in use
never outnumber the tasks that hold slots by more than one, and the id that stands
for "none" is never taken for a barrier.

## Main results

* `Consistent.update` — changing one barrier keeps the ranking in order.
* `Consistent.pick_eq_some`, `pick_eq_none_iff` — which barrier is chosen.
* `Balanced.acquire`, `Balanced.release` — what taking and returning slots does.
* `Balanced.slots_le` — no barrier is held beyond its slots.
-/

namespace TaskLoom

namespace Vacancy

theorem before_trans {a b c : Vacancy} (hab : a.before b = true) (hbc : b.before c = true) :
    a.before c = true := by
  simp only [before, Bool.or_eq_true, Bool.and_eq_true, decide_eq_true_eq, beq_iff_eq,
    Bool.not_eq_true'] at *
  grind

theorem before_irrefl (a : Vacancy) : a.before a = false := by
  simp [before]

/-- Vacancies of different barriers are ordered. -/
theorem before_total {a b : Vacancy} (hne : a.barrier ≠ b.barrier) (h : ¬ a.before b = true) :
    b.before a = true := by
  simp only [before, Bool.or_eq_true, Bool.and_eq_true, decide_eq_true_eq, beq_iff_eq,
    Bool.not_eq_true'] at *
  grind

/-- Of two barriers in use, the one ranked first has fewer free slots, or as many and the
lower number. -/
theorem tighter_of_before {a b : Vacancy} (ha : a.inUse = true) (hb : b.inUse = true)
    (h : a.before b = true) :
    a.available < b.available ∨ a.available = b.available ∧ a.barrier ≤ b.barrier := by
  simp only [before, ha, hb, Bool.or_eq_true, Bool.and_eq_true, decide_eq_true_eq, beq_iff_eq,
    Bool.not_true, Bool.false_and, Bool.false_eq_true, false_or, true_and] at h
  omega

end Vacancy

namespace BarrierPool

variable {p : BarrierPool}

/-- The ranking lists the vacancies of the table in order, and the table has the
barriers in order. -/
structure Consistent (p : BarrierPool) : Prop where
  barrier_eq : ∀ (i : Nat) (k : Vacancy), p.vacancies[i]? = some k → k.barrier = i + 1
  inUse_iff : ∀ k ∈ p.vacancies, k.inUse = true ↔ k.available < p.maxSlots
  available_le : ∀ k ∈ p.vacancies, k.available ≤ p.maxSlots
  mem_ranking : ∀ k, k ∈ p.ranking ↔ k ∈ p.vacancies
  ranked : p.ranking.Pairwise fun a b => a.before b = true

theorem consistent_create {count slots : Nat} (h : create count slots = .ok p) :
    p.Consistent ∧ p.count = count ∧ p.maxSlots = slots ∧
      ∀ k ∈ p.vacancies, k.available = slots := by
  unfold create at h
  split at h
  · cases h
  · obtain rfl := Except.ok.inj h
    refine ⟨⟨?_, ?_, ?_, fun _ => Iff.rfl, ?_⟩, by simp [BarrierPool.count], rfl, by simp⟩
    · intro i k hget
      rw [List.getElem?_map] at hget
      obtain ⟨j, hj, rfl⟩ := Option.map_eq_some_iff.1 hget
      obtain ⟨hlt, rfl⟩ := List.getElem?_eq_some_iff.1 hj
      simp
    · simp
    · simp
    · simp only [List.pairwise_map]
      refine List.pairwise_lt_range.imp ?_
      intro i j hij
      simp [Vacancy.before, hij]

theorem Consistent.nodup_ranking (h : p.Consistent) : p.ranking.Nodup := by
  refine h.ranked.imp fun {a b} hab heq => ?_
  subst heq
  rw [Vacancy.before_irrefl] at hab
  cases hab

/-- Vacancies of one barrier are the same. -/
theorem Consistent.eq_of_barrier_eq (h : p.Consistent) {a b : Vacancy} (ha : a ∈ p.vacancies)
    (hb : b ∈ p.vacancies) (heq : a.barrier = b.barrier) : a = b := by
  obtain ⟨i, hi⟩ := List.mem_iff_getElem?.1 ha
  obtain ⟨j, hj⟩ := List.mem_iff_getElem?.1 hb
  have hi' := h.barrier_eq i a hi
  have hj' := h.barrier_eq j b hj
  obtain rfl : i = j := by omega
  exact Option.some.inj (hi.symm.trans hj)

/-- The vacancy of a barrier of the pool. -/
theorem Consistent.vacancy_eq_ok (h : p.Consistent) {k : Vacancy} (hk : k ∈ p.vacancies) :
    p.vacancy ⟨k.barrier⟩ = .ok k := by
  obtain ⟨i, hi⟩ := List.mem_iff_getElem?.1 hk
  simp [vacancy, h.barrier_eq i k hi, hi]

/-! ## Ranking -/

theorem mem_place {k x : Vacancy} {ranking : List Vacancy} :
    x ∈ place k ranking ↔ x = k ∨ x ∈ ranking := by
  induction ranking with
  | nil => simp [place]
  | cons k' rest ih =>
    unfold place
    split
    · simp
    · split
      · next heq => simp [heq]
      · simp only [List.mem_cons, ih]
        tauto

/-- Placing keeps a ranking of other barriers in order. -/
theorem pairwise_place {k : Vacancy} {ranking : List Vacancy}
    (hranked : ranking.Pairwise fun a b => a.before b = true)
    (hother : ∀ x ∈ ranking, x.barrier ≠ k.barrier) :
    (place k ranking).Pairwise fun a b => a.before b = true := by
  induction ranking with
  | nil => simp [place]
  | cons k' rest ih =>
    obtain ⟨hfirst, hrest⟩ := List.pairwise_cons.1 hranked
    obtain ⟨hne, hother⟩ := List.forall_mem_cons.1 hother
    unfold place
    split
    · next hbefore =>
      refine List.pairwise_cons.2 ⟨List.forall_mem_cons.2 ⟨hbefore, fun x hx => ?_⟩, hranked⟩
      exact Vacancy.before_trans hbefore (hfirst x hx)
    · next hbefore =>
      split
      · exact hranked
      · refine List.pairwise_cons.2 ⟨fun x hx => ?_, ih hrest hother⟩
        rcases mem_place.1 hx with rfl | hx
        · exact Vacancy.before_total hne.symm hbefore
        · exact hfirst x hx

/-- What a table lists after the vacancy of one barrier was replaced. -/
theorem Consistent.mem_set (h : p.Consistent) {i : Nat} {k : Vacancy}
    (hi : p.vacancies[i]? = some k) (new x : Vacancy) :
    x ∈ p.vacancies.set i new ↔ x = new ∨ x ∈ p.vacancies ∧ x ≠ k := by
  have hlt : i < p.vacancies.length := (List.getElem?_eq_some_iff.1 hi).1
  constructor
  · intro hx
    obtain ⟨j, hj⟩ := List.mem_iff_getElem?.1 hx
    by_cases hij : i = j
    · rw [← hij, List.getElem?_set_self hlt] at hj
      exact Or.inl (Option.some.inj hj).symm
    · rw [List.getElem?_set_ne hij] at hj
      refine Or.inr ⟨List.mem_of_getElem? hj, ?_⟩
      rintro rfl
      have hj' := h.barrier_eq j x hj
      have hi' := h.barrier_eq i x hi
      omega
  · rintro (rfl | ⟨hx, hne⟩)
    · exact List.mem_set hlt x
    · obtain ⟨j, hj⟩ := List.mem_iff_getElem?.1 hx
      have hij : i ≠ j := by
        rintro rfl
        exact hne (Option.some.inj (hj.symm.trans hi))
      apply List.mem_of_getElem?
      rw [List.getElem?_set_ne hij]
      exact hj

/-- Changing one barrier keeps a pool consistent. -/
theorem Consistent.update (h : p.Consistent) {k : Vacancy} (hk : k ∈ p.vacancies)
    {available : Nat} (havailable : available ≤ p.maxSlots) :
    ∃ p', p.update ⟨k.barrier⟩ available = .ok (true, p') ∧ p'.Consistent ∧
      p'.maxSlots = p.maxSlots ∧
      p'.vacancies = p.vacancies.set (k.barrier - 1)
        ⟨available, decide (available < p.maxSlots), k.barrier⟩ := by
  obtain ⟨i, hi⟩ := List.mem_iff_getElem?.1 hk
  have hbarrier := h.barrier_eq i k hi
  have hindex : k.barrier - 1 = i := by omega
  let new : Vacancy := ⟨available, decide (available < p.maxSlots), k.barrier⟩
  have hmem := h.mem_set hi new
  refine ⟨{ p with
    ranking := place new (p.ranking.erase k)
    vacancies := p.vacancies.set i new },
    ?_, ⟨?_, ?_, ?_, ?_, ?_⟩, rfl, by rw [hindex]⟩
  · have hranked : p.ranking.contains k = true := by simpa using (h.mem_ranking k).2 hk
    simp only [BarrierPool.update, h.vacancy_eq_ok hk, hranked, hindex, bind, Except.bind, pure,
      Except.pure, new]
  · intro j x hx
    rw [List.getElem?_set] at hx
    split at hx
    · next heq =>
      subst heq
      obtain rfl : new = x := by
        split at hx
        · exact Option.some.inj hx
        · cases hx
      exact hbarrier
    · exact h.barrier_eq j x hx
  · intro x hx
    rcases (hmem x).1 hx with rfl | ⟨hx, -⟩
    · simp [new]
    · exact h.inUse_iff x hx
  · intro x hx
    rcases (hmem x).1 hx with rfl | ⟨hx, -⟩
    · exact havailable
    · exact h.available_le x hx
  · intro x
    rw [mem_place, h.nodup_ranking.mem_erase_iff, h.mem_ranking, hmem, and_comm]
  · refine pairwise_place (h.ranked.sublist List.erase_sublist) ?_
    intro x hx heq
    obtain ⟨hne, hx⟩ := h.nodup_ranking.mem_erase_iff.1 hx
    exact hne (h.eq_of_barrier_eq ((h.mem_ranking x).1 hx) hk heq)

/-! ## Choosing -/

/-- Untouched barriers have all slots free. -/
theorem Consistent.available_eq (h : p.Consistent) {k : Vacancy} (hk : k ∈ p.vacancies)
    (huntouched : k.inUse = false) : k.available = p.maxSlots := by
  have hle := h.available_le k hk
  have hnot : ¬ k.available < p.maxSlots := by
    rw [← h.inUse_iff k hk, huntouched]
    exact Bool.false_ne_true
  omega

/-- Of two untouched barriers, the one ranked first has the lower number. -/
theorem Consistent.barrier_lt_of_before (h : p.Consistent) {a b : Vacancy} (ha : a ∈ p.vacancies)
    (hb : b ∈ p.vacancies) (ha' : a.inUse = false) (hb' : b.inUse = false)
    (hbefore : a.before b = true) : a.barrier < b.barrier := by
  have heq : a.available = b.available := (h.available_eq ha ha').trans (h.available_eq hb hb').symm
  simpa [Vacancy.before, heq, ha', hb'] using hbefore

theorem pick_eq_none_iff (h : p.Consistent) {demand : Nat} :
    p.pick demand = none ↔ ∀ k ∈ p.vacancies, k.available < demand := by
  have hnil : p.pick demand = none ↔ p.ranking.dropWhile (·.available < demand) = [] := by
    unfold pick
    split
    · next hdrop => simp [hdrop]
    · next first later hdrop =>
      rw [hdrop]
      split <;> simp
  rw [hnil, List.dropWhile_eq_nil_iff]
  simp only [decide_eq_true_eq, h.mem_ranking]

/-- The part of the ranking from the first barrier with room for a demand on has all
barriers with room for it. -/
theorem Consistent.dropWhile_spec (h : p.Consistent) {demand : Nat} {first : Vacancy}
    {later : List Vacancy}
    (hdrop : p.ranking.dropWhile (·.available < demand) = first :: later) :
    demand ≤ first.available ∧ (∀ x ∈ first :: later, x ∈ p.vacancies) ∧
      ((first :: later).Pairwise fun a b => a.before b = true) ∧
      ∀ x ∈ p.vacancies, demand ≤ x.available → x ∈ first :: later := by
  have hsplit : p.ranking.takeWhile (·.available < demand) ++ first :: later = p.ranking := by
    rw [← hdrop]
    exact List.takeWhile_append_dropWhile
  have hfirst : demand ≤ first.available := by
    have hhead := List.head?_dropWhile_not (fun k : Vacancy => k.available < demand) p.ranking
    rw [hdrop] at hhead
    simp only [List.head?_cons, decide_eq_false_iff_not] at hhead
    omega
  have hmem : ∀ x ∈ first :: later, x ∈ p.vacancies := by
    intro x hx
    rw [← h.mem_ranking, ← hsplit]
    exact List.mem_append_right _ hx
  refine ⟨hfirst, hmem, ?_, ?_⟩
  · have hpairs := h.ranked
    rw [← hsplit] at hpairs
    exact (List.pairwise_append.1 hpairs).2.1
  · intro x hx hroom
    have hxr := (h.mem_ranking x).2 hx
    rw [← hsplit] at hxr
    rcases List.mem_append.1 hxr with hxr | hxr
    · have hlt := List.all_eq_true.1 List.all_takeWhile x hxr
      simp only [decide_eq_true_eq] at hlt
      omega
    · exact hxr

/-- The first untouched barrier of a ranking is its lowest untouched one. -/
theorem Consistent.le_of_find?_eq_some (h : p.Consistent) {ranking : List Vacancy}
    (hmem : ∀ x ∈ ranking, x ∈ p.vacancies)
    (hranked : ranking.Pairwise fun a b => a.before b = true) {k x : Vacancy}
    (hfind : ranking.find? (!·.inUse) = some k) (hx : x ∈ ranking) (hxu : x.inUse = false) :
    k.barrier ≤ x.barrier := by
  have hk := hmem k (List.mem_of_find?_eq_some hfind)
  obtain ⟨hku, before, after, rfl, hbefore⟩ := List.find?_eq_some_iff_append.1 hfind
  simp only [Bool.not_eq_true'] at hku
  rcases List.mem_append.1 hx with hxb | hxa
  · have hxu' := hbefore x hxb
    simp [hxu] at hxu'
  · rcases List.mem_cons.1 hxa with rfl | hxa
    · exact Nat.le_refl _
    · have hlater := (List.pairwise_cons.1 (List.pairwise_append.1 hranked).2.1).1 x hxa
      exact Nat.le_of_lt (h.barrier_lt_of_before hk (hmem x hx) hku hxu hlater)

/-- Of the barriers with room the first untouched one is chosen, or else the first. -/
theorem pick_eq {demand : Nat} {first : Vacancy} {later : List Vacancy}
    (hdrop : p.ranking.dropWhile (·.available < demand) = first :: later) :
    p.pick demand = some ⟨(((first :: later).find? (!·.inUse)).getD first).barrier⟩ := by
  unfold pick
  rw [hdrop]
  by_cases hused : first.inUse = true
  · simp [hused]
  · simp [hused]

/-- A chosen barrier has room.  It is the lowest untouched one; or else all barriers with
room are in use, and it is the tightest fit and the lowest of these. -/
theorem Consistent.pick_eq_some (h : p.Consistent) {demand : Nat} {b : BarrierId}
    (hpick : p.pick demand = some b) :
    ∃ k ∈ p.vacancies, b = ⟨k.barrier⟩ ∧ demand ≤ k.available ∧
      ((k.inUse = false ∧ ∀ x ∈ p.vacancies, x.inUse = false → k.barrier ≤ x.barrier) ∨
        ∀ x ∈ p.vacancies, demand ≤ x.available → x.inUse = true ∧
          (k.available < x.available ∨ k.available = x.available ∧ k.barrier ≤ x.barrier)) := by
  cases hdrop : p.ranking.dropWhile (·.available < demand) with
  | nil =>
    unfold pick at hpick
    rw [hdrop] at hpick
    cases hpick
  | cons first later =>
    obtain ⟨hfirst, hmem, hranked, hoffers⟩ := h.dropWhile_spec hdrop
    rw [pick_eq hdrop] at hpick
    obtain rfl := Option.some.inj hpick
    have hmemFirst := hmem first List.mem_cons_self
    cases hfind : (first :: later).find? (!·.inUse) with
    | none =>
      refine ⟨first, hmemFirst, rfl, hfirst, Or.inr fun x hx hroom => ?_⟩
      have hused : ∀ y ∈ first :: later, y.inUse = true := fun y hy => by
        simpa using List.find?_eq_none.1 hfind y hy
      have hxu := hused x (hoffers x hx hroom)
      refine ⟨hxu, ?_⟩
      rcases List.mem_cons.1 (hoffers x hx hroom) with rfl | hlater
      · exact Or.inr ⟨rfl, Nat.le_refl _⟩
      · exact Vacancy.tighter_of_before (hused first List.mem_cons_self) hxu
          ((List.pairwise_cons.1 hranked).1 x hlater)
    | some k =>
      have hk := List.mem_of_find?_eq_some hfind
      have hku : k.inUse = false := by simpa using List.find?_some hfind
      -- no barrier has more free slots than an untouched one
      have hroom : ∀ x ∈ p.vacancies, x.inUse = false → demand ≤ x.available := by
        intro x hx hxu
        rw [h.available_eq hx hxu]
        exact Nat.le_trans hfirst (h.available_le first hmemFirst)
      refine ⟨k, hmem k hk, rfl, hroom k (hmem k hk) hku, Or.inl ⟨hku, fun x hx hxu => ?_⟩⟩
      exact h.le_of_find?_eq_some hmem hranked hfind (hoffers x hx (hroom x hx hxu)) hxu

end BarrierPool

namespace Holdings

variable {h : Holdings}

/-! ## Balance -/

/-- The slots that tasks hold on one barrier. -/
def slotsOn (held : List (Nat × Holding)) (number : Nat) : Nat :=
  Word.total ((held.filter (·.2.barrier.number == number)).map (·.2.slots))

theorem slotsOn_cons (x : Nat × Holding) (held : List (Nat × Holding)) (number : Nat) :
    slotsOn (x :: held) number =
      (if x.2.barrier.number = number then x.2.slots else 0) + slotsOn held number := by
  unfold slotsOn
  by_cases heq : x.2.barrier.number = number <;> simp [heq]

theorem slotsOn_perm {held held' : List (Nat × Holding)} (hperm : held.Perm held')
    (number : Nat) : slotsOn held number = slotsOn held' number :=
  Word.total_perm ((hperm.filter _).map _)

theorem exists_of_slotsOn_pos {held : List (Nat × Holding)} {number : Nat}
    (hpos : 0 < slotsOn held number) : ∃ x ∈ held, x.2.barrier.number = number := by
  by_contra hnone
  have hnil : held.filter (·.2.barrier.number == number) = [] := by
    refine List.filter_eq_nil_iff.2 fun x hx => ?_
    simp only [beq_iff_eq]
    exact fun heq => hnone ⟨x, hx, heq⟩
  rw [slotsOn, hnil] at hpos
  exact Nat.lt_irrefl 0 hpos

/-- The free slots of every barrier and those that tasks hold on it are all of its
slots; no barrier above `limit` is held. -/
structure Balanced (limit : Nat) (h : Holdings) : Prop where
  consistent : h.pool.Consistent
  nodup : (h.held.map (·.1)).Nodup
  barrier_mem : ∀ x ∈ h.held, ∃ k ∈ h.pool.vacancies, k.barrier = x.2.barrier.number
  number_le : ∀ x ∈ h.held, x.2.barrier.number ≤ limit
  balance : ∀ k ∈ h.pool.vacancies, k.available + slotsOn h.held k.barrier = h.pool.maxSlots

theorem balanced_create {count slots : Nat} (limit : Nat) (hcreate : create count slots = .ok h) :
    h.Balanced limit ∧ h.held = [] ∧ h.pool.count = count ∧ h.pool.maxSlots = slots := by
  unfold create at hcreate
  cases hpool : BarrierPool.create count slots with
  | error fault => simp [hpool, bind, Except.bind] at hcreate
  | ok pool =>
    simp only [hpool, bind, Except.bind, pure, Except.pure, Except.ok.injEq] at hcreate
    subst hcreate
    obtain ⟨hconsistent, hcount, hslots, hfree⟩ := BarrierPool.consistent_create hpool
    refine ⟨⟨hconsistent, List.nodup_nil, by simp, by simp, ?_⟩, rfl, hcount, hslots⟩
    intro k hk
    simp [hfree k hk, hslots, slotsOn]

/-- No barrier is held beyond its slots. -/
theorem Balanced.slots_le {limit : Nat} (hb : h.Balanced limit) (number : Nat) :
    slotsOn h.held number ≤ h.pool.maxSlots := by
  by_cases hpos : 0 < slotsOn h.held number
  · obtain ⟨x, hx, rfl⟩ := exists_of_slotsOn_pos hpos
    obtain ⟨k, hk, hnumber⟩ := hb.barrier_mem x hx
    have hbalance := hb.balance k hk
    rw [hnumber] at hbalance
    omega
  · omega

/-- Held barriers are barriers of the pool. -/
theorem Balanced.number_mem {limit : Nat} (hb : h.Balanced limit) {x : Nat × Holding}
    (hx : x ∈ h.held) : 1 ≤ x.2.barrier.number ∧ x.2.barrier.number ≤ h.pool.count := by
  obtain ⟨k, hk, hnumber⟩ := hb.barrier_mem x hx
  obtain ⟨i, hi⟩ := List.mem_iff_getElem?.1 hk
  have hlt := (List.getElem?_eq_some_iff.1 hi).1
  have hbarrier := hb.consistent.barrier_eq i k hi
  unfold BarrierPool.count
  omega

/-- A barrier in use is held by some task. -/
theorem Balanced.exists_held {limit : Nat} (hb : h.Balanced limit) {k : Vacancy}
    (hk : k ∈ h.pool.vacancies) (hused : k.inUse = true) :
    ∃ x ∈ h.held, x.2.barrier.number = k.barrier := by
  have hlt := (hb.consistent.inUse_iff k hk).1 hused
  have hbalance := hb.balance k hk
  exact exists_of_slotsOn_pos (by omega)

/-- The lowest untouched barrier is at most one above the number of holders. -/
theorem Balanced.barrier_le_of_lowest {limit : Nat} (hb : h.Balanced limit) {k : Vacancy}
    (hk : k ∈ h.pool.vacancies)
    (hlowest : ∀ x ∈ h.pool.vacancies, x.inUse = false → k.barrier ≤ x.barrier) :
    k.barrier ≤ h.held.length + 1 := by
  -- every lower barrier is held
  have hsub : List.range' 1 (k.barrier - 1) ⊆ h.held.map (·.2.barrier.number) := by
    intro number hnumber
    rw [List.mem_range'_1] at hnumber
    obtain ⟨i, hi⟩ := List.mem_iff_getElem?.1 hk
    have hlt := (List.getElem?_eq_some_iff.1 hi).1
    have hbarrier := hb.consistent.barrier_eq i k hi
    obtain ⟨x, hx⟩ : ∃ x, h.pool.vacancies[number - 1]? = some x :=
      ⟨_, List.getElem?_eq_getElem (by omega)⟩
    have hxbarrier := hb.consistent.barrier_eq _ x hx
    have hxmem := List.mem_of_getElem? hx
    have hused : x.inUse = true := by
      by_contra hnot
      have hle := hlowest x hxmem (by simpa using hnot)
      omega
    obtain ⟨y, hy, hynumber⟩ := hb.exists_held hxmem hused
    refine List.mem_map.2 ⟨y, hy, ?_⟩
    omega
  have hnodup : (List.range' 1 (k.barrier - 1)).Nodup := List.nodup_range'
  have hle := (hnodup.subperm hsub).length_le
  rw [List.length_range', List.length_map] at hle
  omega

/-! ## Taking and returning slots -/

/-- Removing the entry of a task leaves the others. -/
theorem perm_cons_filter {held : List (Nat × Holding)} (hnodup : (held.map (·.1)).Nodup)
    {x : Nat × Holding} (hx : x ∈ held) :
    held.Perm (x :: held.filter (·.1 != x.1)) := by
  induction held with
  | nil => cases hx
  | cons y held ih =>
    rw [List.map_cons, List.nodup_cons] at hnodup
    obtain ⟨hy, hnodup⟩ := hnodup
    rcases List.mem_cons.1 hx with rfl | hx
    · have hsame : held.filter (·.1 != x.1) = held := by
        refine List.filter_eq_self.2 fun z hz => ?_
        have hne : z.1 ≠ x.1 := fun heq => hy (List.mem_map.2 ⟨z, hz, heq⟩)
        simpa using hne
      rw [List.filter_cons_of_neg (by simp), hsame]
    · have hne : y.1 ≠ x.1 := fun heq => hy (List.mem_map.2 ⟨x, hx, heq.symm⟩)
      rw [List.filter_cons_of_pos (by simpa using hne)]
      exact ((ih hnodup hx).cons y).trans (.swap x y _)

theorem find?_eq_none_iff {task : Nat} : h.find? task = none ↔ task ∉ h.held.map (·.1) := by
  simp only [find?, Option.map_eq_none_iff, List.find?_eq_none, List.mem_map, beq_iff_eq,
    not_exists, not_and]

theorem find?_eq_some {limit : Nat} (hb : h.Balanced limit) {x : Nat × Holding}
    (hx : x ∈ h.held) : h.find? x.1 = some x.2 := by
  cases hfind : h.held.find? (·.1 == x.1) with
  | none =>
    have hnone := List.find?_eq_none.1 hfind x hx
    simp at hnone
  | some y =>
    have hy := List.mem_of_find?_eq_some hfind
    have htask : y.1 = x.1 := by simpa using List.find?_some hfind
    have hyx : y = x := List.inj_on_of_nodup_map hb.nodup hy hx htask
    simp [find?, hfind, hyx]

section Change

variable {limit : Nat}

/-- The balance after one barrier and its holders change alike. -/
theorem Balanced.of_update (hb : h.Balanced limit) {k : Vacancy} (hk : k ∈ h.pool.vacancies)
    {pool : BarrierPool} {available : Nat} {held : List (Nat × Holding)}
    (hconsistent : pool.Consistent) (hmax : pool.maxSlots = h.pool.maxSlots)
    (hvacancies : pool.vacancies = h.pool.vacancies.set (k.barrier - 1)
      ⟨available, decide (available < h.pool.maxSlots), k.barrier⟩)
    (hnodup : (held.map (·.1)).Nodup)
    (hheld : ∀ x ∈ held, x ∈ h.held ∨ x.2.barrier.number = k.barrier ∧ k.barrier ≤ limit)
    (hsame : ∀ number, number ≠ k.barrier → slotsOn held number = slotsOn h.held number)
    (hsum : available + slotsOn held k.barrier = h.pool.maxSlots) :
    Balanced limit ⟨pool, held⟩ := by
  obtain ⟨i, hi⟩ := List.mem_iff_getElem?.1 hk
  have hbarrier := hb.consistent.barrier_eq i k hi
  have hlt : i < h.pool.vacancies.length := (List.getElem?_eq_some_iff.1 hi).1
  rw [show k.barrier - 1 = i by omega] at hvacancies
  have hget : ∀ (j : Nat) (x : Vacancy), h.pool.vacancies[j]? = some x →
      ∃ y : Vacancy, pool.vacancies[j]? = some y ∧ y.barrier = x.barrier := by
    intro j x hx
    rw [hvacancies, List.getElem?_set]
    split
    · next heq =>
      subst heq
      obtain rfl := Option.some.inj (hi.symm.trans hx)
      exact ⟨_, rfl, rfl⟩
    · exact ⟨x, hx, rfl⟩
  refine ⟨hconsistent, hnodup, ?_, ?_, ?_⟩
  · intro x hx
    have hold : ∃ y ∈ h.pool.vacancies, y.barrier = x.2.barrier.number := by
      rcases hheld x hx with hx | ⟨hx, -⟩
      · exact hb.barrier_mem x hx
      · exact ⟨k, hk, hx.symm⟩
    obtain ⟨y, hy, hynumber⟩ := hold
    obtain ⟨j, hj⟩ := List.mem_iff_getElem?.1 hy
    obtain ⟨z, hz, hzbarrier⟩ := hget j y hj
    exact ⟨z, List.mem_of_getElem? hz, hzbarrier.trans hynumber⟩
  · intro x hx
    rcases hheld x hx with hx | ⟨hx, hle⟩
    · exact hb.number_le x hx
    · omega
  · intro x hx
    obtain ⟨j, hj⟩ := List.mem_iff_getElem?.1 hx
    rw [hvacancies, List.getElem?_set] at hj
    show x.available + slotsOn held x.barrier = pool.maxSlots
    rw [hmax]
    split at hj
    · obtain rfl := Option.some.inj hj
      exact hsum
    · next hne =>
      have hxbarrier := hb.consistent.barrier_eq j x hj
      rw [hsame x.barrier (by omega)]
      exact hb.balance x (List.mem_of_getElem? hj)

/-- With room for its demand, a task takes slots on a barrier. -/
theorem Balanced.acquire (hb : h.Balanced limit) {task demand : Nat}
    (hfree : task ∉ h.held.map (·.1)) (hroom : h.hasRoom demand = true)
    (hlength : h.held.length < limit) (hlimit : limit < Word.bound - 1) :
    ∃ b h', h.acquire task demand = .ok (true, h') ∧ h'.Balanced limit ∧
      h'.held = (task, ⟨b, demand⟩) :: h.held ∧ h'.pool.maxSlots = h.pool.maxSlots ∧
      h'.pool.count = h.pool.count := by
  obtain ⟨b, hpick⟩ := Option.isSome_iff_exists.1 hroom
  obtain ⟨k, hk, rfl, hdemand, hchoice⟩ := hb.consistent.pick_eq_some hpick
  have hle : k.barrier ≤ limit := by
    rcases hchoice with ⟨-, hlowest⟩ | hused
    · have hx' := hb.barrier_le_of_lowest hk hlowest
      omega
    · obtain ⟨x, hx, hnumber⟩ := hb.exists_held hk (hused k hk hdemand).1
      have hx' := hb.number_le x hx
      omega
  have hbalance := hb.balance k hk
  have havailable := hb.consistent.available_le k hk
  obtain ⟨pool, hupdate, hconsistent, hmax, hvacancies⟩ :=
    hb.consistent.update hk (by omega : k.available - demand ≤ h.pool.maxSlots)
  refine ⟨⟨k.barrier⟩, ⟨pool, (task, ⟨⟨k.barrier⟩, demand⟩) :: h.held⟩, ?_, ?_, rfl, hmax, ?_⟩
  · have hvalid : (⟨k.barrier⟩ : BarrierId).isValid = true := by
      have hne : k.barrier ≠ Word.bound - 1 := by omega
      simpa [BarrierId.isValid, BarrierId.invalid] using hne
    have hassign : h.pool.assign demand = .ok (⟨k.barrier⟩, pool) := by
      simp [BarrierPool.assign, hpick, BarrierPool.assignTo, hb.consistent.vacancy_eq_ok hk,
        hdemand, hupdate, bind, Except.bind, pure, Except.pure]
    simp [Holdings.acquire, find?_eq_none_iff.2 hfree, hassign, hvalid, bind, Except.bind, pure,
      Except.pure]
  · refine hb.of_update hk hconsistent hmax hvacancies ?_ ?_ ?_ ?_
    · exact List.nodup_cons.2 ⟨hfree, hb.nodup⟩
    · intro x hx
      rcases List.mem_cons.1 hx with rfl | hx
      · exact Or.inr ⟨rfl, hle⟩
      · exact Or.inl hx
    · intro number hne
      simp [slotsOn_cons, Ne.symm hne]
    · simp only [slotsOn_cons, if_true]
      omega
  · simp [BarrierPool.count, hvacancies]

/-- A task that holds slots returns them. -/
theorem Balanced.release (hb : h.Balanced limit) (hmaxSlots : h.pool.maxSlots < Word.bound)
    {x : Nat × Holding} (hx : x ∈ h.held) :
    ∃ h', h.release x.1 = .ok (true, h') ∧ h'.Balanced limit ∧
      h'.held = h.held.filter (·.1 != x.1) ∧ h'.pool.maxSlots = h.pool.maxSlots ∧
      h'.pool.count = h.pool.count := by
  obtain ⟨k, hk, hnumber⟩ := hb.barrier_mem x hx
  have hperm := perm_cons_filter hb.nodup hx
  have hslots : ∀ number, slotsOn h.held number =
      (if x.2.barrier.number = number then x.2.slots else 0) +
        slotsOn (h.held.filter (·.1 != x.1)) number := fun number =>
    (slotsOn_perm hperm number).trans (slotsOn_cons x _ number)
  have hbalance := hb.balance k hk
  rw [hslots, if_pos hnumber.symm] at hbalance
  obtain ⟨pool, hupdate, hconsistent, hmax, hvacancies⟩ :=
    hb.consistent.update hk (by omega : k.available + x.2.slots ≤ h.pool.maxSlots)
  refine ⟨⟨pool, h.held.filter (·.1 != x.1)⟩, ?_, ?_, rfl, hmax, ?_⟩
  · have hbarrier : x.2.barrier = ⟨k.barrier⟩ := by
      rw [hnumber]
    have hadd : Word.add k.available x.2.slots = .ok (k.available + x.2.slots) :=
      Word.add_eq_ok_iff.2 ⟨by omega, rfl⟩
    have hle : k.available + x.2.slots ≤ h.pool.maxSlots := by omega
    have hunassign : h.pool.unassign x.2.barrier x.2.slots = .ok (true, pool) := by
      rw [hbarrier]
      simp only [BarrierPool.unassign, hb.consistent.vacancy_eq_ok hk, hadd, hle, if_true, hupdate,
        bind, Except.bind]
    simp [Holdings.release, find?_eq_some hb hx, hunassign, bind, Except.bind, pure, Except.pure]
  · refine hb.of_update hk hconsistent hmax hvacancies ?_ ?_ ?_ ?_
    · exact hb.nodup.sublist (List.filter_sublist.map _)
    · intro y hy
      exact Or.inl (List.mem_filter.1 hy).1
    · intro number hne
      rw [hslots, if_neg (by omega), Nat.zero_add]
    · omega
  · simp [BarrierPool.count, hvacancies]

end Change

/-- With nothing held, there is room for a demand that one barrier can serve. -/
theorem Balanced.hasRoom_empty {limit : Nat} (hb : h.Balanced limit) (hempty : h.held = [])
    (hcount : 0 < h.pool.count) (demand : Nat) :
    h.hasRoom demand = true ↔ demand ≤ h.pool.maxSlots := by
  have hall : ∀ k ∈ h.pool.vacancies, k.available = h.pool.maxSlots := by
    intro k hk
    have hbalance := hb.balance k hk
    rw [hempty] at hbalance
    exact hbalance
  have hroom : h.hasRoom demand = true ↔ ¬ h.pool.pick demand = none := by
    unfold Holdings.hasRoom BarrierPool.hasRoom
    cases h.pool.pick demand <;> simp
  rw [hroom, BarrierPool.pick_eq_none_iff hb.consistent]
  constructor
  · intro hnot
    by_contra hlt
    exact hnot fun k hk => by rw [hall k hk]; omega
  · intro hle hlt
    obtain ⟨k, hk⟩ := List.exists_mem_of_length_pos hcount
    have hk' := hlt k hk
    rw [hall k hk] at hk'
    omega

end Holdings

end TaskLoom
