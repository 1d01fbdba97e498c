import TaskLoom.Proofs.Memory.Sessions

/-!
# Giving back any range

A user may give back bytes that were never handed out as one range: part of a live range,
several live ranges at once, or bytes that are free already.  Before it changes anything,
the allocator looks at the two free ranges around the start of what is given back.  Since
the free list is ascending, no other free range is closer, so the allocator finds a shared
byte wherever there is one.

What shares no byte with the free ranges is in use, and it makes no difference how it was
handed out: the bytes in use can be divided into live ranges in any way, also so that the
given range is one of them.  So giving it back is giving back a live range.

## Main results

* `apart_of_clear` — looking at two neighbours is enough.
* `Holds.redivide`, `Holds.exists_cons` — bytes that are not free can be taken for a live
  range.
* `release_of_meets`, `Holds.release_apart` — giving back any range.
* `Accounted.after` — what every call keeps.
* `release_of_reached` — giving back any range in every state that calls can reach.
-/

namespace TaskLoom

namespace ByteRange

instance (r : ByteRange) : Decidable r.Solid :=
  inferInstanceAs (Decidable (_ < _))

instance (r q : ByteRange) : Decidable (r.Apart q) :=
  inferInstanceAs (Decidable (_ ∨ _))

/-! ## Single bytes -/

/-- Ranges of one address each. -/
def bytes (xs : List Nat) : List ByteRange :=
  xs.map fun x => ⟨x, x + 1⟩

@[simp]
theorem covers_bytes {xs : List Nat} {x : Nat} : Covers (bytes xs) x ↔ x ∈ xs := by
  constructor
  · rintro ⟨r, hr, hstart, hstop⟩
    obtain ⟨y, hy, rfl⟩ := List.mem_map.1 hr
    obtain rfl : x = y := by
      simp only at hstart hstop
      omega
    exact hy
  · intro hx
    exact ⟨⟨x, x + 1⟩, List.mem_map_of_mem hx, Nat.le_refl x, Nat.lt_succ_self x⟩

theorem solid_of_mem_bytes {xs : List Nat} {r : ByteRange} (hr : r ∈ bytes xs) : r.Solid := by
  obtain ⟨x, -, rfl⟩ := List.mem_map.1 hr
  exact Nat.lt_succ_self x

theorem apart_bytes {xs : List Nat} (hxs : xs.Pairwise (· < ·)) : (bytes xs).Pairwise Apart :=
  List.pairwise_map.2 (hxs.imp fun hlt => Or.inl hlt)

/-! ## Shared addresses -/

/-- A range shares an address with one of the ranges. -/
def Meets (r : ByteRange) (rs : List ByteRange) : Prop :=
  ∃ x, r.Contains x ∧ Covers rs x

theorem not_meets_iff {r : ByteRange} {rs : List ByteRange} (hr : r.Solid)
    (hrs : ∀ q ∈ rs, q.Solid) : ¬ r.Meets rs ↔ ∀ q ∈ rs, q.Apart r := by
  constructor
  · intro hnot q hq
    exact FirstFit.apart_of_disjoint (hrs q hq) hr fun x hxq hxr => hnot ⟨x, hxr, q, hq, hxq⟩
  · rintro hapart ⟨x, hxr, hcovers⟩
    exact FirstFit.not_covers_of_apart (fun q hq => (hapart q hq).symm) hxr hcovers

end ByteRange

namespace FirstFit

open ByteRange

variable {m : FirstFit} {live : List ByteRange} {r : ByteRange}

/-! ## The two neighbours -/

/-- If the last free range that starts below a range is clear of it, all of these are. -/
theorem stop_le_of_below {free : List ByteRange} (hfree : Canonical free)
    (hbelow : (free.takeWhile (·.start < r.start)).getLast?.all (·.stop ≤ r.start) = true)
    {f : ByteRange} (hf : f ∈ free.takeWhile (·.start < r.start)) : f.stop ≤ r.start := by
  rw [Option.all_eq_true] at hbelow
  have hsub : (free.takeWhile (·.start < r.start)).Sublist free := List.takeWhile_sublist _
  have hascending := hfree.ascending.sublist hsub
  cases hlast : (free.takeWhile (·.start < r.start)).getLast? with
  | none =>
    rw [List.getLast?_eq_none_iff.1 hlast] at hf
    cases hf
  | some last =>
    have hstop : last.stop ≤ r.start := of_decide_eq_true (hbelow last hlast)
    have hsolid : last.start < last.stop :=
      hfree.solid last (hsub.subset (List.mem_of_getLast? hlast))
    obtain ⟨init, hinit⟩ := List.getLast?_eq_some_iff.1 hlast
    rw [hinit] at hf hascending
    rcases List.mem_append.1 hf with hf | hf
    · have hgap := (List.pairwise_append.1 hascending).2.2 f hf last (List.mem_singleton_self _)
      omega
    · rw [List.mem_singleton.1 hf]
      exact hstop

/-- If the first free range that does not start below a range is clear of it, all of these
are. -/
theorem le_start_of_above {free : List ByteRange} (hfree : Canonical free)
    (habove : (free.dropWhile (·.start < r.start)).head?.all (r.stop ≤ ·.start) = true)
    {f : ByteRange} (hf : f ∈ free.dropWhile (·.start < r.start)) : r.stop ≤ f.start := by
  rw [Option.all_eq_true] at habove
  have hsub : (free.dropWhile (·.start < r.start)).Sublist free := List.dropWhile_sublist _
  cases hfirst : free.dropWhile (·.start < r.start) with
  | nil =>
    rw [hfirst] at hf
    cases hf
  | cons first rest =>
    have hstart : r.stop ≤ first.start := of_decide_eq_true (habove first (by rw [hfirst]; rfl))
    rw [hfirst] at hf hsub
    have hsolid : first.start < first.stop := hfree.solid first (hsub.subset List.mem_cons_self)
    rcases List.mem_cons.1 hf with rfl | hf
    · exact hstart
    · have hgap := (List.pairwise_cons.1 (hfree.ascending.sublist hsub)).1 f hf
      omega

/-- If the free ranges on both sides are clear of a range, all free ranges are. -/
theorem apart_of_clear {free : List ByteRange} (hfree : Canonical free)
    (hbelow : (free.takeWhile (·.start < r.start)).getLast?.all (·.stop ≤ r.start) = true)
    (habove : (free.dropWhile (·.start < r.start)).head?.all (r.stop ≤ ·.start) = true) :
    ∀ f ∈ free, f.Apart r := by
  intro f hf
  have hsplit : free.takeWhile (·.start < r.start) ++ free.dropWhile (·.start < r.start) = free :=
    List.takeWhile_append_dropWhile
  rw [← hsplit] at hf
  cases List.mem_append.1 hf with
  | inl hlow => exact Or.inl (stop_le_of_below hfree hbelow hlow)
  | inr hhigh => exact Or.inr (le_start_of_above hfree habove hhigh)

/-! ## Giving back -/

/-- A range that shares a byte with the free ranges is refused. -/
theorem release_of_meets (hfree : Canonical m.free) (hr : r.Solid) (hmeets : r.Meets m.free) :
    m.release r = .error (.broken (.alreadyFree r.start r.stop)) := by
  unfold Solid at hr
  have hclear : ¬ ((m.free.takeWhile (·.start < r.start)).getLast?.all (·.stop ≤ r.start) &&
      (m.free.dropWhile (·.start < r.start)).head?.all (r.stop ≤ ·.start)) = true := by
    rw [Bool.and_eq_true]
    rintro ⟨hbelow, habove⟩
    exact (not_meets_iff hr hfree.solid).2 (apart_of_clear hfree hbelow habove) hmeets
  unfold release
  rw [if_neg (Nat.not_le.2 hr)]
  exact if_neg hclear

/-- The bytes in use can be divided into live ranges in any way. -/
theorem Holds.redivide (h : m.Holds live) {live' : List ByteRange} (hsolid : ∀ q ∈ live', q.Solid)
    (hapart : live'.Pairwise Apart) (hcovers : ∀ x, Covers live' x ↔ Covers live x) :
    m.Holds live' := by
  have hholds : Holds { m with used := Word.total (live'.map length) } live' := by
    refine ⟨h.canonical, hsolid, hapart, ?_, ?_, rfl⟩
    · intro x hx
      rw [hcovers]
      exact h.disjoint x hx
    · intro x
      rw [hcovers]
      exact h.covers x
  -- both divisions add up to what is not free
  have hadd : Word.total (live'.map length) + Word.total (m.free.map length) = m.capacity :=
    hholds.used_add_free
  have hadd' := h.used_add_free
  exact { hholds with used_eq := by omega }

/-- The addresses in use outside a range. -/
def usedOutside (m : FirstFit) (r : ByteRange) : List Nat :=
  (List.range m.capacity).filter fun x => ¬ Covers m.free x ∧ ¬ r.Contains x

theorem mem_usedOutside {x : Nat} :
    x ∈ m.usedOutside r ↔ x < m.capacity ∧ ¬ Covers m.free x ∧ ¬ r.Contains x := by
  simp [usedOutside]

/-- Bytes that are not free can be taken for a live range. -/
theorem Holds.exists_cons (h : m.Holds live) (hr : r.Solid) (hstop : r.stop ≤ m.capacity)
    (hapart : ∀ f ∈ m.free, f.Apart r) : ∃ rest, m.Holds (r :: rest) := by
  -- all other bytes in use are taken for ranges of their own
  refine ⟨bytes (m.usedOutside r), h.redivide ?_ ?_ fun x => ?_⟩
  · exact List.forall_mem_cons.2 ⟨hr, fun q hq => solid_of_mem_bytes hq⟩
  · refine List.pairwise_cons.2 ⟨fun q hq => ?_, apart_bytes (List.pairwise_lt_range.filter _)⟩
    refine apart_of_disjoint hr (solid_of_mem_bytes hq) fun x hx hxq => ?_
    exact (mem_usedOutside.1 (covers_bytes.1 ⟨q, hq, hxq⟩)).2.2 hx
  · have hused := h.covers x
    have hdisjoint := h.disjoint x
    have hfree : r.Contains x → ¬ Covers m.free x :=
      not_covers_of_apart fun f hf => (hapart f hf).symm
    have hin : r.Contains x → x < m.capacity := fun hx => Nat.lt_of_lt_of_le hx.2 hstop
    rw [covers_cons, covers_bytes, mem_usedOutside]
    tauto

/-- A range that shares no byte with the free ranges becomes free, and nothing else does. -/
theorem Holds.release_apart (h : m.Holds live) (hr : r.Solid) (hstop : r.stop ≤ m.capacity)
    (hmeets : ¬ r.Meets m.free) :
    ∃ m' rest, m.release r = .ok m' ∧ m'.Holds rest ∧ m'.capacity = m.capacity ∧
      m'.used + r.length = m.used ∧ ∀ x, Covers m'.free x ↔ Covers m.free x ∨ r.Contains x := by
  obtain ⟨rest, hrest⟩ := h.exists_cons hr hstop ((not_meets_iff hr h.canonical.solid).1 hmeets)
  obtain ⟨m', hrelease, hholds, hcapacity, -⟩ := hrest.release
  refine ⟨m', rest, hrelease, hholds, hcapacity, ?_, fun x => ?_⟩
  · rw [hholds.used_eq, hrest.used_eq, List.map_cons, Word.total_cons, Nat.add_comm]
  · have hbefore := hrest.covers x
    have hafter := hholds.covers x
    have hdisjoint := hrest.disjoint x
    have hdisjoint' := hholds.disjoint x
    have hapart : r.Contains x → ¬ Covers rest x :=
      not_covers_of_apart (List.pairwise_cons.1 hrest.apart).1
    rw [hcapacity] at hafter
    rw [covers_cons] at hbefore hdisjoint
    tauto

/-! ## Any calls -/

open Session (Call)

/-- The allocator after a call.  A call that fails leaves it as it was. -/
def after (m : FirstFit) : Call → FirstFit
  | .reserve size =>
    match m.reserve size with
    | .ok (some (_, m')) => m'
    | _ => m
  | .release r =>
    match m.release r with
    | .ok m' => m'
    | .error _ => m

/-- A call that gives back nothing but bytes of the memory, and at least one. -/
def Keeps (capacity : Nat) : Call → Prop
  | .reserve _ => True
  | .release r => r.Solid ∧ r.stop ≤ capacity

instance (capacity : Nat) : (call : Call) → Decidable (Keeps capacity call)
  | .reserve _ => inferInstanceAs (Decidable True)
  | .release r => inferInstanceAs (Decidable (r.Solid ∧ r.stop ≤ capacity))

/-- The bytes of an allocator are free or in use, in whatever ranges. -/
def Accounted (capacity : Nat) (m : FirstFit) : Prop :=
  m.capacity = capacity ∧ ∃ live, m.Holds live

theorem Accounted.after {capacity : Nat} (h : Accounted capacity m) {call : Call}
    (hcall : Keeps capacity call) : Accounted capacity (m.after call) := by
  obtain ⟨rfl, live, hholds⟩ := h
  cases call with
  | reserve size =>
    simp only [FirstFit.after]
    split
    · next taken m' hreserve =>
      obtain ⟨-, hcapacity, -, hholds'⟩ := hholds.reserve hreserve
      exact ⟨hcapacity, _, hholds'⟩
    · exact ⟨rfl, live, hholds⟩
  | release r =>
    obtain ⟨hr, hstop⟩ := hcall
    by_cases hmeets : r.Meets m.free
    · simp only [FirstFit.after, release_of_meets hholds.canonical hr hmeets]
      exact ⟨rfl, live, hholds⟩
    · obtain ⟨m', rest, hrelease, hholds', hcapacity, -⟩ := hholds.release_apart hr hstop hmeets
      simp only [FirstFit.after, hrelease]
      exact ⟨hcapacity, rest, hholds'⟩

theorem accounted_reached {capacity : Nat} (alignment : Nat) {calls : List Call}
    (hcalls : ∀ call ∈ calls, Keeps capacity call) :
    Accounted capacity (calls.foldl after (create capacity alignment)) := by
  induction calls using List.reverseRecOn with
  | nil => exact ⟨rfl, [], holds_create capacity alignment⟩
  | append_singleton calls call ih =>
    rw [List.foldl_append]
    exact (ih fun c hc => hcalls c (List.mem_append_left _ hc)).after (hcalls call (by simp))

/-- The free list is canonical and inside the memory, and the bytes in use and the free ones
are all of it. -/
structure Tidy (capacity : Nat) (m : FirstFit) : Prop where
  canonical : Canonical m.free
  within : ∀ x, Covers m.free x → x < capacity
  used_add_free : m.used + Word.total (m.free.map length) = capacity

theorem Holds.tidy (h : m.Holds live) : Tidy m.capacity m where
  canonical := h.canonical
  within x hx := (h.covers x).2 (Or.inl hx)
  used_add_free := h.used_add_free

/-- After any calls, giving back any bytes of the memory is refused exactly if one of them is
free, and then changes nothing.  Otherwise they become free and nothing else does. -/
theorem release_of_reached (capacity alignment : Nat) {calls : List Call}
    (hcalls : ∀ call ∈ calls, Keeps capacity call) (hr : r.Solid) (hstop : r.stop ≤ capacity) :
    let m := calls.foldl after (create capacity alignment)
    Tidy capacity m ∧
    (m.release r = .error (.broken (.alreadyFree r.start r.stop)) ↔ r.Meets m.free) ∧
    (m.release r = .error (.broken (.alreadyFree r.start r.stop)) → m.after (.release r) = m) ∧
    (¬ r.Meets m.free →
      ∃ m', m.release r = .ok m' ∧ m'.used + r.length = m.used ∧ Tidy capacity m' ∧
        ∀ x, Covers m'.free x ↔ Covers m.free x ∨ r.Contains x) := by
  intro m
  obtain ⟨hcapacity, live, hholds⟩ : Accounted capacity m := accounted_reached alignment hcalls
  have happly : ¬ r.Meets m.free → ∃ m', m.release r = .ok m' ∧ m'.used + r.length = m.used ∧
      Tidy capacity m' ∧ ∀ x, Covers m'.free x ↔ Covers m.free x ∨ r.Contains x := by
    intro hmeets
    obtain ⟨m', rest, hrelease, hholds', hcapacity', hused, hcovers⟩ :=
      hholds.release_apart hr (hcapacity ▸ hstop) hmeets
    exact ⟨m', hrelease, hused, hcapacity'.trans hcapacity ▸ hholds'.tidy, hcovers⟩
  refine ⟨hcapacity ▸ hholds.tidy, ⟨fun herror => ?_, release_of_meets hholds.canonical hr⟩,
    fun herror => ?_, happly⟩
  · by_contra hmeets
    obtain ⟨m', hrelease, -⟩ := happly hmeets
    cases herror.symm.trans hrelease
  · simp only [FirstFit.after, herror]

/-- Two ranges are handed out, and the middle of both comes back as one. -/
def straddling : List Call := [.reserve 20, .reserve 16, .release ⟨8, 40⟩]

theorem keeps_straddling : ∀ call ∈ straddling, Keeps 64 call := by
  decide

/-- What reaches into the middle is refused, and what abuts it on one side and the end of the
memory on the other joins both. -/
theorem release_of_reached_straddling :
    let m := straddling.foldl after (create 64 16)
    (∀ call ∈ straddling, Keeps 64 call) ∧
    m.release ⟨4, 12⟩ = .error (.broken (.alreadyFree 4 12)) ∧
    ∃ m', m.release ⟨40, 48⟩ = .ok m' ∧ m'.used + 8 = m.used ∧ Tidy 64 m' := by
  obtain ⟨-, hrefused, -, -⟩ :=
    release_of_reached 64 16 (r := ⟨4, 12⟩) keeps_straddling (by decide) (by decide)
  obtain ⟨-, -, -, htaken⟩ :=
    release_of_reached 64 16 (r := ⟨40, 48⟩) keeps_straddling (by decide) (by decide)
  refine ⟨keeps_straddling, hrefused.2 ⟨8, by decide, by decide⟩, ?_⟩
  have hapart : ¬ Meets ⟨40, 48⟩ (straddling.foldl after (create 64 16)).free :=
    (not_meets_iff (by decide) (by decide)).2 (by decide)
  obtain ⟨m', hrelease, hused, htidy, -⟩ := htaken hapart
  exact ⟨m', hrelease, hused, htidy⟩

end FirstFit

end TaskLoom
