import TaskLoom.Proofs.Memory.Sessions

/-!
# Looking ahead

Before memory is reserved for a list of requests, the allocator is asked whether all of
them would be served, one after the other.  It finds out without serving any, and what it
says has to be what would happen.

The two computations keep different books.  Reserving shortens the free ranges and drops
those that are used up, so the positions of the others shift.  Looking ahead leaves the
free ranges where they are and only follows what remains of each.  A range that is used up
stays in its books with no room, and since a request for no bytes is served without memory,
no request ever goes there.  Both therefore come to the same range each time.

`reserve` and `canReserve` subtract natural numbers, where nothing can fall below zero.
`reserveChecked` and `replay` do the same work in checked arithmetic, `replay` with a
ledger that notes for each free range, by its position, how many bytes were taken from it.
In an allocator that is in use they never fail, so no difference was ever cut off at zero.

## Main results

* `serveAll_eq_inTurn` — what is served ahead is served in turn.
* `Holds.reserveChecked_eq`, `Holds.inTurn_checked_eq` — reserving in checked arithmetic.
* `Follows.seek` — the ledger and the rooms lead to the same range.
* `Holds.replay_eq` — looking ahead in checked arithmetic.
* `run_canReserve` — looking ahead after any run of calls.
-/

namespace TaskLoom.FirstFit

open ByteRange

/-! ## One request after the other -/

/-- How an allocator answers one request. -/
abbrev Answer := FirstFit → Nat → Except Fault (Option (ByteRange × FirstFit))

/-- Serves requests one after the other: their ranges and the allocator after the last, or
none if one of them is refused.  A request after a refused one is not looked at. -/
def inTurn (serve : Answer) : FirstFit → List Nat →
    Except Fault (Option (List ByteRange × FirstFit))
  | m, [] => .ok (some ([], m))
  | m, size :: sizes => do
    match ← serve m size with
    | none => return none
    | some (r, m) => return (← inTurn serve m sizes).map fun (rs, m) => (r :: rs, m)

section InTurn

variable {serve : Answer} {m m' : FirstFit} {size : Nat} {sizes : List Nat}

theorem inTurn_of_error {fault : Fault} (h : serve m size = .error fault) :
    inTurn serve m (size :: sizes) = .error fault := by
  simp only [inTurn, h, bind, Except.bind]

theorem inTurn_of_none (h : serve m size = .ok none) :
    inTurn serve m (size :: sizes) = .ok none := by
  simp only [inTurn, h, bind, Except.bind, pure, Except.pure]

theorem inTurn_of_some {r : ByteRange} (h : serve m size = .ok (some (r, m'))) :
    inTurn serve m (size :: sizes) =
      (inTurn serve m' sizes).map (·.map fun (rs, m) => (r :: rs, m)) := by
  simp only [inTurn, h, bind, Except.bind, pure, Except.pure]
  cases inTurn serve m' sizes <;> rfl

/-- Whether all are served, after the first was. -/
theorem isSome_inTurn_of_some {r : ByteRange} (h : serve m size = .ok (some (r, m'))) :
    (inTurn serve m (size :: sizes)).map Option.isSome =
      (inTurn serve m' sizes).map Option.isSome := by
  rw [inTurn_of_some h]
  cases inTurn serve m' sizes with
  | error fault => rfl
  | ok answer => cases answer <;> rfl

end InTurn

/-- What is served ahead, from rooms that are the lengths of the free ranges when empty
ones are left out, is what is served in turn. -/
theorem serveAll_eq_inTurn {m₀ m : FirstFit} (halignment : m.alignment = m₀.alignment)
    {rooms : List Nat} (hrooms : rooms.filter (0 < ·) = m.free.map length) (sizes : List Nat) :
    m₀.serveAll rooms sizes = (inTurn reserve m sizes).map Option.isSome := by
  induction sizes generalizing m rooms with
  | nil => rfl
  | cons size sizes ih =>
    have hsame : m.aligned size = m₀.aligned size := by
      unfold aligned
      rw [halignment]
    unfold serveAll
    cases haligned : m₀.aligned size with
    | error fault =>
      have hreserve : m.reserve size = .error fault := by
        simp only [reserve, hsame, haligned, bind, Except.bind]
      rw [inTurn_of_error hreserve]
      rfl
    | ok k =>
      simp only [bind, Except.bind]
      by_cases hzero : k = 0
      · have hreserve : m.reserve size = .ok (some (⟨0, 0⟩, m)) := by
          simp only [reserve, hsame, haligned, hzero, bind, Except.bind, pure, Except.pure,
            if_true]
        rw [if_pos hzero, isSome_inTurn_of_some hreserve]
        exact ih halignment hrooms
      · rw [if_neg hzero]
        -- the first room that is large enough is the first range that is
        have hagree := takeRoom_eq_carve (Nat.pos_of_ne_zero hzero) hrooms
        cases hcarve : carve k m.free with
        | none =>
          have hreserve : m.reserve size = .ok none := by
            simp only [reserve, hsame, haligned, hzero, hcarve, bind, Except.bind, pure,
              Except.pure, if_false]
          have htake : takeRoom k rooms = none := by simpa [hcarve] using hagree
          rw [htake, inTurn_of_none hreserve]
          rfl
        | some cut =>
          have hreserve : m.reserve size = .ok (some (cut.1, m.taking k cut.2)) := by
            simp only [reserve, hsame, haligned, hzero, hcarve, bind, Except.bind, pure,
              Except.pure, if_false, taking]
          rw [hcarve, Option.map_some, Option.map_eq_some_iff] at hagree
          obtain ⟨rooms', htake, hrooms'⟩ := hagree
          rw [htake, isSome_inTurn_of_some hreserve]
          exact ih (m := m.taking k cut.2) halignment hrooms'

/-- Looking ahead tells whether the requests would be served in turn. -/
theorem canReserve_eq_inTurn {m : FirstFit} (hfree : Canonical m.free) (sizes : List Nat) :
    m.canReserve sizes = (inTurn reserve m sizes).map Option.isSome :=
  serveAll_eq_inTurn rfl (filter_map_length hfree) sizes

/-- Requests that can be rounded up are answered. -/
theorem inTurn_reserve_ok {m : FirstFit} (hfree : Canonical m.free) {sizes : List Nat}
    (hsizes : ∀ size ∈ sizes, m.rounded size < Word.bound) :
    ∃ answer, inTurn reserve m sizes = .ok answer := by
  obtain ⟨served, hserved⟩ := serveAll_ok m hsizes (m.free.map length)
  have hahead : (inTurn reserve m sizes).map Option.isSome = .ok served :=
    (canReserve_eq_inTurn hfree sizes).symm.trans hserved
  cases hturn : inTurn reserve m sizes with
  | error fault =>
    rw [hturn] at hahead
    cases hahead
  | ok answer => exact ⟨answer, rfl⟩

/-! ## Reserving in checked arithmetic -/

/-- Cuts bytes off the first range that can hold them, in checked arithmetic. -/
def carveChecked (size : Nat) : List ByteRange →
    Except Fault (Option (ByteRange × List ByteRange))
  | [] => .ok none
  | r :: rest => do
    let length ← Word.sub r.stop r.start
    if size ≤ length then
      let stop ← Word.add r.start size
      return some (⟨r.start, stop⟩, if length = size then rest else ⟨stop, r.stop⟩ :: rest)
    else
      return (← carveChecked size rest).map fun (taken, left) => (taken, r :: left)

/-- Reserves bytes at the lowest offset that fits, in checked arithmetic. -/
def reserveChecked : Answer := fun m size => do
  let size ← m.aligned size
  if size = 0 then
    return some (⟨0, 0⟩, m)
  match ← carveChecked size m.free with
  | none => return none
  | some (taken, left) =>
    let used ← Word.add m.used size
    return some (taken, { m with free := left, used, peak := max m.peak used })

/-- Ranges that stop after they start and within the word can be cut. -/
theorem carveChecked_eq (size : Nat) {free : List ByteRange} (hsolid : ∀ r ∈ free, r.Solid)
    (hbound : ∀ r ∈ free, r.stop < Word.bound) :
    carveChecked size free = .ok (carve size free) := by
  induction free with
  | nil => rfl
  | cons r rest ih =>
    obtain ⟨hr, hsolid⟩ := List.forall_mem_cons.1 hsolid
    obtain ⟨hstop, hbound⟩ := List.forall_mem_cons.1 hbound
    unfold Solid at hr
    have hlength : Word.sub r.stop r.start = .ok r.length :=
      Word.sub_eq_ok_iff.2 ⟨Nat.le_of_lt hr, rfl⟩
    unfold carveChecked carve
    simp only [hlength, bind, Except.bind, pure, Except.pure]
    by_cases hle : size ≤ r.length
    · have hadd : Word.add r.start size = .ok (r.start + size) := by
        refine Word.add_eq_ok_iff.2 ⟨?_, rfl⟩
        unfold length at hle
        omega
      simp only [if_pos hle, hadd]
    · simp only [if_neg hle, ih hsolid hbound]

section Holds

variable {m m' : FirstFit} {live : List ByteRange}

/-- No request leaves the word in an allocator that holds live ranges of a word's memory:
what is handed out is part of the memory. -/
theorem Holds.reserveChecked_eq (h : m.Holds live) (hcapacity : m.capacity < Word.bound)
    (size : Nat) : reserveChecked m size = m.reserve size := by
  have hcut := fun k => carveChecked_eq k h.canonical.solid fun r hr =>
    Nat.lt_of_le_of_lt (h.free_stop_le hr) hcapacity
  unfold reserveChecked FirstFit.reserve
  cases m.aligned size with
  | error fault => rfl
  | ok k =>
    simp only [bind, Except.bind, pure, Except.pure]
    by_cases hzero : k = 0
    · rw [if_pos hzero, if_pos hzero]
    · rw [if_neg hzero, if_neg hzero, hcut]
      cases hcarve : carve k m.free with
      | none => rfl
      | some cut =>
        obtain ⟨taken, left⟩ := cut
        have hholds := h.cut (Nat.pos_of_ne_zero hzero) (carve_spec h.canonical hcarve) m.peak
        have hused : m.used + k ≤ m.capacity := Nat.le.intro hholds.used_add_free
        have hadd : Word.add m.used k = .ok (m.used + k) :=
          Word.add_eq_ok_iff.2 ⟨Nat.lt_of_le_of_lt hused hcapacity, rfl⟩
        simp only [hadd]

/-- The same for requests one after the other. -/
theorem Holds.inTurn_checked_eq (h : m.Holds live) (hcapacity : m.capacity < Word.bound)
    (sizes : List Nat) : inTurn reserveChecked m sizes = inTurn FirstFit.reserve m sizes := by
  induction sizes generalizing m live with
  | nil => rfl
  | cons size sizes ih =>
    have hsame := h.reserveChecked_eq hcapacity size
    cases hreserve : m.reserve size with
    | error fault => rw [inTurn_of_error hreserve, inTurn_of_error (hsame.trans hreserve)]
    | ok answer =>
      cases answer with
      | none => rw [inTurn_of_none hreserve, inTurn_of_none (hsame.trans hreserve)]
      | some served =>
        obtain ⟨r, m'⟩ := served
        obtain ⟨-, hcapacity', -, hholds⟩ := h.reserve hreserve
        rw [inTurn_of_some hreserve, inTurn_of_some (hsame.trans hreserve),
          ih hholds (by rw [hcapacity']; exact hcapacity)]

end Holds

/-! ## The ledger -/

/-- Bytes that were taken from free ranges, by the position of the range. -/
abbrev Ledger := List (Nat × Nat)

/-- The bytes that were taken from one range. -/
def Ledger.taken (ledger : Ledger) (position : Nat) : Nat :=
  ((ledger.find? (·.1 == position)).map (·.2)).getD 0

/-- Notes that bytes are taken from a range. -/
def Ledger.charge (position size : Nat) : Ledger → Except Fault Ledger
  | [] => .ok [(position, size)]
  | (other, bytes) :: rest => do
    if other = position then
      return (other, ← Word.add bytes size) :: rest
    else
      return (other, bytes) :: (← charge position size rest)

/-- The position of the first range, counted from `position`, that can hold the bytes
beside those that were taken from it. -/
def seek (ledger : Ledger) (size : Nat) : Nat → List ByteRange → Except Fault (Option Nat)
  | _, [] => .ok none
  | position, r :: rest => do
    let length ← Word.sub r.stop r.start
    let room ← Word.sub length (ledger.taken position)
    if size ≤ room then return some position else seek ledger size (position + 1) rest

/-- Looks ahead with a ledger, in checked arithmetic. -/
def replay (m : FirstFit) : Ledger → List Nat → Except Fault Bool
  | _, [] => .ok true
  | ledger, size :: sizes => do
    let size ← m.aligned size
    if size = 0 then
      m.replay ledger sizes
    else
      match ← seek ledger size 0 m.free with
      | some position => m.replay (← ledger.charge position size) sizes
      | none => return false

theorem Ledger.taken_cons (entry : Nat × Nat) (ledger : Ledger) (position : Nat) :
    taken (entry :: ledger) position =
      if entry.1 = position then entry.2 else ledger.taken position := by
  unfold taken
  by_cases heq : entry.1 = position
  · simp [heq]
  · simp [heq]

/-- Only the range that is charged has more bytes taken. -/
theorem Ledger.charge_spec {ledger : Ledger} {position size : Nat}
    (hbound : ledger.taken position + size < Word.bound) :
    ∃ ledger', ledger.charge position size = .ok ledger' ∧
      ∀ other, ledger'.taken other =
        ledger.taken other + if other = position then size else 0 := by
  induction ledger with
  | nil =>
    refine ⟨[(position, size)], rfl, fun other => ?_⟩
    rw [taken_cons]
    simp [taken, eq_comm]
  | cons entry ledger ih =>
    rw [taken_cons] at hbound
    unfold charge
    by_cases heq : entry.1 = position
    · rw [if_pos heq] at hbound
      have hadd : Word.add entry.2 size = .ok (entry.2 + size) :=
        Word.add_eq_ok_iff.2 ⟨hbound, rfl⟩
      simp only [if_pos heq, hadd, bind, Except.bind, pure, Except.pure]
      refine ⟨_, rfl, fun other => ?_⟩
      rw [taken_cons, taken_cons]
      by_cases hother : entry.1 = other
      · rw [if_pos hother, if_pos hother, if_pos (hother.symm.trans heq)]
      · rw [if_neg hother, if_neg hother, if_neg fun h => hother (heq.trans h.symm), Nat.add_zero]
    · rw [if_neg heq] at hbound
      obtain ⟨ledger', hcharge, htaken⟩ := ih hbound
      simp only [if_neg heq, hcharge, bind, Except.bind, pure, Except.pure]
      refine ⟨_, rfl, fun other => ?_⟩
      rw [taken_cons, taken_cons, htaken]
      by_cases hother : entry.1 = other
      · rw [if_pos hother, if_pos hother, if_neg fun h => heq (hother.trans h), Nat.add_zero]
      · rw [if_neg hother, if_neg hother]

/-- The rooms are what the ledger leaves of the ranges, which stand from `position` on. -/
inductive Follows (ledger : Ledger) : Nat → List ByteRange → List Nat → Prop
  | nil (position : Nat) : Follows ledger position [] []
  | cons {position room : Nat} {r : ByteRange} {free : List ByteRange} {rooms : List Nat}
      (balance : room + ledger.taken position = r.length)
      (rest : Follows ledger (position + 1) free rooms) :
      Follows ledger position (r :: free) (room :: rooms)

/-- An empty ledger leaves all of every range. -/
theorem follows_nil (position : Nat) (free : List ByteRange) :
    Follows [] position free (free.map length) := by
  induction free generalizing position with
  | nil => exact .nil position
  | cons r free ih => exact .cons (by simp [Ledger.taken]) (ih (position + 1))

/-- Charges elsewhere play no part. -/
theorem Follows.congr {ledger ledger' : Ledger} {position : Nat} {free : List ByteRange}
    {rooms : List Nat} (h : Follows ledger position free rooms)
    (hsame : ∀ other, position ≤ other → ledger'.taken other = ledger.taken other) :
    Follows ledger' position free rooms := by
  induction h with
  | nil position => exact .nil position
  | cons balance _ ih =>
    refine .cons ?_ (ih fun other hle => hsame other (Nat.le_of_succ_le hle))
    rw [hsame _ (Nat.le_refl _)]
    exact balance

/-- The first room that is large enough and the first range with enough left stand at one
position, and charging that range takes from that room. -/
theorem Follows.seek {ledger : Ledger} {position : Nat} {free : List ByteRange}
    {rooms : List Nat} (h : Follows ledger position free rooms)
    (hsolid : ∀ r ∈ free, r.Solid) (size : Nat) :
    (takeRoom size rooms = none ∧ seek ledger size position free = .ok none) ∨
    ∃ found rooms', takeRoom size rooms = some rooms' ∧
      seek ledger size position free = .ok (some found) ∧ position ≤ found ∧
      (∃ r ∈ free, ledger.taken found + size ≤ r.length) ∧
      ∀ ledger' : Ledger, (∀ other, ledger'.taken other =
          ledger.taken other + if other = found then size else 0) →
        Follows ledger' position free rooms' := by
  induction h with
  | nil position => exact Or.inl ⟨rfl, rfl⟩
  | @cons position room r free rooms balance rest ih =>
    obtain ⟨hr, hsolid⟩ := List.forall_mem_cons.1 hsolid
    unfold Solid at hr
    have hlength : Word.sub r.stop r.start = .ok r.length :=
      Word.sub_eq_ok_iff.2 ⟨Nat.le_of_lt hr, rfl⟩
    have hroom : Word.sub r.length (ledger.taken position) = .ok room :=
      Word.sub_eq_ok_iff.2 ⟨by omega, by omega⟩
    unfold takeRoom FirstFit.seek
    simp only [hlength, hroom, bind, Except.bind, pure, Except.pure]
    by_cases hle : size ≤ room
    · rw [if_pos hle, if_pos hle]
      refine Or.inr ⟨position, _, rfl, rfl, Nat.le_refl _, ⟨r, List.mem_cons_self, by omega⟩, ?_⟩
      intro ledger' htaken
      refine .cons ?_ (rest.congr fun other hlt => ?_)
      · rw [htaken, if_pos rfl]
        omega
      · rw [htaken, if_neg (by omega), Nat.add_zero]
    · rw [if_neg hle, if_neg hle]
      rcases ih hsolid with ⟨htake, hseek⟩ | ⟨found, rooms', htake, hseek, hlt, hleft, hfollows⟩
      · rw [htake, hseek]
        exact Or.inl ⟨rfl, rfl⟩
      · obtain ⟨q, hq, hfits⟩ := hleft
        rw [htake, hseek]
        refine Or.inr ⟨found, _, rfl, rfl, by omega, ⟨q, List.mem_cons_of_mem r hq, hfits⟩, ?_⟩
        intro ledger' htaken
        refine .cons ?_ (hfollows ledger' htaken)
        rw [htaken, if_neg (by omega), Nat.add_zero]
        exact balance

section Replay

variable {m : FirstFit} {live : List ByteRange}

/-- With a ledger that follows the rooms, looking ahead comes to the same answer. -/
theorem Holds.replay_eq_serveAll (h : m.Holds live) (hcapacity : m.capacity < Word.bound)
    {ledger : Ledger} {rooms : List Nat} (hfollows : Follows ledger 0 m.free rooms)
    (sizes : List Nat) : m.replay ledger sizes = m.serveAll rooms sizes := by
  induction sizes generalizing ledger rooms with
  | nil => rfl
  | cons size sizes ih =>
    unfold replay serveAll
    cases m.aligned size with
    | error fault => rfl
    | ok k =>
      simp only [bind, Except.bind, pure, Except.pure]
      by_cases hzero : k = 0
      · rw [if_pos hzero, if_pos hzero]
        exact ih hfollows
      · rw [if_neg hzero, if_neg hzero]
        rcases hfollows.seek h.canonical.solid k with
          ⟨htake, hseek⟩ | ⟨found, rooms', htake, hseek, -, ⟨r, hr, hfits⟩, hnext⟩
        · rw [htake, hseek]
        · have hstop := h.free_stop_le hr
          have hbound : ledger.taken found + k < Word.bound := by
            unfold length at hfits
            omega
          obtain ⟨ledger', hcharge, htaken⟩ := Ledger.charge_spec hbound
          rw [htake, hseek]
          simp only [hcharge]
          exact ih (hnext ledger' htaken)

/-- Looking ahead never leaves the word, and no difference falls below zero. -/
theorem Holds.replay_eq (h : m.Holds live) (hcapacity : m.capacity < Word.bound)
    (sizes : List Nat) : m.replay [] sizes = m.canReserve sizes :=
  h.replay_eq_serveAll hcapacity (follows_nil 0 m.free) sizes

end Replay

end TaskLoom.FirstFit

/-! ## In use -/

namespace TaskLoom.Session

open FirstFit

/-- After any run of allowed calls, looking ahead says yes exactly to those lists of
requests that would be served one after the other, and no number falls below zero or leaves
the word while it looks ahead or while they are served. -/
theorem run_canReserve (capacity alignment : Nat) (hcapacity : capacity < Word.bound)
    {calls : List Call} (hcalls : (start capacity alignment).Permits calls) :
    ∃ s, (start capacity alignment).run calls = .ok s ∧
      ∀ sizes, (∀ size ∈ sizes, Word.alignUp size (max alignment 1) < Word.bound) →
        ∃ answer, inTurn reserve s.memory sizes = .ok answer ∧
          s.memory.canReserve sizes = .ok answer.isSome ∧
          inTurn reserveChecked s.memory sizes = .ok answer ∧
          s.memory.replay [] sizes = .ok answer.isSome := by
  obtain ⟨s, hrun, hkept⟩ := (kept_start capacity alignment).run (by omega) hcalls
  refine ⟨s, hrun, fun sizes hsizes => ?_⟩
  have hholds := hkept.holds
  have hmemory : s.memory.capacity < Word.bound := hkept.capacity_eq ▸ hcapacity
  have hrounded : ∀ size ∈ sizes, s.memory.rounded size < Word.bound := by
    unfold rounded
    rw [hkept.alignment_eq]
    exact hsizes
  obtain ⟨answer, hanswer⟩ := inTurn_reserve_ok hholds.canonical hrounded
  have hahead : s.memory.canReserve sizes = .ok answer.isSome := by
    rw [canReserve_eq_inTurn hholds.canonical, hanswer]
    rfl
  exact ⟨answer, hanswer, hahead, (hholds.inTurn_checked_eq hmemory sizes).trans hanswer,
    (hholds.replay_eq hmemory sizes).trans hahead⟩

/-- With 8 and 44 bytes free, requests for 0, 8 and 40 bytes are served, and after 8 and 40
bytes there is no room for 8 more. -/
theorem run_canReserve_fragmented :
    let calls := [Call.reserve 20, .reserve 30, .release ⟨0, 24⟩, .reserve 10]
    (start 100 8).Permits calls ∧ ∃ s, (start 100 8).run calls = .ok s ∧
      s.memory.free = [⟨16, 24⟩, ⟨56, 100⟩] ∧
      s.memory.canReserve [0, 8, 40] = .ok true ∧ s.memory.canReserve [8, 40, 8] = .ok false ∧
      ∃ answer, inTurn reserve s.memory [8, 40, 8] = .ok answer ∧
        s.memory.canReserve [8, 40, 8] = .ok answer.isSome := by
  intro calls
  have hcalls : (start 100 8).Permits calls := by decide
  obtain ⟨s, hrun, hahead⟩ := run_canReserve 100 8 (by decide) hcalls
  obtain ⟨answer, hanswer, hsame, -⟩ := hahead [8, 40, 8] (by decide)
  obtain rfl := Except.ok.inj hrun
  exact ⟨hcalls, _, rfl, rfl, rfl, rfl, answer, hanswer, hsame⟩

end TaskLoom.Session
