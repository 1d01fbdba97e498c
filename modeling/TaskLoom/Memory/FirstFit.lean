import TaskLoom.Memory.Range

/-!
# First-fit allocation of scratch memory

`FirstFit` hands out ranges of `[0, capacity)`.  The free memory is a list of
ranges, ascending, none empty and no two adjacent.  A request is rounded up to
the alignment and served from the start of the first free range that can hold
it; a range that is given back is joined with its free neighbours.

`canReserve` answers whether a whole list of requests would be served one after
the other.  It only follows how many bytes remain in each free range, and so
does not build the ranges themselves.
-/

namespace TaskLoom

/-- A first-fit allocator over `[0, capacity)`. -/
structure FirstFit where
  capacity : Nat
  /-- Requests are rounded up to a multiple of this. -/
  alignment : Nat
  /-- Free ranges, ascending and never adjacent. -/
  free : List ByteRange
  /-- Bytes handed out, rounding included. -/
  used : Nat
  /-- The largest value of `used` so far. -/
  peak : Nat
deriving DecidableEq, Repr

namespace FirstFit

/-- An allocator with all memory free.  An alignment of zero counts as one. -/
def create (capacity alignment : Nat) : FirstFit where
  capacity := capacity
  alignment := max alignment 1
  free := if 0 < capacity then [⟨0, capacity⟩] else []
  used := 0
  peak := 0

/-- A request rounded up to the alignment. -/
def aligned (m : FirstFit) (size : Nat) : Except Fault Nat :=
  Word.roundUp size m.alignment

/-! ## Handing out memory -/

/-- Cuts `size` bytes off the first range that can hold them: the bytes, and the
ranges that are left. -/
def carve (size : Nat) : List ByteRange → Option (ByteRange × List ByteRange)
  | [] => none
  | r :: rest =>
    if size ≤ r.length then
      let left := if r.length = size then rest else ⟨r.start + size, r.stop⟩ :: rest
      some (⟨r.start, r.start + size⟩, left)
    else
      (carve size rest).map fun (taken, left) => (taken, r :: left)

/-- Reserves `size` bytes at the lowest offset that fits.  There is no second
component to keep when nothing fits: the allocator is unchanged then.  A request
that rounds to zero gets the empty range at zero.

Of the sums only the rounded size is checked.  The range that is cut and the
bytes in use stay within the capacity, so the other sums fit wherever that fits:
`Holds.reserveChecked_eq` shows that checking them changes nothing. -/
def reserve (m : FirstFit) (size : Nat) : Except Fault (Option (ByteRange × FirstFit)) := do
  let size ← m.aligned size
  if size = 0 then
    return some (⟨0, 0⟩, m)
  match carve size m.free with
  | none => return none
  | some (taken, left) =>
    let used := m.used + size
    return some (taken, { m with free := left, used, peak := max m.peak used })

/-! ## Looking ahead -/

/-- Takes `size` bytes from the first room that has them. -/
def takeRoom (size : Nat) : List Nat → Option (List Nat)
  | [] => none
  | room :: rest =>
    if size ≤ room then some ((room - size) :: rest)
    else (takeRoom size rest).map (room :: ·)

/-- Serves requests one after the other from the given rooms and tells whether
all were served.  A request after the first refused one is not looked at. -/
def serveAll (m : FirstFit) : List Nat → List Nat → Except Fault Bool
  | _, [] => .ok true
  | rooms, size :: sizes => do
    let size ← m.aligned size
    if size = 0 then
      m.serveAll rooms sizes
    else
      match takeRoom size rooms with
      | some rooms => m.serveAll rooms sizes
      | none => return false

/-- Whether all requests could be served at once, in order. -/
def canReserve (m : FirstFit) (sizes : List Nat) : Except Fault Bool :=
  m.serveAll (m.free.map ByteRange.length) sizes

/-! ## Giving memory back -/

/-- Puts a range before the ranges that follow it, joined with the first of them
if that is where it ends. -/
def joinNext (r : ByteRange) : List ByteRange → List ByteRange
  | [] => [r]
  | next :: rest => if r.stop = next.start then ⟨r.start, next.stop⟩ :: rest else r :: next :: rest

/-- Puts ranges after the range that precedes them, joined if it ends where they
start. -/
def joinPrevious (previous : ByteRange) : List ByteRange → List ByteRange
  | [] => [previous]
  | r :: rest =>
    if previous.stop = r.start then ⟨previous.start, r.stop⟩ :: rest else previous :: r :: rest

/-- Puts a range between those below and those above it. -/
def joinBetween (below : List ByteRange) (r : ByteRange) (above : List ByteRange) :
    List ByteRange :=
  match below.getLast? with
  | none => joinNext r above
  | some previous => below.dropLast ++ joinPrevious previous (joinNext r above)

/-- Gives a range back.  An empty range changes nothing; a range that reaches
into a free neighbour breaks a rule. -/
def release (m : FirstFit) (r : ByteRange) : Except Fault FirstFit :=
  if r.stop ≤ r.start then
    .ok m
  else
    let below := m.free.takeWhile (·.start < r.start)
    let above := m.free.dropWhile (·.start < r.start)
    let clearBelow := below.getLast?.all (·.stop ≤ r.start)
    let clearAbove := above.head?.all (r.stop ≤ ·.start)
    if clearBelow && clearAbove then do
      let used ← Word.sub m.used r.length
      return { m with free := joinBetween below r above, used }
    else
      .error (.broken (.alreadyFree r.start r.stop))

end FirstFit

end TaskLoom
