import TaskLoom.Barrier.Virtual
import TaskLoom.Timetable.Basic

/-!
# From placements to virtual barriers

The tasks that produce on one hardware barrier in one time step post one virtual
barrier.  Their successors wait for it, and so do the producers of the next
virtual barrier on the same hardware barrier, so that its counter is not set up
again while it is still in use.

A task that posts no barrier is transparent: whoever depends on it waits for what
it waits for.

Placements are taken in order of time and task.  The producers of a hardware
barrier are gathered until one with another time comes; then they are sealed into
a virtual barrier.  Those still gathered at the end are sealed in the order of
the hardware barriers.
-/

namespace TaskLoom

/-- The use of one hardware barrier so far. -/
structure Gathering where
  physical : BarrierId
  /-- The time step of the producers gathered. -/
  time : Nat
  /-- The virtual barrier of the former use. -/
  former : Option Nat
  /-- Producers gathered since, the last one first. -/
  producers : List Nat
deriving DecidableEq, Repr

/-- Wiring under way. -/
structure Wiring where
  /-- One gathering per hardware barrier in use, ascending. -/
  gatherings : List Gathering
  /-- Sealed virtual barriers, by id. -/
  barriers : List VirtualBarrier
deriving DecidableEq, Repr

namespace Wiring

/-- The tasks that wait for `task`: its successors, and behind a task that posts
no barrier the successors of that. -/
def waiters (g : TaskGraph) (posting : List Nat) (task : Nat) : List Nat :=
  let table := g.successorTable
  let next := fun v => if posting.contains v then [] else table.getD v []
  let marked := explore next (Array.replicate g.tasks.size false) (table.getD task [])
  (List.range g.tasks.size).filter (marked.getD · false)

/-- Adds consumers to the barrier with this id. -/
def addConsumers (barriers : List VirtualBarrier) (id : Nat) (tasks : List Nat) :
    List VirtualBarrier :=
  barriers.map fun b =>
    if b.id = id then { b with consumers := IdSet.union tasks b.consumers } else b

/-- Seals the producers of a gathering into the next virtual barrier: the barriers
after that, and the id of the new one. -/
def sealNext (g : TaskGraph) (posting : List Nat) (barriers : List VirtualBarrier) (u : Gathering) :
    List VirtualBarrier × Nat :=
  let id := barriers.length
  let producers := IdSet.ofList u.producers
  let consumers := IdSet.ofList (producers.flatMap (waiters g posting))
  let barriers := match u.former with
    | some former => addConsumers barriers former producers
    | none => barriers
  (barriers ++ [⟨id, u.physical, producers, consumers⟩], id)

/-- Takes one producer on a hardware barrier: it joins the gathering of its time
step, or starts a new one after the former is sealed. -/
def gather (g : TaskGraph) (posting : List Nat) (physical : BarrierId) (time task : Nat)
    (barriers : List VirtualBarrier) : List Gathering → List Gathering × List VirtualBarrier
  | [] => ([⟨physical, time, none, [task]⟩], barriers)
  | u :: rest =>
    if physical.number < u.physical.number then
      (⟨physical, time, none, [task]⟩ :: u :: rest, barriers)
    else if u.physical = physical then
      if u.time = time then
        ({ u with producers := task :: u.producers } :: rest, barriers)
      else
        let (barriers, id) := sealNext g posting barriers u
        (⟨physical, time, some id, [task]⟩ :: rest, barriers)
    else
      let (rest, barriers) := gather g posting physical time task barriers rest
      (u :: rest, barriers)

/-- Takes a placement; one without a barrier changes nothing. -/
def take (g : TaskGraph) (posting : List Nat) (w : Wiring) (p : Placement) : Wiring :=
  match p.barrier with
  | none => w
  | some physical =>
    let (gatherings, barriers) := gather g posting physical p.time p.task w.barriers w.gatherings
    { gatherings, barriers }

/-- The virtual barriers of a timetable before any clean-up. -/
def sealAll (g : TaskGraph) (placements : List Placement) : List VirtualBarrier :=
  let posting := Timetable.posting placements
  let w := (Timetable.sorted placements).foldl (take g posting) ⟨[], []⟩
  w.gatherings.foldl (fun barriers u => (sealNext g posting barriers u).1) w.barriers

end Wiring

/-- The virtual barriers of a timetable, without superfluous consumers and
barriers. -/
def wire (g : TaskGraph) (placements : List Placement) : List VirtualBarrier :=
  VirtualBarrier.dropBarriers (VirtualBarrier.dropConsumers g (Wiring.sealAll g placements))

end TaskLoom
