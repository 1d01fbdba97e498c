import TaskLoom.Word

/-!
# Flow networks

A network stores residual capacities.  Arcs come in pairs: arc `e` and arc
`e ^^^ 1` are each other's reverse, and what is pushed along one can be pushed
back along the other.

`distances` measures how many arcs with residual capacity lead from a node to
every other node; a node has no distance exactly if no such path exists.
-/

namespace TaskLoom

/-- One direction of a pair of arcs. -/
structure Arc where
  target : Nat
  residual : Nat
deriving DecidableEq, Repr

/-- A network of nodes `0, 1, …` joined by arcs. -/
structure FlowNetwork where
  arcs : Array Arc
  /-- For each node the arcs that leave it, in the order they were added. -/
  leaving : Array (Array Nat)
deriving Repr

namespace FlowNetwork

/-- A network without arcs. -/
def create (nodes : Nat) : FlowNetwork where
  arcs := #[]
  leaving := Array.replicate nodes #[]

/-- Joins two nodes by a pair of arcs with the given residual capacities. -/
def addArc (net : FlowNetwork) (source target forward backward : Nat) : FlowNetwork :=
  let e := net.arcs.size
  { arcs := (net.arcs.push ⟨target, forward⟩).push ⟨source, backward⟩
    leaving := (net.leaving.modify source (·.push e)).modify target (·.push (e + 1)) }

/-- The arcs that leave a node, oldest first. -/
def arcsFrom (net : FlowNetwork) (v : Nat) : List Nat :=
  (net.leaving.getD v #[]).toList

/-- The residual capacity of an arc. -/
def residual (net : FlowNetwork) (e : Nat) : Nat :=
  (net.arcs[e]?).elim 0 (·.residual)

/-- The residual capacity of all arcs that leave a node. -/
def capacityFrom (net : FlowNetwork) (v : Nat) : Nat :=
  Word.total ((net.arcsFrom v).map net.residual)

/-! ## Distances -/

/-- Gives the head of an arc its distance, if the arc has residual capacity and
the head has no distance yet, and collects the head. -/
def relax (net : FlowNetwork) (d : Nat) (found : Array (Option Nat) × List Nat) (e : Nat) :
    Array (Option Nat) × List Nat :=
  match net.arcs[e]? with
  | none => found
  | some arc =>
    if 0 < arc.residual && (found.1.getD arc.target (some 0)).isNone then
      (found.1.setIfInBounds arc.target (some d), arc.target :: found.2)
    else
      found

/-- Spreads distances from the nodes of `frontier`, which all have the distance
before `d`, for at most `rounds` rounds. -/
def spread (net : FlowNetwork) : (rounds d : Nat) → (frontier : List Nat) →
    Array (Option Nat) → Array (Option Nat)
  | 0, _, _, dist => dist
  | _ + 1, _, [], dist => dist
  | rounds + 1, d, v :: frontier, dist =>
    let (dist, next) := ((v :: frontier).flatMap net.arcsFrom).foldl (net.relax d) (dist, [])
    net.spread rounds (d + 1) next dist

/-- For each node the least number of arcs with residual capacity that lead to it
from `source`.  Distances are below the number of nodes, which bounds the
rounds. -/
def distances (net : FlowNetwork) (source : Nat) : Array (Option Nat) :=
  let nodes := net.leaving.size
  let start := (Array.replicate nodes none).setIfInBounds source (some 0)
  net.spread nodes 1 [source] start

/-- Whether arcs with residual capacity lead to `v`, given the distances from
where they start. -/
def reached (dist : Array (Option Nat)) (v : Nat) : Bool :=
  (dist.getD v none).isSome

end FlowNetwork

end TaskLoom
