import TaskLoom.Flow.Network

/-!
# Maximum flow

The flow is found in phases.  A phase measures the distances from the source and
then pushes along arcs that lead one step further away, path after path, until
no such path to the sink is left.  The next phase measures again.  When the sink
has no distance any more, the flow is maximal.

While a phase lasts, an arc that did not lead to the sink is not tried again:
`Phase.untried` holds the arcs that are left for each node.

Nothing can be pushed beyond what leaves the source at the start.  The loops
carry this `credit`, less what was pushed, and end by it.
-/

namespace TaskLoom.FlowNetwork

/-- The most that one path may carry, and the capacity of an arc without limit. -/
def unbounded : Nat := (Word.bound - 1) / 4

/-- What a phase changes. -/
structure Phase where
  arcs : Array Arc
  /-- For each node the leaving arcs that may still lead to the sink. -/
  untried : Array (List Nat)

/-- Moves `amount` of residual capacity from an arc to its reverse. -/
def Phase.push (p : Phase) (e amount : Nat) : Except Fault Phase := do
  let residual ← Word.sub ((p.arcs[e]?).elim 0 (·.residual)) amount
  let reverse ← Word.add ((p.arcs[e ^^^ 1]?).elim 0 (·.residual)) amount
  let arcs := p.arcs.modify e fun arc => { arc with residual }
  return { p with arcs := arcs.modify (e ^^^ 1) fun arc => { arc with residual := reverse } }

/-- Whether an arc leads one step further from the source. -/
def deeper (dist : Array (Option Nat)) (v w : Nat) : Bool :=
  match dist.getD v none, dist.getD w none with
  | some a, some b => b == a + 1
  | _, _ => false

/-- Tries arcs that leave `v` until something can be pushed along one of them.
`descend` pushes from the head of an arc to the sink.  The arcs given up on the
way are removed from the untried ones. -/
def tryArcs (descend : Nat → Nat → Phase → Except Fault (Nat × Phase))
    (dist : Array (Option Nat)) (v limit : Nat) : List Nat → Phase → Except Fault (Nat × Phase)
  | [], p => .ok (0, { p with untried := p.untried.setIfInBounds v [] })
  | e :: rest, p =>
    match p.arcs[e]? with
    | none => tryArcs descend dist v limit rest p
    | some arc =>
      if 0 < arc.residual && deeper dist v arc.target then do
        let (pushed, p) ← descend arc.target (min limit arc.residual) p
        if pushed = 0 then
          tryArcs descend dist v limit rest p
        else
          let p ← p.push e pushed
          return (pushed, { p with untried := p.untried.setIfInBounds v (e :: rest) })
      else
        tryArcs descend dist v limit rest p

/-- Pushes at most `limit` from `v` along one path to the sink, which is `steps`
arcs away, and tells how much. -/
def augment (dist : Array (Option Nat)) (sink : Nat) :
    (steps v limit : Nat) → Phase → Except Fault (Nat × Phase)
  | 0, v, limit, p => .ok (if v = sink then limit else 0, p)
  | steps + 1, v, limit, p =>
    tryArcs (augment dist sink steps) dist v limit (p.untried.getD v []) p

/-- What the loops carry: the amount pushed, and the amount that can still be
pushed at most. -/
structure Tally where
  total : Nat
  credit : Nat

/-- Pushes along paths of a phase until none is left. -/
def saturate (dist : Array (Option Nat)) (source sink steps : Nat) (t : Tally) (p : Phase) :
    Except Fault (Tally × Phase) :=
  match augment dist sink steps source unbounded p with
  | .error fault => .error fault
  | .ok (pushed, p) =>
    if _progress : 0 < pushed ∧ pushed ≤ t.credit then
      match Word.add t.total pushed with
      | .error fault => .error fault
      | .ok total => saturate dist source sink steps ⟨total, t.credit - pushed⟩ p
    else
      .ok (t, p)
termination_by t.credit
decreasing_by
  simp_wf
  omega

/-- Runs phases until the sink cannot be reached, and tells the flow and the
residual network that it leaves. -/
def runPhases (source sink : Nat) (t : Tally) (net : FlowNetwork) :
    Except Fault (Nat × FlowNetwork) :=
  let dist := net.distances source
  match dist.getD sink none with
  | none => .ok (t.total, net)
  | some steps =>
    match saturate dist source sink steps t ⟨net.arcs, net.leaving.map Array.toList⟩ with
    | .error fault => .error fault
    | .ok (after, p) =>
      if after.credit < t.credit then
        runPhases source sink after { net with arcs := p.arcs }
      else
        .ok (after.total, { net with arcs := p.arcs })
termination_by t.credit

/-- The maximum flow from source to sink, and the residual network it leaves. -/
def maxFlow (net : FlowNetwork) (source sink : Nat) : Except Fault (Nat × FlowNetwork) :=
  runPhases source sink ⟨0, net.capacityFrom source⟩ net

end TaskLoom.FlowNetwork
