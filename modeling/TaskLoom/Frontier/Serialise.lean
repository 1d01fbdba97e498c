import TaskLoom.Frontier.Heaviest

/-!
# Bringing the heaviest frontier under a budget

Two tasks of a frontier that is too heavy are put in order by a control edge, and
the frontier is measured again, until it fits.  The two are the heaviest that
hold memory at all; the one that comes first in the topological order stays
first, so no edge ever closes a cycle.

`boundPeak` does this for a graph and commits the edges to it.  It also lists
what happened on the way, in order, for whoever reports on the run.
-/

namespace TaskLoom

/-- What happens while a frontier is measured and ordered. -/
inductive FrontierEvent where
  /-- The heaviest frontier was measured. -/
  | measured (frontier : Frontier)
  /-- The peak of the graph as given. -/
  | required (weight budget : Nat)
  /-- The peak does not fit, and a pair will be put in order. -/
  | exceeded (weight budget : Nat)
  /-- A pair was put in order. -/
  | ordered (source target : Nat)
  /-- The peak fits after this many edges. -/
  | fits (inserted weight : Nat)
deriving DecidableEq, Repr

/-- The share of a budget in percent; a budget of zero counts as one. -/
def percentOf (weight budget : Nat) : Except Fault Nat := do
  let scaled ← Word.mul weight 100
  return scaled / max budget 1

/-- The share is only computed when someone observes the run. -/
def observedPercent (observed : Bool) (weight budget : Nat) : Except Fault Unit :=
  if observed then (percentOf weight budget).map fun _ => () else .ok ()

namespace Serialiser

/-! ## One ordering step -/

/-- The tasks that hold memory, the heaviest first and equal ones by id. -/
def byWeight (s : Serialiser) (tasks : List Nat) : List Nat :=
  (tasks.filter (0 < s.weight ·)).mergeSort fun t u =>
    s.weight u < s.weight t || (s.weight t == s.weight u && t ≤ u)

/-- The refusal when no two tasks of the frontier hold memory. -/
def shortage (s : Serialiser) (f : Frontier) : Fault :=
  match (s.byWeight f.tasks).head? with
  | some t => .refused (.infeasible .frontier (s.graph.name t) .scratch (s.weight t) s.budget)
  | none => .refused (.infeasible .frontier "<empty frontier>" .scratch f.weight s.budget)

/-- Puts the two heaviest tasks of a frontier in order, and tells which order. -/
def orderPair (s : Serialiser) (f : Frontier) : Except Fault ((Nat × Nat) × Serialiser) :=
  match s.byWeight f.tasks with
  | first :: second :: _ =>
    let (a, b) := if s.rank first < s.rank second then (first, second) else (second, first)
    if s.graph.hasPath b a then
      .error (.broken (.alreadyOrdered (s.graph.name b) (s.graph.name a)))
    else
      .ok ((a, b), { s with
        graph := (s.graph.addEdge a b .control).2
        pending := s.pending ++ [(a, b)] })
  | _ => .error (s.shortage f)

/-! ## Until the peak fits -/

/-- Measures and orders until the peak fits, with at most `rounds` ordering
steps.  The events are collected in front of `events`, the last one first. -/
def serialiseRounds (observed : Bool) :
    (rounds : Nat) → Serialiser → List FrontierEvent →
      Outcome (Serialiser × List FrontierEvent) Frontier
  | rounds, s, events =>
    match s.heaviest with
    | .error fault => .failed fault (s, events)
    | .ok frontier =>
      let events := .measured frontier :: events
      if frontier.weight ≤ s.budget then
        .done frontier (s, events)
      else
        match observedPercent observed frontier.weight s.budget with
        | .error fault => .failed fault (s, events)
        | .ok () =>
          let events := .exceeded frontier.weight s.budget :: events
          match rounds with
          | 0 => .failed (s.shortage frontier) (s, events)
          | rounds + 1 =>
            match s.orderPair frontier with
            | .error fault => .failed fault (s, events)
            | .ok ((a, b), s) => serialiseRounds observed rounds s (.ordered a b :: events)

/-- Orders pairs until the peak fits the budget.  There are no more rounds than
ordered pairs of tasks, because each round orders a pair that was unordered. -/
def serialise (observed : Bool) (s : Serialiser) :
    Outcome (Serialiser × List FrontierEvent) Frontier :=
  match serialiseRounds observed (s.graph.size * s.graph.size) s [] with
  | .done frontier (s, events) => .done frontier (s, events.reverse)
  | .failed fault (s, events) => .failed fault (s, events.reverse)

/-- Adds the pending edges to a graph as control edges and counts the needed
ones; none is pending afterwards. -/
def commit (s : Serialiser) (g : TaskGraph) : Outcome (Serialiser × TaskGraph) Nat :=
  match g.addControlEdges s.pending with
  | .done count g => .done count ({ s with pending := [] }, g)
  | .failed fault g => .failed fault ({ s with pending := [] }, g)

end Serialiser

/-! ## The pass over a graph -/

/-- The refusal when the peak of the serialised graph does not fit after all. -/
def peakShortage (g : TaskGraph) (s : Serialiser) (f : Frontier) : Fault :=
  let heavier := fun t u => s.weight u < s.weight t || (s.weight t == s.weight u && t ≤ u)
  let task := ((f.tasks.mergeSort heavier).head?).elim "" g.name
  .refused (.infeasible .frontier task .scratch f.weight s.budget)

/-- The end of the pass: the peak of the graph after the edges were committed. -/
def confirmPeak (budget inserted : Nat) (g : TaskGraph) (events : List FrontierEvent) :
    Outcome (TaskGraph × List FrontierEvent) Frontier :=
  match Serialiser.ofGraph g budget with
  | .error fault => .failed fault (g, events)
  | .ok s =>
    match s.heaviest with
    | .error fault => .failed fault (g, events)
    | .ok frontier =>
      let events := events ++ [.measured frontier]
      if budget < frontier.weight then
        .failed (peakShortage g s frontier) (g, events)
      else
        .done frontier (g, events ++ [.fits inserted frontier.weight])

/-- Bounds the peak of a graph by a budget, with control edges where they are
needed, and tells the peak that is left and what happened. -/
def boundPeak (observed : Bool) (budget : Nat) (g : TaskGraph) :
    Outcome (TaskGraph × List FrontierEvent) Frontier :=
  match Serialiser.ofGraph g budget with
  | .error fault => .failed fault (g, [])
  | .ok s =>
    match s.heaviest with
    | .error fault => .failed fault (g, [])
    | .ok initial =>
      match observedPercent observed initial.weight budget with
      | .error fault => .failed fault (g, [.measured initial])
      | .ok () =>
        let events := [.measured initial, .required initial.weight budget]
        match s.serialise observed with
        | .failed fault (_, more) => .failed fault (g, events ++ more)
        | .done _ (s, more) =>
          match s.commit g with
          | .failed fault (_, g) => .failed fault (g, events ++ more)
          | .done inserted (_, g) => confirmPeak budget inserted g (events ++ more)

end TaskLoom
