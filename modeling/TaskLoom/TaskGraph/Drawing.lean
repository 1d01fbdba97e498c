import TaskLoom.TaskGraph.Basic

/-!
# Drawings of a graph

A drawing is a text in the DOT language: a line per task with its label and a
line per edge, control edges dashed.  A drawing can also be packed into a link
that shows it.
-/

namespace TaskLoom

/-- How a kind is written in a label. -/
def TaskKind.label : TaskKind → String
  | .compute variants => "Compute \x7b variants: " ++ toString variants ++ " \x7d"
  | .dma => "Dma"
  | .software => "Software"
  | .control => "Control"

/-- The label of a task: its name and kind, the scratch memory it needs and its
time step, as far as there are any. -/
def Task.drawnLabel (t : Task) : Except Fault String := do
  let cmx ← t.cmxFootprint
  let memory := if 0 < cmx then "\\ncmx " ++ toString cmx else ""
  let time := match t.time with
    | some time => "\\nt=" ++ toString time
    | none => ""
  return t.name ++ " [" ++ t.kind.label ++ "]" ++ memory ++ time

namespace TaskGraph

/-- The line of a task. -/
def drawnTask (g : TaskGraph) (id : Nat) : Except Fault String := do
  let label ← (g.task id).drawnLabel
  return "    " ++ toString id ++ " [ label = \"" ++ label ++ "\"]\n"

/-- The line of an edge. -/
def drawnEdge (e : Edge) : String :=
  let style := match e.kind with
    | .data => ""
    | .control => "style = dashed"
  "    " ++ toString e.source ++ " -> " ++ toString e.target ++ " [ " ++ style ++ "]\n"

/-- The drawing of a graph. -/
def drawing (g : TaskGraph) : Except Fault String := do
  let tasks ← g.ids.mapM g.drawnTask
  let edges := g.dependencies.map drawnEdge
  return "digraph \x7b\n" ++ String.join tasks ++ String.join edges ++ "\x7d\n"

/-- The graph of the given tasks and the edges between them, numbered anew in
ascending order of id. -/
def restrict (g : TaskGraph) (kept : List Nat) : TaskGraph :=
  let marked := g.ids.filter kept.contains
  let start := marked.foldl (fun h id => (h.addTask (g.task id)).2) TaskGraph.empty
  g.dependencies.foldl
    (fun h e =>
      match marked.idxOf? e.source, marked.idxOf? e.target with
      | some source, some target => (h.addEdge source target e.kind).2
      | _, _ => h)
    start

/-- Whether a byte stands for itself in a link. -/
def isUnreserved (b : UInt8) : Bool :=
  let c := Char.ofNat b.toNat
  b < 128 && (c.isAlphanum || c == '-' || c == '.' || c == '_' || c == '~')

/-- An upper-case hexadecimal digit. -/
def upperHex (n : Nat) : Char :=
  Char.ofNat (if n < 10 then 48 + n else 55 + n)

/-- A byte in a link. -/
def linkByte (b : UInt8) : List Char :=
  if isUnreserved b then [Char.ofNat b.toNat]
  else ['%', upperHex (b.toNat / 16), upperHex (b.toNat % 16)]

/-- A link that shows the drawing of the given tasks, or of all. -/
def link (g : TaskGraph) (marked : Option (List Nat)) : Except Fault String := do
  let text ← (g.restrict (marked.getD g.ids)).drawing
  return "https://dreampuf.github.io/GraphvizOnline/#" ++
    String.ofList (text.toUTF8.toList.flatMap linkByte)

end TaskGraph

end TaskLoom
