import TypeFlow.Flow.Graph

/-!
# Waves of types

A change of types at one vertex runs through the graph: whatever is new at a vertex, or gone from
it, is passed on along its outgoing edges, in the order in which the changes were met. A dead vertex
takes part in nothing. Every vertex can pass each of the types on only once, so the number of types
times the number of edges bounds the work.
-/

set_option autoImplicit false

namespace TypeFlow

structure Arrival where
  target : VertexId
  src : VertexId
  types : List Ty
  deriving DecidableEq, Repr

structure Wave where
  graph : Graph
  work : List Arrival
  /-- The sites to run again, in the order in which they were met. -/
  woken : List SiteId := []
  /-- How many types changed at how many vertices so far. -/
  moved : Nat := 0

abbrev Change := VertexId → List Ty → Vertex → Vertex × List Ty

namespace Wave

def step (change : Change) (w : Wave) : Wave :=
  match w.work with
  | [] => w
  | a :: rest =>
    let vertex := w.graph.get a.target
    if vertex.alive then
      let (vertex, moved) := change a.src a.types vertex
      let graph := w.graph.set a.target vertex
      if moved.isEmpty then { w with graph, work := rest }
      else {
        graph
        work := rest ++ vertex.successors.map fun dst => ⟨dst, a.target, moved⟩
        woken := w.woken ++ vertex.listeners.toList
        moved := w.moved + moved.length }
    else { w with work := rest }

def run (change : Change) : Nat → Wave → Wave
  | 0, w => w
  | n + 1, w => if w.work.isEmpty then w else run change n (w.step change)

def spread (change : Change) (g : Graph) (a : Arrival) : Wave :=
  run change (a.types.length * g.edgeCount + 1) { graph := g, work := [a] }

end Wave

namespace Graph

structure Changed where
  graph : Graph
  woken : List SiteId := []

def bring (g : Graph) (dst src : VertexId) (types : List Ty) : Changed :=
  let w := Wave.spread Vertex.gain g ⟨dst, src, types⟩
  { graph := w.graph, woken := w.woken }

def retract (g : Graph) (dst src : VertexId) (types : List Ty) : Changed :=
  let w := Wave.spread Vertex.lose g ⟨dst, src, types⟩
  { graph := { w.graph with typeRemovals := w.graph.typeRemovals + w.moved }, woken := w.woken }

def retractAll (g : Graph) (src : VertexId) (types : List Ty) : List VertexId → Changed
  | [] => { graph := g }
  | dst :: rest =>
    let first := g.retract dst src types
    let later := first.graph.retractAll src types rest
    { graph := later.graph, woken := first.woken ++ later.woken }

end Graph

end TypeFlow
