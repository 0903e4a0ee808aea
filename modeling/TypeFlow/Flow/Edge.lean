import TypeFlow.Flow.Wave

/-!
# Edges and their owners

An edge is stored once and counts its owners. The first owner lets the types of the source flow,
the last one to leave takes them back. Destroying a vertex takes back what it passed on; its edges
stay recorded until their owners give them up.
-/

set_option autoImplicit false

namespace TypeFlow.Graph

def addEdge (g : Graph) (src dst : VertexId) : Bool × Changed :=
  if (g.get src).alive && (g.get dst).alive then
    let owners := (g.get src).owners dst
    let g := g.modify src fun v => { v with next := v.next.insert dst (owners + 1) }
    if owners = 0 then
      let g := g.modify dst fun v => { v with incoming := v.incoming + 1 }
      let g := { g with edgesAdded := g.edgesAdded + 1 }
      (true, g.bring dst src (g.typesAt src))
    else (false, { graph := g })
  else (false, { graph := g })

def removeEdge (g : Graph) (src dst : VertexId) : Bool × Changed :=
  let owners := (g.get src).owners dst
  if owners = 0 then (false, { graph := g })
  else if owners = 1 then
    let g := g.modify src fun v => { v with next := v.next.erase dst }
    let g := g.modify dst fun v => { v with incoming := v.incoming - 1 }
    let g := { g with edgesRemoved := g.edgesRemoved + 1 }
    (true, g.retract dst src (g.typesAt src))
  else (false, { graph := g.modify src fun v => { v with next := v.next.insert dst (owners - 1) } })

def destroy (g : Graph) (v : VertexId) : Changed :=
  let vertex := g.get v
  if vertex.alive then
    let g := g.modify v fun x => { x with alive := false }
    let done := g.retractAll v vertex.typeList vertex.successors
    let g := done.graph.modify v fun x => { x with types := {} }
    { graph := { g with vertices := g.vertices.release v.index }, woken := done.woken }
  else { graph := g }

end TypeFlow.Graph
