import TypeFlow.Flow.Vertex
import TypeFlow.Ordered.Slots

/-!
# The constraint graph

Vertices live in slots. Sources of static types are shared: the same list of types always gives the
same vertex.
-/

set_option autoImplicit false

namespace TypeFlow

structure Graph where
  vertices : Slots Vertex := {}
  /-- Shared sources by the types they were created with. -/
  shared : OrderedMap (List Ty) VertexId := {}
  edgesAdded : Nat := 0
  edgesRemoved : Nat := 0
  /-- How often a type left a vertex because its last reason went away. -/
  typeRemovals : Nat := 0
  deriving Repr, Inhabited

namespace Graph

def get (g : Graph) (v : VertexId) : Vertex := (g.vertices.get? v.index).getD Vertex.absent

def modify (g : Graph) (v : VertexId) (f : Vertex → Vertex) : Graph :=
  { g with vertices := g.vertices.modify v.index f }

def set (g : Graph) (v : VertexId) (x : Vertex) : Graph := g.modify v fun _ => x

def typesAt (g : Graph) (v : VertexId) : List Ty := (g.get v).typeList

def edgeCount (g : Graph) : Nat :=
  g.vertices.slots.foldl (fun n v => n + v.next.size) 0

def alloc (g : Graph) (x : Vertex) : VertexId × Graph :=
  let (i, vertices) := g.vertices.alloc x
  (⟨i⟩, { g with vertices })

def newVertex (g : Graph) (label : String) (node : Option NodeId) : VertexId × Graph :=
  g.alloc { label, node }

def newSource (g : Graph) (types : List Ty) (node : Option NodeId) : VertexId × Graph :=
  g.alloc (Vertex.ofTypes types node)

def source (g : Graph) (types : List Ty) : VertexId × Graph :=
  match g.shared.get? types with
  | some v => (v, g)
  | none =>
    let (v, g) := g.newSource types none
    (v, { g with shared := g.shared.insert types v })

def hasEdge (g : Graph) (src dst : VertexId) : Bool := (g.get src).next.contains dst

def reclaim (g : Graph) : Nat × Graph :=
  let (n, vertices) := g.vertices.sweep Vertex.isReclaimable
  (n, { g with vertices })

end Graph

end TypeFlow
