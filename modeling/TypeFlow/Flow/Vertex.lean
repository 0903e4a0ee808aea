import TypeFlow.Flow.Type
import TypeFlow.Ordered.Map
import TypeFlow.Ordered.Set

/-!
# Vertices

A vertex holds types, each with the reasons for its presence. Types arrive and leave by their
reasons: a type is new when its first reason arrives, and gone when its last one leaves.
-/

set_option autoImplicit false

namespace TypeFlow

inductive Origin where
  /-- The vertex was created holding the type. -/
  | literal
  /-- The type came over the edge from this vertex. -/
  | edge (src : VertexId)
  deriving DecidableEq, Repr

structure Vertex where
  label : String
  node : Option NodeId := none
  types : OrderedMap Ty (List Origin) := {}
  /-- Outgoing edges, with the number of owners of each. -/
  next : OrderedMap VertexId Nat := {}
  /-- The number of vertices with an edge into this one. -/
  incoming : Nat := 0
  /-- Sites that run again when the set of types changes. -/
  listeners : OrderedSet SiteId := {}
  source : Bool := false
  alive : Bool := true
  deriving DecidableEq, Repr

namespace Vertex

def absent : Vertex := { label := "", alive := false }

def holds (v : Vertex) (t : Ty) : Bool := v.types.contains t

def origins (v : Vertex) (t : Ty) : List Origin := (v.types.get? t).getD []

def typeList (v : Vertex) : List Ty := v.types.keys

def successors (v : Vertex) : List VertexId := v.next.keys

def owners (v : Vertex) (dst : VertexId) : Nat := (v.next.get? dst).getD 0

def isReclaimable (v : Vertex) : Bool :=
  !v.alive && v.next.isEmpty && v.incoming == 0 && v.listeners.isEmpty

def ofTypes (types : List Ty) (node : Option NodeId) : Vertex :=
  { label := "source", node, source := true,
    types := types.foldl (fun m t => m.upsert t [] (· ++ [.literal])) {} }

def gainOne (src : VertexId) (v : Vertex) (t : Ty) : Vertex × List Ty :=
  ({ v with types := v.types.upsert t [] (· ++ [.edge src]) },
    if (v.origins t).isEmpty then [t] else [])

def gain (src : VertexId) : List Ty → Vertex → Vertex × List Ty
  | [], v => (v, [])
  | t :: ts, v =>
    let (v, fresh) := v.gainOne src t
    let (v, later) := gain src ts v
    (v, fresh ++ later)

def loseOne (src : VertexId) (v : Vertex) (t : Ty) : Vertex × List Ty :=
  match v.types.get? t with
  | none => (v, [])
  | some reasons =>
    let reasons := reasons.erase (.edge src)
    if reasons.isEmpty then ({ v with types := v.types.erase t }, [t])
    else ({ v with types := v.types.insert t reasons }, [])

def lose (src : VertexId) : List Ty → Vertex → Vertex × List Ty
  | [], v => (v, [])
  | t :: ts, v =>
    let (v, gone) := v.loseOne src t
    let (v, later) := lose src ts v
    (v, gone ++ later)

end Vertex

end TypeFlow
