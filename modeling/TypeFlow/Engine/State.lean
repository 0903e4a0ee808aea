import TypeFlow.Config
import TypeFlow.Effects.Basic
import TypeFlow.Fault
import TypeFlow.Flow.Edge
import TypeFlow.Ordered.Queue
import TypeFlow.World.Hierarchy

/-!
# The state of an engine

The constraint graph, the world of named things, the sites with their queue of runs, and a record of
what each tree node installed. Changes of the graph put the sites that listen to it into the queue.
-/

set_option autoImplicit false

namespace TypeFlow

structure Site where
  node : NodeId
  rule : Rule
  effects : Effects := {}
  destroyed : Bool := false

structure Block where
  node : NodeId
  params : List VertexId
  ret : VertexId
  deriving DecidableEq, Repr

structure NodeRecord where
  path : String
  span : Span
  nameSpan : Option Span := none
  ret : Option VertexId := none
  vertices : List VertexId := []
  effects : Effects := {}
  sites : OrderedSet SiteId := {}
  registrations : List Registration := []
  /-- The nodes whose values the body of this node can return. -/
  returns : List NodeId := []
  block : Option BlockId := none

structure SiteStats where
  runs : Nat := 0
  created : Nat := 0
  destroyed : Nat := 0
  /-- Live sites by the name of their rule; a name stays when its count drops to zero. -/
  live : OrderedMap String Nat := {}
  deriving DecidableEq, Repr

namespace SiteStats

def create (s : SiteStats) (rule : String) : SiteStats :=
  { s with created := s.created + 1, live := s.live.upsert rule 0 (· + 1) }

def destroy (s : SiteStats) (rule : String) : SiteStats :=
  { s with destroyed := s.destroyed + 1, live := s.live.modify rule (· - 1) }

def liveCount (s : SiteStats) : Nat := s.live.values.foldl (· + ·) 0

end SiteStats

structure Engine where
  config : Config := {}
  graph : Graph := {}
  world : World := {}
  sites : Slots Site := {}
  blocks : Slots (Option Block) := {}
  globals : OrderedMap String VertexId := {}
  nodes : OrderedMap NodeId NodeRecord := {}
  /-- Sites waiting to run, the next one first. -/
  queue : RunQueue := .empty
  nextNode : Nat := 1
  stats : SiteStats := {}

abbrev EngineM := EStateM Fault Engine

namespace Engine

def vertex (e : Engine) (v : VertexId) : Vertex := e.graph.get v

def typesAt (e : Engine) (v : VertexId) : List Ty := e.graph.typesAt v

def module (e : Engine) (m : ModuleId) : Module := e.world.get m

def site? (e : Engine) (s : SiteId) : Option Site := e.sites.get? s.index

def rule? (e : Engine) (s : SiteId) : Option Rule := (e.site? s).map Site.rule

def isLive (e : Engine) (s : SiteId) : Bool := (e.site? s).any fun x => !x.destroyed

def modifySite (e : Engine) (s : SiteId) (f : Site → Site) : Engine :=
  { e with sites := e.sites.modify s.index f }

def modifyNode (e : Engine) (n : NodeId) (f : NodeRecord → NodeRecord) : Engine :=
  { e with nodes := e.nodes.modify n f }

def record? (e : Engine) (n : NodeId) : Option NodeRecord := e.nodes.get? n

def modifyWorld (e : Engine) (f : World → World) : Engine := { e with world := f e.world }

def schedule (e : Engine) (s : SiteId) : Engine :=
  if e.isLive s then { e with queue := e.queue.insert s } else e

def scheduleAll (e : Engine) (ss : List SiteId) : Engine := ss.foldl schedule e

def newNode (e : Engine) : NodeId × Engine := (⟨e.nextNode⟩, { e with nextNode := e.nextNode + 1 })

def newVertex (e : Engine) (label : String) (node : Option NodeId) : VertexId × Engine :=
  let (v, graph) := e.graph.newVertex label node
  (v, { e with graph })

def newSource (e : Engine) (types : List Ty) (node : Option NodeId) : VertexId × Engine :=
  let (v, graph) := e.graph.newSource types node
  (v, { e with graph })

def source (e : Engine) (types : List Ty) : VertexId × Engine :=
  let (v, graph) := e.graph.source types
  (v, { e with graph })

def emptyVertex (e : Engine) : VertexId × Engine := e.source []

def adoptGraph (e : Engine) (c : Graph.Changed) : Engine :=
  { e with graph := c.graph }.scheduleAll c.woken

def addEdge (e : Engine) (src dst : VertexId) : Bool × Engine :=
  let (new, c) := e.graph.addEdge src dst
  (new, e.adoptGraph c)

def removeEdge (e : Engine) (src dst : VertexId) : Bool × Engine :=
  let (gone, c) := e.graph.removeEdge src dst
  (gone, e.adoptGraph c)

def destroyVertex (e : Engine) (v : VertexId) : Engine := e.adoptGraph (e.graph.destroy v)

def globalVertex (e : Engine) (name : String) : VertexId × Engine :=
  match e.globals.get? name with
  | some v => (v, e)
  | none =>
    let (v, e) := e.newVertex ("gvar:" ++ name) none
    (v, { e with globals := e.globals.insert name v })

def addBlock (e : Engine) (b : Block) : BlockId × Engine :=
  let (i, blocks) := e.blocks.alloc (some b)
  (⟨i⟩, { e with blocks })

def block? (e : Engine) (b : BlockId) : Option Block := (e.blocks.get? b.index).join

def modifyBlock (e : Engine) (b : BlockId) (f : Block → Block) : Engine :=
  { e with blocks := e.blocks.modify b.index (·.map f) }

def removeBlock (e : Engine) (b : BlockId) : Engine :=
  if (e.block? b).isSome then
    { e with blocks := (e.blocks.set b.index none).release b.index }
  else e

def reclaim (e : Engine) : Nat × Engine :=
  if e.queue.isEmpty then
    let (n, graph) := e.graph.reclaim
    let (m, sites) := e.sites.sweep Site.destroyed
    let (k, blocks) := e.blocks.sweep Option.isNone
    (n + m + k, { e with graph, sites, blocks })
  else (0, e)

def baseType : Ty → Option Ty
  | .nil => some (.plain Core.nilClass)
  | .true => some (.plain Core.trueClass)
  | .false => some (.plain Core.falseClass)
  | .array _ elem => some (.instanceOf Core.array [elem])
  | .proc _ => some (.plain Core.proc)
  | .instanceOf m args => some (.instanceOf m args)
  | .singletonOf m => some (.singletonOf m)
  | .bot | .untyped | .var .. => none

end Engine

end TypeFlow
