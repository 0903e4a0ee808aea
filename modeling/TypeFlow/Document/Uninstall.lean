import TypeFlow.Document.Install

/-!
# Tearing a tree down

Nodes are torn down in the opposite order of their installation: first what they asked for, then
their definitions, their block and their vertices. A node whose record went to another tree is left
alone.
-/

set_option autoImplicit false

namespace TypeFlow

namespace Engine

def installTree (p : Place) (tree : Node) : EngineM VertexId := fun e =>
  match tree.install p { engine := e } with
  | .ok v i => .ok v i.engine
  | .error f i => .error f i.engine

def dropEffects (n : NodeId) (fx : Effects) : EngineM Unit := fun e =>
  match install (.node n) { engine := e, effects := fx.discard } with
  | .ok () r => .ok () r.engine
  | .error f r => .error f r.engine

def uninstallNode (n : NodeId) : EngineM Unit := do
  match (← get).record? n with
  | none => return ()
  | some record =>
    modify fun e => { e with nodes := e.nodes.erase n }
    dropEffects n record.effects
    record.sites.toList.forM destroySite
    modify fun e => record.registrations.reverse.foldl (fun e r => e.unregister (.node n) r) e
    modify fun e => record.block.elim e e.removeBlock
    modify fun e => record.vertices.foldl destroyVertex e

def uninstallTree (tree : Node) : EngineM Unit :=
  (tree.walk.map Node.id).reverse.forM uninstallNode

end Engine

end TypeFlow
