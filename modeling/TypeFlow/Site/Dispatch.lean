import TypeFlow.Engine.Render
import TypeFlow.Site.Overload
import TypeFlow.World.Lookup

/-!
# Calls

A call looks its method up for every type of its receiver and connects itself to what it finds: a
built-in method, declared signatures, or bodies, in this order of preference.
-/

set_option autoImplicit false

namespace TypeFlow

open Staging

namespace ParamMap

def bindParams (map : ParamMap) : List String → List SigType → ParamMap → Staging ParamMap
  | [], _, out => return out
  | p :: ps, [], out => do
    let v ← emptyVertex
    bindParams map ps [] (out.insert p v)
  | p :: ps, a :: as, out => do
    let v ← a.vertex map
    bindParams map ps as (out.insert p v)

def inside (recv : Ty) (map : ParamMap) (m : ModuleId) (args : List SigType) :
    Staging ParamMap := do
  let start ← receiverMap recv
  bindParams map ((← engine).module m).typeParams args start

def follow (recv : Ty) : List Visit → ParamMap → List ParamMap → Staging ParamMap
  | [], map, _ => return map
  | .enter m args :: visits, map, outer => do
    let inner ← inside recv map m args
    follow recv visits inner (map :: outer)
  | .leave :: visits, map, outer => follow recv visits (outer.headD map) outer.tail
  | .ascend m args :: visits, map, outer => do
    if ((← engine).module m).typeParams.isEmpty then follow recv visits map outer
    else
      let above ← inside recv map m args
      follow recv visits above outer

end ParamMap

def Side.ofType? (t : Ty) : Option (Side × List VertexId) :=
  match Engine.baseType t with
  | some (.instanceOf m args) => some (⟨m, false⟩, args)
  | some (.singletonOf m) => some (⟨m, true⟩, [])
  | _ => none

structure Resolution where
  recv : Ty
  method : Option MemberKey
  map : ParamMap

namespace Call

def resolveType (c : Call) (recv : Ty) : Staging (Option Resolution) := do
  match Side.ofType? recv with
  | none => return none
  | some (side, typeArgs) =>
    let e ← engine
    let start ← receiverMap recv
    let start := ((e.module side.module).typeParams.zip typeArgs).foldl
      (fun m x => m.insert x.1 x.2) start
    let found := e.world.lookup side c.name
    found.consulted.forM readMethod
    let map ← ParamMap.follow recv found.visits start []
    return some { recv, method := found.found, map }

def resolve (c : Call) : Staging (List Resolution) := do
  return (← (← typesAt c.recv).mapM c.resolveType).filterMap id

def connectDefs (c : Call) (node : NodeId) : List SiteId → OrderedSet SiteId →
    Staging (OrderedSet SiteId)
  | [], called => return called
  | s :: rest, called => do
    if called.contains s then c.connectDefs node rest called
    else
      match (← engine).rule? s with
      | some (.methodDef d) => d.connect node c.args c.splats c.block c.ret
      | _ => pure ()
      c.connectDefs node rest (called.insert s)

def arrayElement : Ty → Option VertexId
  | .array _ elem => some elem
  | .instanceOf m args => if m = Core.array then args.head? else none
  | _ => none

def newInstance (c : Call) (node : NodeId) : Ty → Staging Unit
  | .singletonOf m => do
    if ((← engine).module m).isClass then
      let inst ← source [.plain m]
      let ret ← freshVertex "initialize-ret"
      addSite { slot := "initialize", index := m.index } node
        (.call { c with recv := inst, name := "initialize", subclasses := false, ret })
      addEdge inst c.ret
  | _ => return ()

def callBlock (c : Call) : Ty → Staging Unit
  | .proc b => do
    match (← engine).block? b with
    | some block =>
      (c.args.zip block.params).forM fun (arg, param) => addEdge arg param
      addEdge block.ret c.ret
    | none => return ()
  | _ => return ()

def pushElement (c : Call) (recv : Ty) : Staging Unit := do
  match arrayElement recv, c.args with
  | some elem, arg :: _ => addEdge arg elem
  | _, _ => pure ()
  let v ← typeSource "array-push" recv
  addEdge v c.ret

def callBuiltin (c : Call) (node : NodeId) (recv : Ty) : Builtin → Staging Unit
  | .classNew => c.newInstance node recv
  | .acceptAll => return ()
  | .procCall => c.callBlock recv
  | .arrayAt =>
    match arrayElement recv with
    | some elem => addEdge elem c.ret
    | none => return ()
  | .arrayPush => c.pushElement recv

def connectDecls (c : Call) (node : NodeId) (map : ParamMap) : List SiteId → Staging Unit
  | [] => return ()
  | s :: rest => do
    match (← engine).rule? s with
    | some (.methodDecl d) => d.connect node map c.args c.splats c.block c.ret
    | _ => pure ()
    c.connectDecls node map rest

def dispatch (c : Call) (node : NodeId) (recv : Ty) (key : MemberKey) (map : ParamMap)
    (called : OrderedSet SiteId) : Staging (OrderedSet SiteId) := do
  match (← engine).world.method? key with
  | none => return called
  | some entity =>
    match entity.builtin with
    | some b =>
      c.callBuiltin node recv b
      return called
    | none =>
      if entity.decls.isEmpty then c.connectDefs node entity.defs.toList called
      else
        c.connectDecls node map entity.decls.toList
        return called

def dispatchAll (c : Call) (node : NodeId) : List Resolution → OrderedSet SiteId →
    Staging (OrderedSet SiteId)
  | [], called => return called
  | r :: rest, called => do
    match r.method with
    | some key => c.dispatchAll node rest (← c.dispatch node r.recv key r.map called)
    | none =>
      addDiagnostic node .undefinedMethod
        ("undefined method: " ++ (← engine).showType r.recv ++ "#" ++ c.name)
      c.dispatchAll node rest called

def resolveOverrides (c : Call) : Staging (List MemberKey) := do
  let e ← engine
  let keys := (← typesAt c.recv).flatMap fun t =>
    match Side.ofType? t with
    | some (side, _) => e.world.overrides side c.name
    | none => []
  keys.forM readMethod
  return keys.filter fun key => (e.world.method? key).any MethodEntity.exists?

def run (c : Call) (node : NodeId) : Staging Unit := do
  let resolutions ← c.resolve
  let called ← c.dispatchAll node resolutions {}
  if c.subclasses then
    let keys ← c.resolveOverrides
    let e ← engine
    let defs := keys.flatMap fun key => ((e.world.method? key).map fun m => m.defs.toList).getD []
    let _ ← c.connectDefs node defs called

end Call

end TypeFlow
