import TypeFlow.Engine.Definitions

/-!
# Staging

While a site runs, it asks for effects and may create vertices, modules and entries. A run in
progress is the engine with the effects of the owner; a run that never ends has no result.
-/

set_option autoImplicit false

namespace TypeFlow

structure Run where
  engine : Engine
  effects : Effects

abbrev Staging := StateT Run Option

abbrev ParamMap := OrderedMap String VertexId

namespace Staging

def onEngine {α : Type} (f : Engine → α × Engine) : Staging α :=
  modifyGet fun r =>
    let (a, engine) := f r.engine
    (a, { r with engine })

def onEffects (f : Effects → Effects) : Staging Unit :=
  modify fun r => { r with effects := f r.effects }

def engine : Staging Engine := return (← get).engine

def endless {α : Type} : Staging α := fun _ => none

def typesAt (v : VertexId) : Staging (List Ty) := return (← engine).typesAt v

def addEdge (src dst : VertexId) : Staging Unit := onEffects (·.addEdge src dst)

def addEdges (srcs : List VertexId) (dst : VertexId) : Staging Unit :=
  srcs.forM fun src => addEdge src dst

def addSite (key : SiteKey) (node : NodeId) (rule : Rule) : Staging Unit :=
  onEffects (·.addSite key node rule)

def addDiagnostic (node : NodeId) (kind : Diagnostic.Kind) (message : String) : Staging Unit :=
  onEffects (·.addDiagnostic { node, kind, message })

def readSuperclass (m : ModuleId) : Staging Unit := onEffects (·.readSuperclass m)

def readMethod (key : MemberKey) : Staging Unit := do
  onEngine fun e => ((), e.modifyWorld (·.modifyMethod key id))
  onEffects (·.readMethod key)

def source (types : List Ty) : Staging VertexId := onEngine (·.source types)

def emptyVertex : Staging VertexId := onEngine Engine.emptyVertex

def resolvePath (path : ConstPath) : Staging ModuleId := onEngine (·.resolvePath path)

def reusable? (r : Run) (key : ScratchKey) (fit : Vertex → Bool) : Option VertexId :=
  (r.effects.installed.scratch.get? key).filter fun v => fit (r.engine.vertex v)

def scratch (label : String) (fit : Vertex → Bool) (create : Engine → VertexId × Engine) :
    Staging VertexId :=
  modifyGet fun r =>
    let (key, effects) := r.effects.nextScratchKey label
    let (v, engine) := match reusable? r key fit with
      | some v => (v, r.engine)
      | none => create r.engine
    (v, { engine, effects := effects.addScratch key v })

def freshVertex (label : String) : Staging VertexId :=
  scratch label (fun x => x.alive && !x.source) (·.newVertex label none)

def freshSource (label : String) (types : List Ty) : Staging VertexId :=
  scratch label
    (fun x => x.alive && x.source && x.types.size == types.length && types.all x.holds)
    (·.newSource types none)

def typeSource (label : String) (t : Ty) : Staging VertexId :=
  if t.isStatic then source [t] else freshSource label [t]

def receiverMap (recv : Ty) : Staging ParamMap := do
  return ({} : ParamMap).insert "self" (← typeSource "self" recv)

end Staging

namespace SigType

open Staging

def unionOf (members : List VertexId) : Staging VertexId := do
  let e ← engine
  if members.all fun m => (e.vertex m).source then
    freshSource "sig-union" (OrderedSet.ofList (members.flatMap e.typesAt)).toList
  else
    let v ← freshVertex "sig-union"
    addEdges members v
    return v

mutual

def vertex (map : ParamMap) : SigType → Staging VertexId
  | .instanceOf path args => do
    let m ← resolvePath path
    if args.isEmpty then source [.plain m]
    else
      let vs ← vertices map args
      freshSource "sig-instance" [.instanceOf m vs]
  | .singletonOf path => do
    let m ← resolvePath path
    source [.singletonOf m]
  | .var name =>
    match map.get? name with
    | some v => return v
    | none => emptyVertex
  | .receiver =>
    match map.get? "self" with
    | some v => return v
    | none => emptyVertex
  | .union members => do unionOf (← vertices map members)
  | .optional inner => do
    let v ← vertex map inner
    let n ← source [.nil]
    unionOf [v, n]
  | .tuple members => do
    let elems ← vertices map members
    let elem ← unionOf elems
    freshSource "sig-tuple" [.array (some elems) elem]
  | .nil => source [.nil]
  | .bool => source [.true, .false]
  | .untyped => source [.untyped]

def vertices (map : ParamMap) : List SigType → Staging (List VertexId)
  | [] => return []
  | t :: ts => do
    let v ← vertex map t
    let vs ← vertices map ts
    return v :: vs

end

end SigType

end TypeFlow
