import TypeFlow.Site.Arguments

/-!
# Overloads

A call on a declared method takes effect for every overload that its arguments fit; the result
receives the declared types of all of them.
-/

set_option autoImplicit false

namespace TypeFlow

namespace MethodType

open Staging

def matchEach (map : ParamMap) : List VertexId → List SigType → Staging Bool
  | actual :: actuals, t :: ts => do
    let formal ← t.vertex map
    if ← Matching.fits actual formal then matchEach map actuals ts else return false
  | _, _ => return true

def matchAll (map : ParamMap) (actuals : List VertexId) (t : SigType) : Staging Bool := do
  let formal ← t.vertex map
  actuals.allM fun actual => Matching.fits actual formal

def acceptsShape (mt : MethodType) (count : Nat) (splats : List Bool) : Bool :=
  if splats.any id then
    mt.rest.isSome && !(splats.take mt.req.length).any id
      && !(splats.reverse.take mt.post.length).any id
  else
    mt.req.length + mt.post.length ≤ count
      && (mt.rest.isSome || count ≤ mt.req.length + mt.post.length + mt.opt.length)

def beforeSplat (args : List VertexId) (splats : List Bool) (start : Nat) : List VertexId :=
  (args.zipIdx start).takeWhile (fun a => !(splats[a.2]?.getD false)) |>.map Prod.fst

def matchArguments (mt : MethodType) (map : ParamMap) (args : List VertexId)
    (splats : List Bool) : Staging Bool := do
  if !mt.acceptsShape args.length splats then return false
  if !(← matchEach map args mt.req) then return false
  if args.length < mt.req.length then return false
  if args.length < mt.post.length then return false
  let postStart := args.length - mt.post.length
  if !(← matchEach map (args.drop postStart) mt.post) then return false
  let middle := (args.take postStart).drop mt.req.length
  let leading := (beforeSplat middle splats mt.req.length).take mt.opt.length
  if !(← matchEach map leading mt.opt) then return false
  let start := mt.req.length + leading.length
  if start < postStart then
    let rest ← Arguments.between args splats start postStart
    if !(← (mt.opt.drop leading.length).allM fun t => matchAll map rest t) then return false
    match mt.rest with
    | some t => matchAll map rest t
    | none => return true
  else return true

def openVariable (name : String) : Staging (VertexId × VertexId) := do
  let v ← freshVertex "type-var"
  let holder ← freshSource "type-var-holder" [.var name v]
  return (v, holder)

def applyBlock (t : BlockType) (map : ParamMap) (id : BlockId) : Staging Unit := do
  match (← engine).block? id with
  | none => return ()
  | some block =>
    let formal ← t.ret.vertex map
    addSite { slot := "block-return", index := id.index } block.node
      (.returnCheck { actual := block.ret, formal })
    if t.req.length = block.params.length then
      (t.req.zip block.params).forM fun (t, param) => do
        let v ← t.vertex map
        addEdge v param

def blocksAt (v : VertexId) : Staging (List BlockId) := do
  return (← typesAt v).filterMap fun
    | .proc b => some b
    | _ => none

def apply (mt : MethodType) (map : ParamMap) (args : List VertexId) (splats : List Bool)
    (block : Option VertexId) (ret : VertexId) : Staging Bool := do
  let vars ← mt.typeParams.mapM fun name => return (name, ← openVariable name)
  let opened := vars.foldl (fun m x => m.insert x.1 x.2.2) map
  if !(← mt.matchArguments opened args splats) then return false
  if mt.block.isSome != block.isSome then return false
  match mt.block, block with
  | some t, some b => (← blocksAt b).forM fun id => applyBlock t opened id
  | _, _ => pure ()
  let closed := vars.foldl (fun m x => m.insert x.1 x.2.1) opened
  let v ← mt.ret.vertex closed
  addEdge v ret
  return true

end MethodType

def MethodDecl.connect (d : MethodDecl) (node : NodeId) (map : ParamMap) (args : List VertexId)
    (splats : List Bool) (block : Option VertexId) (ret : VertexId) : Staging Unit := do
  let fitting ← d.overloads.mapM fun mt => mt.apply map args splats block ret
  if !fitting.any id then
    Staging.addDiagnostic node .unresolvedOverload "failed to resolve overloads"

end TypeFlow
