import TypeFlow.Effects.Matching

/-!
# Arguments by position

Arguments are bound to parameters from the left and from the right; what is between goes to the
optional parameters and then to the rest. An argument with a splat stands for any number of values.
-/

set_option autoImplicit false

namespace TypeFlow.Arguments

open Staging

def arityMessage (actual lower : Nat) (upper : Option Nat) : String :=
  let range := match upper with
    | some u => if lower < u then "..." ++ u.repr else ""
    | none => "+"
  "wrong number of arguments (" ++ actual.repr ++ " for " ++ lower.repr ++ range ++ ")"

def spreadType (t : Ty) : Staging VertexId :=
  match Engine.baseType t with
  | some (.instanceOf m args) =>
    if m = Core.array then
      match args with
      | elem :: _ => return elem
      | [] => emptyVertex
    else typeSource "splat" t
  | _ => typeSource "splat" t

def spread (arg : VertexId) (splat : Bool) : Staging (List VertexId) := do
  if splat then (← typesAt arg).mapM spreadType else return [arg]

def between (args : List VertexId) (splats : List Bool) (start stop : Nat) :
    Staging (List VertexId) := do
  let indexed := args.zipIdx.filter fun a => start ≤ a.2 && a.2 < stop
  return (← indexed.mapM fun a => spread a.1 (splats[a.2]?.getD false)).flatten

end TypeFlow.Arguments

namespace TypeFlow.MethodDef

open Staging Arguments

def bind (d : MethodDef) (actual : VertexId) (name : String) : Staging Unit :=
  match d.args.get? name with
  | some formal => addEdge actual formal
  | none => return ()

def bindEach (d : MethodDef) : List VertexId → List String → Staging Unit
  | actual :: actuals, name :: names => do
    d.bind actual name
    d.bindEach actuals names
  | _, _ => return ()

def bindAll (d : MethodDef) (actuals : List VertexId) (name : String) : Staging Unit :=
  actuals.forM fun actual => d.bind actual name

def reportArity (d : MethodDef) (callNode : Option NodeId) (actual : Nat) : Staging Unit :=
  match callNode with
  | some node =>
    addDiagnostic node .wrongArity (arityMessage actual d.formals.lower d.formals.upper)
  | none => return ()

def acceptsCount (f : Formals) (count : Nat) : Bool :=
  f.lower ≤ count && f.upper.all fun u => count ≤ u

def bindPlain (d : MethodDef) (args : List VertexId) : Staging Unit := do
  let f := d.formals
  let postStart := args.length - f.post.length
  d.bindEach args f.req
  d.bindEach (args.drop postStart) f.post
  let middle := (args.take postStart).drop f.req.length
  d.bindEach middle f.opt
  match f.rest with
  | some name => d.bindAll (middle.drop f.opt.length) name
  | none => pure ()

def bindSpread (d : MethodDef) (args : List VertexId) (splats : List Bool) (first last : Nat) :
    Staging Unit := do
  let f := d.formals
  let leading := f.req ++ f.opt
  let start := min first leading.length
  let stop := max (last + 1) (args.length - f.post.length)
  let rest ← between args splats start stop
  d.bindEach args (leading.take start)
  (leading.drop start).forM fun name => d.bindAll rest name
  f.post.zipIdx.forM fun (name, i) =>
    let index := args.length + i - f.post.length
    if f.post.length ≤ args.length + i ∧ stop ≤ index then
      match args[index]? with
      | some actual => d.bind actual name
      | none => pure ()
    else d.bindAll rest name
  match f.rest with
  | some name => d.bindAll rest name
  | none => pure ()

def passPositionals (d : MethodDef) (callNode : Option NodeId) (args : List VertexId)
    (splats : List Bool) : Staging Bool := do
  match splats.findIdx? id with
  | some first =>
    let last := splats.length - 1 - (splats.reverse.findIdx id)
    if d.formals.upper.all fun u => args.length ≤ u then
      d.bindSpread args splats first last
      return true
    else
      d.reportArity callNode args.length
      return false
  | none =>
    if acceptsCount d.formals args.length then
      d.bindPlain args
      return true
    else
      d.reportArity callNode args.length
      return false

def connect (d : MethodDef) (node : NodeId) (args : List VertexId) (splats : List Bool)
    (block : Option VertexId) (ret : VertexId) : Staging Unit := do
  if ← d.passPositionals (some node) args splats then
    match block, d.block with
    | some actual, some formal => addEdge actual formal
    | _, _ => pure ()
    addEdge d.ret ret

end TypeFlow.MethodDef
