import TypeFlow.Engine.Render
import TypeFlow.Site.Overload

/-!
# The other rules

Reading constants, declared types, globals and instance variables, taking values apart, binding the
parameters of a declared body, and checking its value.
-/

set_option autoImplicit false

namespace TypeFlow

open Staging

namespace ConstRead

def lookIn (r : ConstRead) (m : ModuleId) : Staging (Option VertexId) := do
  let key : ConstKey := ⟨m, r.name⟩
  let c ← onEngine (·.ensureConst key)
  onEffects (·.readConst key)
  return if c.exists? then some c.vertex else none

def lookInScopes (r : ConstRead) : List ModuleId → Staging (Option VertexId)
  | [] => return none
  | m :: ms => do
    match ← r.lookIn m with
    | some v => return some v
    | none => r.lookInScopes ms

def lookInAncestors (r : ConstRead) : List ModuleId → Staging (Option VertexId)
  | [] => return none
  | m :: ms => do
    readSuperclass m
    match ← r.lookIn m with
    | some v => return some v
    | none => r.lookInAncestors ms

def ancestors (m : ModuleId) : Staging (List ModuleId) :=
  return ((← engine).world.chain ⟨m, false⟩).map Side.module

def resolve (r : ConstRead) : Staging (Option VertexId) := do
  match r.scope with
  | some m => r.lookInAncestors (← ancestors m)
  | none =>
    match ← r.lookInScopes r.scopes with
    | some v => return some v
    | none =>
      match r.scopes with
      | [] => return none
      | m :: _ => r.lookInAncestors (← ancestors m)

def run (r : ConstRead) : Staging Unit := do
  match ← r.resolve with
  | some v => addEdge v r.ret
  | none => return ()

end ConstRead

def TypeRead.run (r : TypeRead) : Staging Unit := do
  let v ← r.type.vertex {}
  addEdge v r.ret

def GlobalRead.run (r : GlobalRead) : Staging Unit := do
  let v ← onEngine (·.globalVertex r.name)
  addEdge v r.ret

namespace IvarRead

def topmost (w : World) (name : String) (sides : List Side) : Option VertexId :=
  ((sides.filterMap fun s => w.ivar? ⟨s, name⟩).filter IvarEntity.exists?).getLast?.map
    IvarEntity.vertex

def run (r : IvarRead) : Staging Unit := do
  let own ← onEngine (·.ensureIvar r.key)
  let e ← engine
  let sides := e.world.chain r.key.side
  sides.forM fun s => readSuperclass s.module
  match topmost e.world r.key.name sides with
  | some target =>
    if target ≠ own.vertex then
      addEdge own.vertex r.proxy
      addEdge r.proxy target
    addEdge target r.ret
  | none => return ()

end IvarRead

namespace MultiAssign

def assignEach : List VertexId → List VertexId → Staging Unit
  | _, [] => return ()
  | [], dst :: dsts => do
    let n ← source [.nil]
    addEdge n dst
    assignEach [] dsts
  | src :: srcs, dst :: dsts => do
    addEdge src dst
    assignEach srcs dsts

def assignAll (src : VertexId) (dsts : List VertexId) : Staging Unit :=
  dsts.forM fun dst => addEdge src dst

def assignFirst (m : MultiAssign) (t : Ty) : Staging Unit := do
  match m.lhs with
  | first :: _ =>
    let v ← typeSource "masgn" t
    addEdge v first
  | [] => return ()

def assignType (m : MultiAssign) (t : Ty) : Staging Unit :=
  match t with
  | .array (some elems) _ => assignEach elems m.lhs
  | .array none elem => assignAll elem m.lhs
  | .instanceOf c args =>
    if c = Core.array then
      match args with
      | elem :: _ => assignAll elem m.lhs
      | [] => return ()
    else m.assignFirst t
  | _ => m.assignFirst t

def run (m : MultiAssign) : Staging Unit := do
  (← typesAt m.rhs).forM m.assignType

end MultiAssign

namespace ReturnCheck

def checkNode (c : ReturnCheck) (n : NodeId) : Staging Unit := do
  match ((← engine).record? n).bind NodeRecord.ret with
  | none => return ()
  | some v =>
    if !(← Matching.fits v c.formal) then
      let e ← engine
      addDiagnostic n .returnTypeMismatch
        ("expected: " ++ e.showVertex c.formal ++ "; actual: " ++ e.showVertex v)

def run (c : ReturnCheck) (node : NodeId) : Staging Unit := do
  if !(← Matching.fits c.actual c.formal) then
    (((← engine).record? node).elim [] NodeRecord.returns).forM c.checkNode

end ReturnCheck

namespace MethodDef

def selfType (d : MethodDef) : Ty :=
  if d.key.side.singleton then .singletonOf d.key.side.module else .plain d.key.side.module

def declared? (d : MethodDef) (e : Engine) : Option MethodType := do
  let entity ← e.world.method? d.key
  let s ← entity.decls.toList.head?
  match ← e.rule? s with
  | .methodDecl decl => decl.overloads.head?
  | _ => none

def restSource (elem : VertexId) : Staging VertexId :=
  freshSource "rest" [.instanceOf Core.array [elem]]

def declaredArgs (mt : MethodType) (map : ParamMap) : Staging (List VertexId × List Bool) := do
  let leading ← SigType.vertices map (mt.req ++ mt.opt)
  let rest ← (match mt.rest with
    | some t => do
      let elem ← t.vertex map
      return [← restSource elem]
    | none => return [])
  let post ← SigType.vertices map mt.post
  return (leading ++ rest ++ post,
    leading.map (fun _ => false) ++ rest.map (fun _ => true) ++ post.map fun _ => false)

def run (d : MethodDef) (node : NodeId) : Staging Unit := do
  match d.declared? (← engine) with
  | none => return ()
  | some mt =>
    let map ← receiverMap d.selfType
    let (args, splats) ← declaredArgs mt map
    if ← d.passPositionals none args splats then
      let formal ← mt.ret.vertex map
      addSite { slot := "check-return" } node (.returnCheck { actual := d.ret, formal })

def showParam (d : MethodDef) (e : Engine) (name : String) : String :=
  match d.args.get? name with
  | some v => Render.stripParens (e.showVertex v)
  | none => "untyped"

def showBlocks (d : MethodDef) (e : Engine) : List String :=
  let blocks := (d.block.elim [] e.typesAt).filterMap fun
    | .proc b => e.block? b
    | _ => none
  let texts := blocks.map fun b =>
    "\x7b (" ++ Render.commaSeparated (b.params.map fun p => Render.stripParens (e.showVertex p))
      ++ ") -> " ++ e.showVertex b.ret ++ " \x7d"
  Render.sorted (OrderedSet.ofList texts).toList

def signature (d : MethodDef) (e : Engine) : String :=
  let f := d.formals
  let params := f.req.map (d.showParam e) ++ f.opt.map (fun n => "?" ++ d.showParam e n)
    ++ f.rest.toList.map (fun n => "*" ++ d.showParam e n) ++ f.post.map (d.showParam e)
  let blocks := d.showBlocks e
  String.intercalate " " (
    (if params.isEmpty then [] else ["(" ++ Render.commaSeparated params ++ ")"])
      ++ (if blocks.isEmpty then [] else [String.intercalate " | " blocks])
      ++ ["-> " ++ e.showVertex d.ret])

end MethodDef

end TypeFlow
