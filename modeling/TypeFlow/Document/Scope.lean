import TypeFlow.Site.Lifecycle
import TypeFlow.Tree.Pairing

/-!
# Scopes

While a tree is installed, the scopes that enclose the present node are kept, innermost first: local
variables, the type of `self`, and where returned values go. Blocks see the variables of what
encloses them.
-/

set_option autoImplicit false

namespace TypeFlow

namespace Scope

inductive Kind where
  | toplevel
  | moduleBody
  | method
  | block
  deriving DecidableEq, Repr

end Scope

structure Scope where
  kind : Scope.Kind
  /-- The node that owns the variables of the scope. -/
  owner : NodeId
  self : Ty
  vars : OrderedMap String VertexId := {}
  ret : Option VertexId := none
  blockParam : Option VertexId := none
  /-- The nodes whose values the scope returns. -/
  returns : List NodeId := []

namespace Scope

def local? (name : String) : List Scope → Option VertexId
  | [] => none
  | s :: outer =>
    match s.vars.get? name with
    | some v => some v
    | none => if s.kind = .block then local? name outer else none

def method? : List Scope → Option Scope
  | [] => none
  | s :: outer =>
    match s.kind with
    | .method => some s
    | .block => method? outer
    | .toplevel | .moduleBody => none

def modifyMethod (f : Scope → Scope) : List Scope → List Scope
  | [] => []
  | s :: outer =>
    match s.kind with
    | .method => f s :: outer
    | .block => s :: modifyMethod f outer
    | .toplevel | .moduleBody => s :: outer

def block? (scopes : List Scope) : Option Scope := scopes.head?.filter fun s => s.kind = .block

def modifyInnermost (f : Scope → Scope) : List Scope → List Scope
  | [] => []
  | s :: outer => f s :: outer

def addReturn (n : NodeId) (s : Scope) : Scope := { s with returns := s.returns ++ [n] }

def addVar (name : String) (v : VertexId) (s : Scope) : Scope :=
  { s with vars := s.vars.insert name v }

def selfType (scopes : List Scope) : Ty := (scopes.head?.map Scope.self).getD (.plain Core.object)

end Scope

structure Place where
  path : String
  reuse : Node.Pairing := []
  /-- The enclosing modules, innermost first. -/
  nesting : List ModuleId := [Core.object]

def Place.module (p : Place) : ModuleId := p.nesting.headD Core.object

structure Installation where
  engine : Engine
  scopes : List Scope := []

abbrev InstallM := EStateM Fault Installation

namespace InstallM

def onEngine {α : Type} (f : Engine → α × Engine) : InstallM α :=
  modifyGet fun i =>
    let (a, engine) := f i.engine
    (a, { i with engine })

def changeEngine (f : Engine → Engine) : InstallM Unit := onEngine fun e => ((), f e)

def changeScopes (f : List Scope → List Scope) : InstallM Unit :=
  modify fun i => { i with scopes := f i.scopes }

def scopes : InstallM (List Scope) := return (← get).scopes

def source (t : Ty) : InstallM VertexId := onEngine (·.source [t])

def nil : InstallM VertexId := source .nil

def symbol : InstallM VertexId := source (.plain Core.symbol)

def own (n : NodeId) (v : VertexId) : InstallM Unit :=
  changeEngine (·.modifyNode n fun r => { r with vertices := r.vertices ++ [v] })

def vertex (n : NodeId) (label : String) : InstallM VertexId := do
  let v ← onEngine (·.newVertex label (some n))
  own n v
  return v

def ownedSource (n : NodeId) (t : Ty) : InstallM VertexId := do
  let v ← onEngine (·.newSource [t] (some n))
  own n v
  return v

def register (n : NodeId) (r : Registration) : InstallM Unit :=
  changeEngine (·.modifyNode n fun x => { x with registrations := x.registrations ++ [r] })

def defineLocal (name : String) : InstallM VertexId := do
  match (← scopes).head? with
  | none => onEngine Engine.emptyVertex
  | some scope =>
    let v ← vertex scope.owner "local"
    changeScopes (Scope.modifyInnermost (Scope.addVar name v))
    return v

def localVar (name : String) : InstallM VertexId := do
  match Scope.local? name (← scopes) with
  | some v => return v
  | none => defineLocal name

def selfSide (p : Place) : InstallM Side := do
  match Scope.selfType (← scopes) with
  | .singletonOf m => return ⟨m, true⟩
  | .instanceOf m _ => return ⟨m, false⟩
  | _ => return ⟨p.module, false⟩

def defineIvar (p : Place) (n : NodeId) (name : String) : InstallM VertexId := do
  let key : MemberKey := ⟨← selfSide p, name⟩
  let v ← onEngine (·.addIvarDef key (.node n))
  register n (.ivar key)
  return v

def pushScope (s : Scope) : InstallM Unit := changeScopes (s :: ·)

def popScope : InstallM (Option Scope) :=
  modifyGet fun i => (i.scopes.head?, { i with scopes := i.scopes.tail })

def lastOrNil (vs : List VertexId) : InstallM VertexId :=
  match vs.getLast? with
  | some v => return v
  | none => nil

end InstallM

end TypeFlow
