import TypeFlow.World.Entity

/-!
# Rules

A site stands for a piece of the program whose constraints depend on what is known so far; its rule
says which. Rules are compared to decide whether a site can stand in for another.
-/

set_option autoImplicit false

namespace TypeFlow

structure ConstRead where
  name : String
  scope : Option ModuleId
  scopes : List ModuleId
  ret : VertexId
  deriving DecidableEq, Repr

structure TypeRead where
  type : SigType
  ret : VertexId
  deriving DecidableEq

structure MethodDecl where
  key : MemberKey
  overloads : List MethodType
  overloading : Bool
  deriving DecidableEq

structure Formals where
  req : List String := []
  opt : List String := []
  rest : Option String := none
  post : List String := []
  block : Option String := none
  deriving DecidableEq, Repr

namespace Formals

def positional (f : Formals) : List String := f.req ++ f.opt ++ f.rest.toList ++ f.post

def lower (f : Formals) : Nat := f.req.length + f.post.length

def upper (f : Formals) : Option Nat :=
  if f.rest.isNone then some (f.lower + f.opt.length) else none

end Formals

structure VertexTable where
  entries : List (String × VertexId)
  deriving DecidableEq, Repr

namespace VertexTable

def ofList (es : List (String × VertexId)) : VertexTable :=
  let table := es.foldl (fun m e => m.insert e.1 e.2) ({} : OrderedMap String VertexId)
  ⟨table.entries.mergeSort fun a b => decide (a.1 ≤ b.1)⟩

def get? (t : VertexTable) (name : String) : Option VertexId :=
  (t.entries.find? fun e => e.1 = name).map Prod.snd

end VertexTable

structure MethodDef where
  key : MemberKey
  formals : Formals
  args : VertexTable
  block : Option VertexId
  ret : VertexId
  deriving DecidableEq, Repr

structure ReturnCheck where
  actual : VertexId
  formal : VertexId
  deriving DecidableEq, Repr

structure Call where
  recv : VertexId
  name : String
  args : List VertexId
  splats : List Bool
  keywords : Option VertexId
  block : Option VertexId
  /-- Whether overriding methods of subclasses are called too. -/
  subclasses : Bool
  ret : VertexId
  deriving DecidableEq, Repr

structure GlobalRead where
  name : String
  ret : VertexId
  deriving DecidableEq, Repr

structure IvarRead where
  key : MemberKey
  proxy : VertexId
  ret : VertexId
  deriving DecidableEq, Repr

structure MultiAssign where
  rhs : VertexId
  lhs : List VertexId
  deriving DecidableEq, Repr

inductive Rule where
  | constRead (r : ConstRead)
  | typeRead (r : TypeRead)
  | methodDecl (r : MethodDecl)
  | methodDef (r : MethodDef)
  | returnCheck (r : ReturnCheck)
  | call (r : Call)
  | globalRead (r : GlobalRead)
  | ivarRead (r : IvarRead)
  | multiAssign (r : MultiAssign)
  deriving DecidableEq

namespace Rule

def name : Rule → String
  | .constRead _ => "const_read"
  | .typeRead _ => "type_read"
  | .methodDecl _ => "method_decl"
  | .methodDef _ => "method_def"
  | .returnCheck _ => "check_return"
  | .call _ => "call"
  | .globalRead _ => "gvar_read"
  | .ivarRead _ => "ivar_read"
  | .multiAssign _ => "masgn"

def inputs : Rule → List VertexId
  | .call c => c.recv :: c.args ++ c.block.toList
  | .returnCheck c => [c.actual]
  | .multiAssign m => [m.rhs]
  | _ => []

def ret : Rule → Option VertexId
  | .constRead r => some r.ret
  | .typeRead r => some r.ret
  | .methodDef r => some r.ret
  | .call r => some r.ret
  | .globalRead r => some r.ret
  | .ivarRead r => some r.ret
  | _ => none

end Rule

structure SiteKey where
  slot : String
  index : Nat := 0
  deriving DecidableEq, Repr

end TypeFlow
