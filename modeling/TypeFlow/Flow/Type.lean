import TypeFlow.Ident

/-!
# Types that flow

The abstract values that a vertex holds. Some refer to further vertices: the type arguments of an
instance, the elements of an array, the vertex that collects what a type variable stands for.
-/

set_option autoImplicit false

namespace TypeFlow

inductive Ty where
  /-- The type of expressions that never produce a value. -/
  | bot
  | nil
  | true
  | false
  | untyped
  | instanceOf (module : ModuleId) (args : List VertexId)
  /-- The class or module object itself. -/
  | singletonOf (module : ModuleId)
  /-- An array; its elements one by one while its shape is known, and the union of them all. -/
  | array (elems : Option (List VertexId)) (elem : VertexId)
  | proc (block : BlockId)
  | var (name : String) (vertex : VertexId)
  deriving DecidableEq, Repr, Inhabited

namespace Ty

def plain (m : ModuleId) : Ty := .instanceOf m []

def isStatic : Ty → Bool
  | .instanceOf _ args => args.isEmpty
  | .array .. | .var .. => Bool.false
  | _ => Bool.true

end Ty

end TypeFlow
