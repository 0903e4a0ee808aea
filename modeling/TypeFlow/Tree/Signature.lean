import TypeFlow.Ident

/-!
# Declared types

What a signature says about constants, globals and methods. A method has several overloads, each
with its own type variables, positional parameters, block and result.
-/

set_option autoImplicit false

namespace TypeFlow

inductive SigType where
  | instanceOf (path : ConstPath) (args : List SigType)
  | singletonOf (path : ConstPath)
  | var (name : String)
  | union (members : List SigType)
  | tuple (members : List SigType)
  | optional (inner : SigType)
  | nil
  | bool
  | untyped
  | receiver
  deriving Inhabited

namespace SigType

mutual

def same : SigType → SigType → Bool
  | .instanceOf p as, .instanceOf q bs => p == q && sameList as bs
  | .singletonOf p, .singletonOf q => p == q
  | .var x, .var y => x == y
  | .union as, .union bs => sameList as bs
  | .tuple as, .tuple bs => sameList as bs
  | .optional a, .optional b => same a b
  | .nil, .nil => true
  | .bool, .bool => true
  | .untyped, .untyped => true
  | .receiver, .receiver => true
  | _, _ => false

def sameList : List SigType → List SigType → Bool
  | [], [] => true
  | a :: as, b :: bs => same a b && sameList as bs
  | _, _ => false

end

mutual

theorem same_iff : (a b : SigType) → (same a b = true ↔ a = b)
  | .instanceOf p as, b => by cases b <;> simp [same, sameList_iff]
  | .singletonOf p, b => by cases b <;> simp [same]
  | .var x, b => by cases b <;> simp [same]
  | .union as, b => by cases b <;> simp [same, sameList_iff]
  | .tuple as, b => by cases b <;> simp [same, sameList_iff]
  | .optional a, b => by cases b <;> simp [same, same_iff a]
  | .nil, b => by cases b <;> simp [same]
  | .bool, b => by cases b <;> simp [same]
  | .untyped, b => by cases b <;> simp [same]
  | .receiver, b => by cases b <;> simp [same]

theorem sameList_iff : (as bs : List SigType) → (sameList as bs = true ↔ as = bs)
  | [], bs => by cases bs <;> simp [sameList]
  | a :: as, bs => by cases bs <;> simp [sameList, same_iff a, sameList_iff as]

end

instance : DecidableEq SigType := fun a b => decidable_of_iff _ (same_iff a b)

def plain (path : ConstPath) : SigType := .instanceOf path []

end SigType

structure BlockType where
  req : List SigType := []
  ret : SigType
  deriving DecidableEq

structure MethodType where
  typeParams : List String := []
  req : List SigType := []
  opt : List SigType := []
  rest : Option SigType := none
  post : List SigType := []
  block : Option BlockType := none
  ret : SigType
  deriving DecidableEq

structure SuperclassRef where
  path : ConstPath
  args : List SigType := []
  deriving DecidableEq

end TypeFlow
