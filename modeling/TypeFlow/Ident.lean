/-!
# Identities

Vertices, sites, modules, blocks and tree nodes are named by numbers. Each kind of name is a type
of its own, and each is written with its own letter.
-/

set_option autoImplicit false

namespace TypeFlow

structure VertexId where
  index : Nat
  deriving DecidableEq, Repr, Inhabited

structure SiteId where
  index : Nat
  deriving DecidableEq, Repr, Inhabited

structure ModuleId where
  index : Nat
  deriving DecidableEq, Repr, Inhabited

structure BlockId where
  index : Nat
  deriving DecidableEq, Repr, Inhabited

structure NodeId where
  index : Nat
  deriving DecidableEq, Repr, Inhabited

def VertexId.name (v : VertexId) : String := "v" ++ v.index.repr

def SiteId.name (s : SiteId) : String := "s" ++ s.index.repr

def ModuleId.name (m : ModuleId) : String := "m" ++ m.index.repr

def NodeId.name (n : NodeId) : String := "n" ++ n.index.repr

abbrev ConstPath := List String

end TypeFlow
