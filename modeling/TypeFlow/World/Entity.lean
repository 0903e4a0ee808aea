import TypeFlow.Flow.Type
import TypeFlow.Ordered.Map
import TypeFlow.Ordered.Set
import TypeFlow.Tree.Signature

/-!
# Named things

What is known about modules, methods, constants and instance variables, together with the sites
that asked. Each entry records where its definitions came from, so that they can be withdrawn one by
one; entries themselves stay.
-/

set_option autoImplicit false

namespace TypeFlow

inductive DefOrigin where
  /-- It was there from the start and is never withdrawn. -/
  | builtin
  | node (id : NodeId)
  deriving DecidableEq, Repr

structure Side where
  module : ModuleId
  singleton : Bool
  deriving DecidableEq, Repr, Inhabited

structure MemberKey where
  side : Side
  name : String
  deriving DecidableEq, Repr

structure ConstKey where
  module : ModuleId
  name : String
  deriving DecidableEq, Repr

inductive Builtin where
  | classNew
  /-- Setting up an instance, whatever the arguments. -/
  | acceptAll
  | procCall
  | arrayAt
  | arrayPush
  deriving DecidableEq, Repr

structure MethodEntity where
  /-- Sites of signatures. -/
  decls : OrderedSet SiteId := {}
  /-- Sites of bodies. -/
  defs : OrderedSet SiteId := {}
  /-- Other names that calls are redirected to. -/
  aliases : OrderedMap DefOrigin String := {}
  builtin : Option Builtin := none
  /-- Sites whose last look-up consulted this entry. -/
  callsites : OrderedSet SiteId := {}
  deriving DecidableEq, Repr, Inhabited

namespace MethodEntity

def exists? (m : MethodEntity) : Bool :=
  m.builtin.isSome || !m.decls.isEmpty || !m.defs.isEmpty

def aliasTarget (m : MethodEntity) : Option String := m.aliases.first?.map Prod.snd

end MethodEntity

structure ConstEntity where
  defs : OrderedSet DefOrigin := {}
  vertex : VertexId
  /-- Sites whose last look-up consulted this entry. -/
  followers : OrderedSet SiteId := {}
  deriving DecidableEq, Repr

def ConstEntity.exists? (c : ConstEntity) : Bool := !c.defs.isEmpty

structure IvarEntity where
  defs : OrderedSet DefOrigin := {}
  vertex : VertexId
  deriving DecidableEq, Repr

def IvarEntity.exists? (i : IvarEntity) : Bool := !i.defs.isEmpty

structure ModuleDecl where
  isClass : Bool
  superclass : Option SuperclassRef := none
  typeParams : List String := []
  deriving DecidableEq

structure Lineage where
  superclass : Option ModuleId := none
  superclassArgs : List SigType := []
  typeParams : List String := []
  deriving DecidableEq

structure Sided (α : Type) where
  ofInstances : α
  ofSingleton : α
  deriving DecidableEq, Repr

namespace Sided

variable {α : Type}

def get (s : Sided α) (singleton : Bool) : α := if singleton then s.ofSingleton else s.ofInstances

def modify (s : Sided α) (singleton : Bool) (f : α → α) : Sided α :=
  if singleton then { s with ofSingleton := f s.ofSingleton }
  else { s with ofInstances := f s.ofInstances }

end Sided

structure Module where
  path : ConstPath := []
  decls : OrderedMap DefOrigin ModuleDecl := {}
  lineage : Lineage := {}
  includes : OrderedMap (DefOrigin × ModuleId) (List SigType) := {}
  subclasses : OrderedSet ModuleId := {}
  methods : Sided (OrderedMap String MethodEntity) := ⟨{}, {}⟩
  ivars : Sided (OrderedMap String IvarEntity) := ⟨{}, {}⟩
  consts : OrderedMap String ConstEntity := {}
  /-- Sites whose last run asked for the ancestry of this module. -/
  subclassChecks : OrderedSet SiteId := {}
  /-- Sites that read an instance variable of this module. -/
  ivarReads : OrderedSet SiteId := {}

namespace Module

def exists? (m : Module) : Bool := !m.decls.isEmpty

def isClass (m : Module) : Bool := m.decls.first?.all fun d => d.2.isClass

def superclass (m : Module) : Option ModuleId := m.lineage.superclass

def typeParams (m : Module) : List String := m.lineage.typeParams

def included (m : Module) : List ModuleId := m.includes.keys.map Prod.snd

def name (m : Module) : String := String.intercalate "::" m.path

end Module

inductive Registration where
  | module (m : ModuleId)
  | inclusion (m target : ModuleId)
  | const (key : ConstKey)
  | ivar (key : MemberKey)
  | alias (key : MemberKey)
  deriving DecidableEq, Repr

end TypeFlow
