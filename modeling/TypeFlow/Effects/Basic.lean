import TypeFlow.Diagnostic
import TypeFlow.Site.Rule

/-!
# The effects of a run

What a site or a tree node brings about is kept in two halves: what is installed, and what the run
in progress has asked for. A run fills the pending half from scratch; installing it applies the
difference to the installed half.
-/

set_option autoImplicit false

namespace TypeFlow

abbrev ScratchKey := String × Nat

structure Pending where
  edges : OrderedSet (VertexId × VertexId) := {}
  sites : OrderedMap SiteKey (NodeId × Rule) := {}
  diagnostics : List Diagnostic := []
  methodReads : OrderedSet MemberKey := {}
  constReads : OrderedSet ConstKey := {}
  superclassReads : OrderedSet ModuleId := {}
  scratch : OrderedMap ScratchKey VertexId := {}
  ordinals : OrderedMap String Nat := {}
  deriving DecidableEq

structure Installed where
  edges : OrderedSet (VertexId × VertexId) := {}
  sites : OrderedMap SiteKey SiteId := {}
  diagnostics : List Diagnostic := []
  methodReads : OrderedSet MemberKey := {}
  constReads : OrderedSet ConstKey := {}
  superclassReads : OrderedSet ModuleId := {}
  scratch : OrderedMap ScratchKey VertexId := {}
  deriving DecidableEq

structure Effects where
  installed : Installed := {}
  pending : Pending := {}
  deriving DecidableEq

inductive Owner where
  | site (id : SiteId)
  | node (id : NodeId)
  deriving DecidableEq, Repr

namespace Effects

def mapPending (fx : Effects) (f : Pending → Pending) : Effects :=
  { fx with pending := f fx.pending }

def addEdge (fx : Effects) (src dst : VertexId) : Effects :=
  fx.mapPending fun p => { p with edges := p.edges.insert (src, dst) }

def addSite (fx : Effects) (key : SiteKey) (node : NodeId) (rule : Rule) : Effects :=
  fx.mapPending fun p => { p with sites := p.sites.insert key (node, rule) }

def addDiagnostic (fx : Effects) (d : Diagnostic) : Effects :=
  fx.mapPending fun p => { p with diagnostics := p.diagnostics ++ [d] }

def readMethod (fx : Effects) (key : MemberKey) : Effects :=
  fx.mapPending fun p => { p with methodReads := p.methodReads.insert key }

def readConst (fx : Effects) (key : ConstKey) : Effects :=
  fx.mapPending fun p => { p with constReads := p.constReads.insert key }

def readSuperclass (fx : Effects) (m : ModuleId) : Effects :=
  fx.mapPending fun p => { p with superclassReads := p.superclassReads.insert m }

def nextScratchKey (fx : Effects) (label : String) : ScratchKey × Effects :=
  let n := (fx.pending.ordinals.get? label).getD 0
  ((label, n), fx.mapPending fun p => { p with ordinals := p.ordinals.insert label (n + 1) })

def addScratch (fx : Effects) (key : ScratchKey) (v : VertexId) : Effects :=
  fx.mapPending fun p => { p with scratch := p.scratch.insert key v }

def discard (fx : Effects) : Effects := { fx with pending := {} }

def renameNodes (fx : Effects) (rename : NodeId → NodeId) : Effects :=
  { fx with installed := { fx.installed with
    diagnostics := fx.installed.diagnostics.map fun d => { d with node := rename d.node } } }

end Effects

end TypeFlow
