import TypeFlow.Document.Uninstall
import TypeFlow.Engine.Boot
import TypeFlow.Engine.Drain
import TypeFlow.Tree.Decode
import TypeFlow.Tree.Numbering

/-!
# Documents

A workspace holds the current version of each document and the engine in which they are installed. A
new version is installed beside the old one, which is torn down only afterwards, so that definitions
present in both never disappear in between. When a new version fails, the old one is installed
again.
-/

set_option autoImplicit false

namespace TypeFlow

structure Document where
  version : Nat
  tree : Node

structure Workspace where
  engine : Engine
  documents : OrderedMap String Document := {}

abbrev WorkspaceM := EStateM Fault Workspace

structure Holdings where
  vertices : List VertexId
  sites : List SiteId

namespace Engine

def holdings (e : Engine) (tree : Node) : Holdings :=
  let records := tree.walk.filterMap fun n => e.record? n.id
  { vertices := records.flatMap NodeRecord.vertices
    sites := records.flatMap fun r => r.sites.toList }

def checkReleased (path : String) (held : Holdings) : EngineM Unit := do
  let e ← get
  let vertices := held.vertices.countP fun v => (e.vertex v).alive
  let sites := held.sites.countP e.isLive
  if 0 < vertices ∨ 0 < sites then throw (.danglingReuse path vertices sites)

def reinstallTree (path : String) (tree : Node) : EngineM Unit := do
  uninstallTree tree
  let _ ← runAll
  let _ ← installTree { path } tree
  let _ ← runAll

def restore (path : String) (failed : Node) (before : Option Document) : EngineM Unit := do
  uninstallTree failed
  let _ ← runAll
  match before with
  | some doc => reinstallTree path doc.tree
  | none => return ()

def replaceTree (path : String) (before : Node) : EngineM Unit := do
  let held := (← get).holdings before
  uninstallTree before
  let _ ← runAll
  if (← get).config.validateInvariants then checkReleased path held

def attempt (m : EngineM Unit) (e : Engine) : Bool × Engine :=
  match m e with
  | .ok () e => (true, e)
  | .error _ e => (false, e)

end Engine

namespace Workspace

def ofConfig (config : Config) : Workspace := { engine := Engine.boot config }

def document? (w : Workspace) (path : String) : Option Document := w.documents.get? path

def version? (w : Workspace) (path : String) : Option Nat := (w.document? path).map Document.version

def tree? (w : Workspace) (path : String) : Option Node := (w.document? path).map Document.tree

def onEngine {α : Type} (m : EngineM α) : WorkspaceM α := fun w =>
  match m w.engine with
  | .ok a engine => .ok a { w with engine }
  | .error f engine => .error f { w with engine }

def numberTree (w : Workspace) (tree : Node) : Node × Workspace :=
  let (tree, next) := tree.number w.engine.nextNode
  (tree, { w with engine := { w.engine with nextNode := next } })

def reuse (w : Workspace) (path : String) (tree : Node) : Node.Pairing :=
  if w.engine.config.reuseUnchangedDefinitions then
    (w.tree? path).elim [] fun before => tree.pairing before
  else []

def rollBack (w : Workspace) (path : String) (failed : Node) : Workspace :=
  let before := w.document? path
  let documents := w.documents.erase path
  let (restored, engine) := Engine.attempt (Engine.restore path failed before) w.engine
  match before with
  | none => { engine := engine.reclaim.2, documents }
  | some doc =>
    if restored then { engine := engine.reclaim.2, documents := documents.insert path doc }
    else
      let (_, engine) := Engine.attempt (Engine.uninstallTree doc.tree) engine
      { engine := engine.reclaim.2, documents }

def tryInstall (path : String) (tree : Node) : WorkspaceM Unit := do
  let w ← get
  onEngine (do
    let _ ← Engine.installTree { path, reuse := w.reuse path tree } tree
    let _ ← Engine.runAll)

def updateTree (path : String) (version : Nat) (tree : Node) : WorkspaceM Unit := fun w =>
  let (tree, w) := w.numberTree tree
  match tryInstall path tree w with
  | .error f w => .error f (w.rollBack path tree)
  | .ok () w =>
    let before := w.tree? path
    let w := { w with documents := w.documents.insert path { version, tree } }
    (onEngine (do
      match before with
      | some tree => Engine.replaceTree path tree
      | none => pure ()
      modify fun e => e.reclaim.2)) w

def nextVersion (w : Workspace) (path : String) : Nat :=
  (w.version? path).elim 0 fun v => (v + 1) % Nat.pow 2 64

def update (path : String) (version : Option Nat) (source : String) : WorkspaceM Unit := do
  let version := version.getD ((← get).nextVersion path)
  match Node.parse? source with
  | some tree => updateTree path version tree
  | none => throw (.parse path)

def remove (path : String) : WorkspaceM Unit := do
  match (← get).document? path with
  | none => throw (.unknownDocument path)
  | some doc =>
    modify fun w => { w with documents := w.documents.erase path }
    onEngine (do
      Engine.uninstallTree doc.tree
      let _ ← Engine.runAll
      modify fun e => e.reclaim.2)

end Workspace

end TypeFlow
