import TypeFlow.Site.Dispatch
import TypeFlow.Site.Reading

/-!
# The life of a site

A site is created by its owner, runs whenever something it depends on changes, and is destroyed
together with everything its last run brought about. Installing the effects of a run applies the
difference to the run before, part by part; a fault in one part leaves the parts before it
installed.
-/

set_option autoImplicit false

namespace TypeFlow

abbrev RunM := EStateM Fault Run

def RunM.ofEngine {α : Type} (m : EngineM α) : RunM α := fun r =>
  match m r.engine with
  | .ok a engine => .ok a { r with engine }
  | .error f engine => .error f { r with engine }

namespace Rule

def run (node : NodeId) : Rule → Staging Unit
  | .constRead r => r.run
  | .typeRead r => r.run
  | .methodDecl _ => return ()
  | .methodDef r => r.run node
  | .returnCheck r => r.run node
  | .call r => r.run node
  | .globalRead r => r.run
  | .ivarRead r => r.run
  | .multiAssign r => r.run

def register (s : SiteId) : Rule → EngineM Unit
  | .methodDecl r => modify fun e => e.addMethodDecl r.key s
  | .methodDef r => do
    match r.formals.positional.find? fun name => (r.args.get? name).isNone with
    | some param => throw (.malformedFormals ((← get).world.methodName r.key) param)
    | none => modify fun e => e.addMethodDef r.key s
  | .ivarRead r => modify fun e =>
    e.modifyWorld (·.modify r.key.side.module fun x => { x with ivarReads := x.ivarReads.insert s })
  | _ => return ()

def unregister (s : SiteId) (e : Engine) : Rule → Engine
  | .methodDecl r => e.removeMethodDecl r.key s
  | .methodDef r => e.removeMethodDef r.key s
  | .ivarRead r =>
    e.modifyWorld (·.modify r.key.side.module fun x => { x with ivarReads := x.ivarReads.erase s })
  | _ => e

end Rule

namespace Engine

def modifyListeners (e : Engine) (vs : List VertexId)
    (f : OrderedSet SiteId → OrderedSet SiteId) : Engine :=
  { e with graph := vs.foldl (fun g v =>
      g.modify v fun x => { x with listeners := f x.listeners }) e.graph }

def enterSite (e : Engine) (node : NodeId) (rule : Rule) : SiteId × Engine :=
  let (i, sites) := e.sites.alloc { node, rule }
  let s : SiteId := ⟨i⟩
  let e := { e with sites, stats := e.stats.create rule.name }
  let e := e.modifyListeners rule.inputs (·.insert s)
  (s, e.modifyNode node fun r => { r with sites := r.sites.insert s })

def markDestroyed (e : Engine) (s : SiteId) (site : Site) : Engine :=
  let e := e.modifySite s fun x => { x with destroyed := true }
  let e := e.modifyListeners site.rule.inputs (·.erase s)
  e.modifyNode site.node fun r => { r with sites := r.sites.erase s }

def siteMatches (e : Engine) (s : SiteId) (node : NodeId) (rule : Rule) : Bool :=
  (e.site? s).any fun x => !x.destroyed && decide (x.node = node) && decide (x.rule = rule)

def createSite (node : NodeId) (rule : Rule) : EngineM SiteId := do
  let s ← modifyGet fun e => e.enterSite node rule
  rule.register s
  modify fun e => e.schedule s
  return s

end Engine

namespace Run

def installEdges (r : Run) : Run :=
  let asked := r.effects.pending.edges
  let had := r.effects.installed.edges
  let e := (asked.toList.filter fun x => !had.contains x).foldl
    (fun e x => (e.addEdge x.1 x.2).2) r.engine
  let e := (had.toList.filter fun x => !asked.contains x).foldl
    (fun e x => (e.removeEdge x.1 x.2).2) e
  { engine := e
    effects := {
      installed := { r.effects.installed with edges := asked }
      pending := { r.effects.pending with edges := {} } } }

def keeps (r : Run) (ask : SiteKey × NodeId × Rule) : Bool :=
  (r.effects.installed.sites.get? ask.1).any fun s => r.engine.siteMatches s ask.2.1 ask.2.2

def createSites : List (SiteKey × NodeId × Rule) → OrderedMap SiteKey SiteId →
    EngineM (OrderedMap SiteKey SiteId)
  | [], out => return out
  | (key, node, rule) :: rest, out => do
    let s ← Engine.createSite node rule
    createSites rest (out.insert key s)

def installSites (destroy : SiteId → EngineM Unit) : RunM Unit := do
  let r ← get
  let asked := r.effects.pending.sites.entries
  let (kept, missing) := asked.partition r.keeps
  let keptKeys := kept.map Prod.fst
  let stale := r.effects.installed.sites.entries.filter fun x => !decide (x.1 ∈ keptKeys)
  let keptSites := kept.filterMap fun x =>
    (r.effects.installed.sites.get? x.1).map fun s => (x.1, s)
  set { r with effects := {
    installed := { r.effects.installed with sites := {} }
    pending := { r.effects.pending with sites := {} } } }
  RunM.ofEngine (stale.forM fun x => destroy x.2)
  let sites ← RunM.ofEngine (createSites missing ⟨keptSites⟩)
  modify fun r => { r with effects :=
    { r.effects with installed := { r.effects.installed with sites } } }

def installDiagnostics (r : Run) : Run :=
  { r with effects := {
    installed := { r.effects.installed with diagnostics := r.effects.pending.diagnostics }
    pending := { r.effects.pending with diagnostics := [] } } }

def forgetMethods (s : SiteId) : List MemberKey → EngineM Unit
  | [] => return ()
  | key :: rest => do
    let e ← get
    if (e.world.method? key).any fun m => m.callsites.contains s then
      set (e.modifyWorld (·.modifyMethod key fun m => { m with callsites := m.callsites.erase s }))
      forgetMethods s rest
    else throw (.missingReverseIndex s ("method " ++ e.world.methodName key))

def forgetConsts (s : SiteId) : List ConstKey → EngineM Unit
  | [] => return ()
  | key :: rest => do
    let e ← get
    if (e.world.const? key).any fun c => c.followers.contains s then
      set (e.modifyWorld (·.modifyConst key fun c => { c with followers := c.followers.erase s }))
      forgetConsts s rest
    else throw (.missingReverseIndex s ("constant " ++ e.world.constName key))

def forgetSuperclasses (s : SiteId) : List ModuleId → EngineM Unit
  | [] => return ()
  | m :: rest => do
    let e ← get
    if (e.module m).subclassChecks.contains s then
      set (e.modifyWorld (·.modify m fun x =>
        { x with subclassChecks := x.subclassChecks.erase s }))
      forgetSuperclasses s rest
    else throw (.missingReverseIndex s ("superclass of " ++ e.world.name m))

def noteMethods (s : SiteId) (keys : List MemberKey) (e : Engine) : Engine :=
  keys.foldl (fun e key => e.modifyWorld (·.modifyMethod key fun m =>
    { m with callsites := m.callsites.insert s })) e

def noteConsts (s : SiteId) (keys : List ConstKey) (e : Engine) : Engine :=
  keys.foldl (fun e key => (e.ensureConst key).2.modifyWorld (·.modifyConst key fun c =>
    { c with followers := c.followers.insert s })) e

def noteSuperclasses (s : SiteId) (ms : List ModuleId) (e : Engine) : Engine :=
  ms.foldl (fun e m => e.modifyWorld (·.modify m fun x =>
    { x with subclassChecks := x.subclassChecks.insert s })) e

def installMethodReads (s : SiteId) : RunM Unit := do
  RunM.ofEngine (forgetMethods s (← get).effects.installed.methodReads.toList)
  modify fun r => {
    engine := noteMethods s r.effects.pending.methodReads.toList r.engine
    effects := {
      installed := { r.effects.installed with methodReads := r.effects.pending.methodReads }
      pending := { r.effects.pending with methodReads := {} } } }

def installConstReads (s : SiteId) : RunM Unit := do
  RunM.ofEngine (forgetConsts s (← get).effects.installed.constReads.toList)
  modify fun r => {
    engine := noteConsts s r.effects.pending.constReads.toList r.engine
    effects := {
      installed := { r.effects.installed with constReads := r.effects.pending.constReads }
      pending := { r.effects.pending with constReads := {} } } }

def installSuperclassReads (s : SiteId) : RunM Unit := do
  RunM.ofEngine (forgetSuperclasses s (← get).effects.installed.superclassReads.toList)
  modify fun r => {
    engine := noteSuperclasses s r.effects.pending.superclassReads.toList r.engine
    effects := {
      installed := { r.effects.installed with superclassReads := r.effects.pending.superclassReads }
      pending := { r.effects.pending with superclassReads := {} } } }

def installReads : Owner → RunM Unit
  | .site s => do
    installMethodReads s
    installConstReads s
    installSuperclassReads s
  | .node _ => return ()

def installScratch (r : Run) : Run :=
  let asked := r.effects.pending.scratch
  let stale := r.effects.installed.scratch.entries.filter fun x =>
    !decide (asked.get? x.1 = some x.2)
  { engine := stale.foldl (fun e x => e.destroyVertex x.2) r.engine
    effects := {
      installed := { r.effects.installed with scratch := asked }
      pending := { r.effects.pending with scratch := {}, ordinals := {} } } }

def installWith (destroy : SiteId → EngineM Unit) (owner : Owner) : RunM Unit := do
  modify installEdges
  installSites destroy
  modify installDiagnostics
  installReads owner
  modify installScratch

end Run

namespace Engine

def onSiteEffects (s : SiteId) (effects : Effects) (work : RunM Unit)
    (finish : Engine → Engine) : EngineM Unit := fun e =>
  match work { engine := e.modifySite s fun x => { x with effects := {} }, effects } with
  | .ok () r => .ok () (finish (r.engine.modifySite s fun x => { x with effects := r.effects }))
  | .error f r =>
    .error f (finish (r.engine.modifySite s fun x => { x with effects := r.effects }))

def destroyWithin : Nat → SiteId → EngineM Unit
  | 0, _ => return ()
  | n + 1, s => do
    match (← get).site? s with
    | none => return ()
    | some site =>
      if site.destroyed then return ()
      modify fun e => site.rule.unregister s (e.markDestroyed s site)
      onSiteEffects s site.effects.discard (Run.installWith (destroyWithin n) (.site s)) fun e =>
        { e with
          sites := e.sites.release s.index
          stats := e.stats.destroy site.rule.name }

def destroySite (s : SiteId) : EngineM Unit := do
  destroyWithin ((← get).sites.size + 1) s

def install (owner : Owner) : RunM Unit := Run.installWith destroySite owner

def ofStaging (m : Staging Unit) : RunM Unit := fun r =>
  match m r with
  | some ((), r) => .ok () r
  | none => .error .endlessMatch r

def runSite (s : SiteId) : EngineM Unit := do
  match (← get).site? s with
  | none => return ()
  | some site =>
    if site.destroyed then return ()
    modify fun e => { e with stats := { e.stats with runs := e.stats.runs + 1 } }
    onSiteEffects s site.effects.discard
      (do ofStaging (site.rule.run site.node); install (.site s)) id

end Engine

end TypeFlow
