import TypeFlow.Engine.State

/-!
# Definitions come and go

Methods, constants, instance variables, modules and inclusions are defined and withdrawn by origin.
Each change puts the sites into the queue whose last look-up it can affect.
-/

set_option autoImplicit false

namespace TypeFlow.Engine

def resolvePath (e : Engine) (path : ConstPath) : ModuleId × Engine :=
  let (m, world) := e.world.resolve path
  (m, { e with world })

def scheduleCallsites (e : Engine) (key : MemberKey) : Engine :=
  e.scheduleAll (((e.world.method? key).map fun m => m.callsites.toList).getD [])

def scheduleDefs (e : Engine) (key : MemberKey) : Engine :=
  e.scheduleAll (((e.world.method? key).map fun m => m.defs.toList).getD [])

def changeDecls (e : Engine) (key : MemberKey) (f : OrderedSet SiteId → OrderedSet SiteId) :
    Engine :=
  let e := e.modifyWorld (·.modifyMethod key fun m => { m with decls := f m.decls })
  (e.scheduleCallsites key).scheduleDefs key

def addMethodDecl (e : Engine) (key : MemberKey) (s : SiteId) : Engine :=
  e.changeDecls key (·.insert s)

def removeMethodDecl (e : Engine) (key : MemberKey) (s : SiteId) : Engine :=
  e.changeDecls key (·.erase s)

def changeDefs (e : Engine) (key : MemberKey) (f : OrderedSet SiteId → OrderedSet SiteId) :
    Engine :=
  let e := e.modifyWorld (·.modifyMethod key fun m => { m with defs := f m.defs })
  if (e.world.method? key).all fun m => m.decls.isEmpty then e.scheduleCallsites key else e

def addMethodDef (e : Engine) (key : MemberKey) (s : SiteId) : Engine :=
  e.changeDefs key (·.insert s)

def removeMethodDef (e : Engine) (key : MemberKey) (s : SiteId) : Engine :=
  e.changeDefs key (·.erase s)

def changeAliases (e : Engine) (key : MemberKey)
    (f : OrderedMap DefOrigin String → OrderedMap DefOrigin String) : Engine :=
  (e.modifyWorld (·.modifyMethod key fun m => { m with aliases := f m.aliases })).scheduleCallsites
    key

def addAlias (e : Engine) (key : MemberKey) (origin : DefOrigin) (target : String) : Engine :=
  e.changeAliases key (·.insert origin target)

def removeAlias (e : Engine) (key : MemberKey) (origin : DefOrigin) : Engine :=
  e.changeAliases key (·.erase origin)

def ensureConst (e : Engine) (key : ConstKey) : ConstEntity × Engine :=
  match e.world.const? key with
  | some c => (c, e)
  | none =>
    let (v, e) := e.newVertex ("const:" ++ e.world.constName key) none
    let c : ConstEntity := { vertex := v }
    (c, e.modifyWorld (·.modify key.module fun x =>
      { x with consts := x.consts.insert key.name c }))

def scheduleFollowers (e : Engine) (key : ConstKey) : Engine :=
  e.scheduleAll (((e.world.const? key).map fun c => c.followers.toList).getD [])

def addConstDef (e : Engine) (key : ConstKey) (origin : DefOrigin) : VertexId × Engine :=
  let (c, e) := e.ensureConst key
  let e := e.modifyWorld (·.modifyConst key fun c => { c with defs := c.defs.insert origin })
  (c.vertex, if c.exists? then e else e.scheduleFollowers key)

def removeConstDef (e : Engine) (key : ConstKey) (origin : DefOrigin) : Engine :=
  let (c, e) := e.ensureConst key
  let e := e.modifyWorld (·.modifyConst key fun c => { c with defs := c.defs.erase origin })
  if (c.defs.erase origin).isEmpty then e.scheduleFollowers key else e

def ensureIvar (e : Engine) (key : MemberKey) : IvarEntity × Engine :=
  match e.world.ivar? key with
  | some i => (i, e)
  | none =>
    let (v, e) := e.newVertex ("ivar:" ++ key.name) none
    let i : IvarEntity := { vertex := v }
    (i, e.modifyWorld (·.modify key.side.module fun x =>
      { x with ivars := x.ivars.modify key.side.singleton fun t => t.insert key.name i }))

def scheduleIvarReads (e : Engine) (m : ModuleId) : Engine :=
  e.scheduleAll ((e.world.descendants m).flatMap fun d => (e.module d).ivarReads.toList)

def addIvarDef (e : Engine) (key : MemberKey) (origin : DefOrigin) : VertexId × Engine :=
  let (i, e) := e.ensureIvar key
  let e := e.modifyWorld (·.modifyIvar key fun i => { i with defs := i.defs.insert origin })
  (i.vertex, if i.exists? then e else e.scheduleIvarReads key.side.module)

def removeIvarDef (e : Engine) (key : MemberKey) (origin : DefOrigin) : Engine :=
  let (i, e) := e.ensureIvar key
  let e := e.modifyWorld (·.modifyIvar key fun i => { i with defs := i.defs.erase origin })
  if (i.defs.erase origin).isEmpty then e.scheduleIvarReads key.side.module else e

def scheduleDependents (e : Engine) (m : ModuleId) : Engine := e.scheduleAll (e.world.dependents m)

def addModuleDecl (e : Engine) (m : ModuleId) (origin : DefOrigin) (decl : ModuleDecl) : Engine :=
  let (changed, world) := e.world.declare m origin decl
  let e := { e with world }
  if changed then e.scheduleDependents m else e

def removeModuleDecl (e : Engine) (m : ModuleId) (origin : DefOrigin) : Engine :=
  let (changed, world) := e.world.withdraw m origin
  let e := { e with world }
  if changed then e.scheduleDependents m else e

def addInclude (e : Engine) (m : ModuleId) (origin : DefOrigin) (target : ModuleId)
    (args : List SigType) : Engine :=
  (e.modifyWorld (·.modify m fun x =>
    { x with includes := x.includes.insert (origin, target) args })).scheduleDependents m

def removeInclude (e : Engine) (m : ModuleId) (origin : DefOrigin) (target : ModuleId) : Engine :=
  if (e.module m).includes.contains (origin, target) then
    (e.modifyWorld (·.modify m fun x =>
      { x with includes := x.includes.erase (origin, target) })).scheduleDependents m
  else e

def unregister (e : Engine) (origin : DefOrigin) : Registration → Engine
  | .module m => e.removeModuleDecl m origin
  | .inclusion m target => e.removeInclude m origin target
  | .const key => e.removeConstDef key origin
  | .ivar key => e.removeIvarDef key origin
  | .alias key => e.removeAlias key origin

def rekey (e : Engine) (old new : DefOrigin) : Registration → Engine
  | .module m => e.modifyWorld (·.modify m fun x => { x with decls := x.decls.rekey old new })
  | .inclusion m target =>
    e.modifyWorld (·.modify m fun x =>
      { x with includes := x.includes.rekey (old, target) (new, target) })
  | .const key =>
    e.modifyWorld (·.modifyConst key fun c => { c with defs := c.defs.rename old new })
  | .ivar key => e.modifyWorld (·.modifyIvar key fun i => { i with defs := i.defs.rename old new })
  | .alias key =>
    e.modifyWorld (·.modifyMethod key fun m => { m with aliases := m.aliases.rekey old new })

end TypeFlow.Engine
