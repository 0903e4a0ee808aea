import TypeFlow.Engine.Definitions

/-!
# The world at the start

The built-in classes, a constant for each of them, and the built-in methods.
-/

set_option autoImplicit false

namespace TypeFlow

namespace Boot

def classDecl (superclass : Option String) (typeParams : List String) : ModuleDecl :=
  { isClass := true, superclass := superclass.map fun s => { path := [s] }, typeParams }

def declare (e : Engine) (m : ModuleId) (decl : ModuleDecl) : Engine :=
  e.addModuleDecl m .builtin decl

def enterNames (e : Engine) : Engine :=
  Core.names.foldl (fun e name => (e.resolvePath [name]).2) e

def declareClasses (e : Engine) : Engine :=
  let e := declare e Core.basicObject (classDecl none [])
  let e := declare e Core.object (classDecl (some "BasicObject") [])
  let e := declare e Core.module (classDecl (some "Object") [])
  let e := declare e Core.classModule (classDecl (some "Module") [])
  let e := declare e Core.kernel { isClass := false }
  let e := e.addInclude Core.object .builtin Core.kernel []
  let e := [Core.integer, Core.float, Core.string, Core.symbol, Core.nilClass, Core.trueClass,
      Core.falseClass, Core.proc].foldl
    (fun e m => declare e m (classDecl (some "Object") [])) e
  let e := declare e Core.array (classDecl (some "Object") ["Elem"])
  declare e Core.hash (classDecl (some "Object") ["K", "V"])

def defineConstant (e : Engine) (m : ModuleId) : Engine :=
  let (v, e) := e.addConstDef ⟨Core.object, e.world.name m⟩ .builtin
  let (src, e) := e.source [.singletonOf m]
  (e.addEdge src v).2

def defineConstants (e : Engine) : Engine :=
  (List.range Core.names.length).foldl (fun e i => defineConstant e ⟨i⟩) e

def builtins : List (MemberKey × Builtin) :=
  [(⟨⟨Core.classModule, false⟩, "new"⟩, .classNew),
    (⟨⟨Core.basicObject, false⟩, "initialize"⟩, .acceptAll),
    (⟨⟨Core.proc, false⟩, "call"⟩, .procCall),
    (⟨⟨Core.array, false⟩, "[]"⟩, .arrayAt),
    (⟨⟨Core.array, false⟩, "<<"⟩, .arrayPush)]

def defineMethods (e : Engine) : Engine :=
  builtins.foldl (fun e x =>
    e.modifyWorld (·.modifyMethod x.1 fun m => { m with builtin := some x.2 })) e

end Boot

def Engine.boot (config : Config) : Engine :=
  Boot.defineMethods (Boot.defineConstants (Boot.declareClasses (Boot.enterNames { config })))

end TypeFlow
