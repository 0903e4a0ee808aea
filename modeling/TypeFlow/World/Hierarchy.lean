import TypeFlow.Ordered.Reach
import TypeFlow.World.Entity

/-!
# The class hierarchy

A world is the list of all modules, in the order in which their paths were first named. The first
fifteen are built in. The declarations of a module decide its superclass, and every module knows its
direct subclasses.
-/

set_option autoImplicit false

namespace TypeFlow

namespace Core

def basicObject : ModuleId := ⟨0⟩
def object : ModuleId := ⟨1⟩
def module : ModuleId := ⟨2⟩
def classModule : ModuleId := ⟨3⟩
def kernel : ModuleId := ⟨4⟩
def integer : ModuleId := ⟨5⟩
def float : ModuleId := ⟨6⟩
def string : ModuleId := ⟨7⟩
def symbol : ModuleId := ⟨8⟩
def nilClass : ModuleId := ⟨9⟩
def trueClass : ModuleId := ⟨10⟩
def falseClass : ModuleId := ⟨11⟩
def array : ModuleId := ⟨12⟩
def hash : ModuleId := ⟨13⟩
def proc : ModuleId := ⟨14⟩

def names : List String :=
  ["BasicObject", "Object", "Module", "Class", "Kernel", "Integer", "Float", "String", "Symbol",
    "NilClass", "TrueClass", "FalseClass", "Array", "Hash", "Proc"]

end Core

structure World where
  modules : Array Module := #[]

namespace World

def get (w : World) (m : ModuleId) : Module := (w.modules[m.index]?).getD {}

def modify (w : World) (m : ModuleId) (f : Module → Module) : World :=
  { modules := w.modules.modify m.index f }

def name (w : World) (m : ModuleId) : String := (w.get m).name

def find? (w : World) (path : ConstPath) : Option ModuleId :=
  if path.isEmpty then some Core.object
  else (w.modules.findIdx? fun m => m.path == path).map ModuleId.mk

def resolve (w : World) (path : ConstPath) : ModuleId × World :=
  match w.find? path with
  | some m => (m, w)
  | none => (⟨w.modules.size⟩, { modules := w.modules.push { path } })

def declaredLineage (w : World) (m : ModuleId) : Lineage × World :=
  let entity := w.get m
  let decls := entity.decls.values
  let typeParams := ((decls.find? fun d => !d.typeParams.isEmpty).map ModuleDecl.typeParams).getD []
  if m = Core.basicObject ∨ entity.exists? = false then ({ typeParams }, w)
  else
    match decls.findSome? ModuleDecl.superclass with
    | some ref =>
      let (parent, w) := w.resolve ref.path
      if parent = m then ({ superclass := some Core.object, typeParams }, w)
      else ({ superclass := some parent, superclassArgs := ref.args, typeParams }, w)
    | none =>
      if entity.isClass then ({ superclass := some Core.object, typeParams }, w)
      else ({ typeParams }, w)

def moveSubclass (w : World) (m : ModuleId) (old new : Option ModuleId) : World :=
  if old = new then w
  else
    let w := match old with
      | some p => w.modify p fun x => { x with subclasses := x.subclasses.erase m }
      | none => w
    match new with
    | some p => w.modify p fun x => { x with subclasses := x.subclasses.insert m }
    | none => w

def refresh (w : World) (m : ModuleId) : Bool × World :=
  let (lineage, w) := w.declaredLineage m
  let before := (w.get m).lineage
  if before = lineage then (false, w)
  else
    let w := w.modify m fun x => { x with lineage }
    (true, w.moveSubclass m before.superclass lineage.superclass)

def declare (w : World) (m : ModuleId) (origin : DefOrigin) (decl : ModuleDecl) : Bool × World :=
  (w.modify m fun x => { x with decls := x.decls.insert origin decl }).refresh m

def withdraw (w : World) (m : ModuleId) (origin : DefOrigin) : Bool × World :=
  (w.modify m fun x => { x with decls := x.decls.erase origin }).refresh m

def parent? (w : World) (s : Side) : Option Side :=
  if s.singleton then
    if s.module = Core.basicObject then some ⟨Core.classModule, false⟩
    else if (w.get s.module).isClass then (w.get s.module).superclass.map fun p => ⟨p, true⟩
    else some ⟨Core.module, false⟩
  else (w.get s.module).superclass.map fun p => ⟨p, false⟩

def chain (w : World) (s : Side) : List Side := trail w.parent? (2 * w.modules.size + 1) s

def descendants (w : World) (m : ModuleId) : List ModuleId :=
  let steps := w.modules.foldl (fun n x => n + x.subclasses.size + 1) 2
  reach (fun m => (w.get m).subclasses.toList) steps [m]

def includesModule (w : World) (m target : ModuleId) : Bool :=
  (seek (fun m => (w.get m).included) target (w.modules.size + 1) m []).1

def superclasses (w : World) (m : ModuleId) : List ModuleId :=
  trail (fun m => (w.get m).superclass) (w.modules.size + 1) m

def offers (w : World) (target m : ModuleId) : Bool :=
  m = target || w.includesModule m target

def throughFirst (p : ModuleId → Bool) : List ModuleId → List ModuleId
  | [] => []
  | m :: ms => if p m then [m] else m :: throughFirst p ms

def isSubclass (w : World) (m target : ModuleId) : Bool × List ModuleId :=
  let line := w.superclasses m
  (line.any (w.offers target), throughFirst (w.offers target) line)

def dependents (w : World) (m : ModuleId) : List SiteId :=
  let ofModule := fun m =>
    let x := w.get m
    (x.methods.ofInstances.values ++ x.methods.ofSingleton.values).flatMap
        (fun e => e.callsites.toList)
      ++ x.consts.values.flatMap (fun c => c.followers.toList)
      ++ x.subclassChecks.toList ++ x.ivarReads.toList
  (OrderedSet.ofList ((w.descendants m).flatMap ofModule)).toList

def method? (w : World) (key : MemberKey) : Option MethodEntity :=
  ((w.get key.side.module).methods.get key.side.singleton).get? key.name

def const? (w : World) (key : ConstKey) : Option ConstEntity :=
  (w.get key.module).consts.get? key.name

def ivar? (w : World) (key : MemberKey) : Option IvarEntity :=
  ((w.get key.side.module).ivars.get key.side.singleton).get? key.name

def methodName (w : World) (key : MemberKey) : String :=
  w.name key.side.module ++ (if key.side.singleton then "." else "#") ++ key.name

def constName (w : World) (key : ConstKey) : String :=
  if key.module = Core.object then key.name else w.name key.module ++ "::" ++ key.name

def modifyMethod (w : World) (key : MemberKey) (f : MethodEntity → MethodEntity) : World :=
  w.modify key.side.module fun x =>
    { x with methods := x.methods.modify key.side.singleton fun t => t.upsert key.name {} f }

def modifyConst (w : World) (key : ConstKey) (f : ConstEntity → ConstEntity) : World :=
  w.modify key.module fun x => { x with consts := x.consts.modify key.name f }

def modifyIvar (w : World) (key : MemberKey) (f : IvarEntity → IvarEntity) : World :=
  w.modify key.side.module fun x =>
    { x with ivars := x.ivars.modify key.side.singleton fun t => t.modify key.name f }

end World

end TypeFlow
