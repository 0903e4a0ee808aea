import TypeFlow.Workspace.Documents

/-!
# Questions about a workspace

What is under a position, where it is defined, and what is known about methods and constants.
-/

set_option autoImplicit false

namespace TypeFlow

structure Location where
  path : String
  span : Span
  deriving DecidableEq, Repr

namespace Workspace

def nodeAt? (w : Workspace) (path : String) (pos : Pos) : Option Node := do
  let tree ← w.tree? path
  (tree.walk.filter fun n => n.span.contains pos).getLast?

def call? (w : Workspace) (n : NodeId) : Option Call := do
  let record ← w.engine.record? n
  record.sites.toList.findSome? fun s => do
    let site ← w.engine.site? s
    match site.rule with
    | .call c => if site.node = n ∧ site.destroyed = false then some c else none
    | _ => none

def receiverKeys (w : Workspace) (n : NodeId) : List MemberKey :=
  match w.call? n with
  | none => []
  | some c =>
    (OrderedSet.ofList ((w.engine.typesAt c.recv).filterMap fun t =>
      (Side.ofType? t).map fun s => (⟨s.1, c.name⟩ : MemberKey))).toList

def hover? (w : Workspace) (path : String) (pos : Pos) : Option String := do
  let n ← w.nodeAt? path pos
  let keys := match n.form with
    | .call .. => w.receiverKeys n.id
    | _ => []
  if keys.isEmpty then
    let v ← (← w.engine.record? n.id).ret
    return w.engine.showVertex v
  else return String.intercalate "\n" (keys.map w.engine.world.methodName)

def keysAlong (w : World) : List Side → String → List MemberKey
  | [], _ => []
  | side :: rest, name =>
    (Lookup.aliasTrail w side name).map (MemberKey.mk side)
      ++ keysAlong w rest (Lookup.finalName w side name)

def withIncluded (w : World) (side : Side) : List Side :=
  if side.singleton then [side]
  else side :: (w.get side.module).included.reverse.map fun m => ⟨m, false⟩

def lookupKeys (w : World) (key : MemberKey) : List MemberKey :=
  keysAlong w ((w.chain key.side).flatMap (withIncluded w)) key.name

def bodiesOf (e : Engine) (key : MemberKey) : List Location :=
  match (lookupKeys e.world key).findSome? fun k => (e.world.method? k).filter
      MethodEntity.exists? with
  | none => []
  | some entity =>
    entity.defs.toList.filterMap fun s => do
      let site ← e.site? s
      let record ← e.record? site.node
      return { path := record.path, span := record.span }

def definitions (w : Workspace) (path : String) (pos : Pos) : List Location :=
  match w.nodeAt? path pos with
  | none => []
  | some n => (OrderedSet.ofList ((w.receiverKeys n.id).flatMap (bodiesOf w.engine))).toList

def methodSignatures (w : Workspace) (path : ConstPath) (singleton : Bool) (name : String) :
    List String :=
  match w.engine.world.find? path with
  | none => []
  | some m =>
    match w.engine.world.method? ⟨⟨m, singleton⟩, name⟩ with
    | none => []
    | some entity =>
      entity.defs.toList.filterMap fun s =>
        match w.engine.rule? s with
        | some (.methodDef d) => some ("def " ++ name ++ ": " ++ d.signature w.engine)
        | _ => none

def constantType? (w : Workspace) (path : ConstPath) : Option String := do
  let name ← path.getLast?
  let parent ← w.engine.world.find? path.dropLast
  let c ← w.engine.world.const? ⟨parent, name⟩
  if c.exists? then some (w.engine.showVertex c.vertex) else none

end Workspace

end TypeFlow
