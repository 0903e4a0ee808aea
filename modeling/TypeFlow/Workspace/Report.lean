import TypeFlow.Workspace.Query

/-!
# Reports on a document

Its diagnostics, the declarations it makes, and the part of the graph that it owns.
-/

set_option autoImplicit false

namespace TypeFlow

namespace Engine

def report? (e : Engine) (d : Diagnostic) : Option Report := do
  let target ← e.record? d.node
  let span := match d.anchor with
    | .methodName => target.nameSpan.getD target.span
    | .node => target.span
  return { path := target.path, span, kind := d.kind, message := d.message }

def records (e : Engine) (tree : Node) : List (Node × NodeRecord) :=
  tree.walk.filterMap fun n => (e.record? n.id).map fun r => (n, r)

def sitesOf (e : Engine) (tree : Node) : List SiteId :=
  (OrderedSet.ofList ((e.records tree).flatMap fun x => x.2.sites.toList)).toList

def reports (e : Engine) (tree : Node) : List Report :=
  (e.sitesOf tree).flatMap fun s =>
    ((e.site? s).elim [] fun x => x.effects.installed.diagnostics).filterMap e.report?

def moduleLine (e : Engine) (m : ModuleId) : String :=
  if (e.module m).isClass then
    "class " ++ e.world.name m ++ ((e.module m).superclass.elim "" fun p => " < " ++ e.world.name p)
  else "module " ++ e.world.name m

def declarationLines (e : Engine) (n : Node) (r : NodeRecord) : List String :=
  match n.form with
  | .moduleDef .. | .classDef .. => r.registrations.filterMap fun
    | .module m => some (e.moduleLine m)
    | _ => none
  | .methodDef .. => r.sites.toList.filterMap fun s =>
    match e.rule? s with
    | some (.methodDef d) => some ("def " ++ e.world.methodName d.key ++ ": " ++ d.signature e)
    | _ => none
  | .constWrite .. | .sigConst .. => r.registrations.filterMap fun
    | .const key => (e.world.const? key).map fun c =>
      e.world.constName key ++ ": " ++ e.showVertex c.vertex
    | _ => none
  | .include .. => r.registrations.filterMap fun
    | .inclusion m target => some ("include " ++ e.world.name target ++ " in " ++ e.world.name m)
    | _ => none
  | _ => []

end Engine

inductive Paint where
  | bold
  | dimmed
  | red
  | green
  | yellow
  | cyan
  deriving DecidableEq, Repr

def Paint.code : Paint → String
  | .bold => "1"
  | .dimmed => "2"
  | .red => "31"
  | .green => "32"
  | .yellow => "33"
  | .cyan => "36"

def Paint.on (color : Bool) (p : Paint) (s : String) : String :=
  if color then "\x1b[" ++ p.code ++ "m" ++ s ++ "\x1b[0m" else s

namespace Engine

def vertexLine (e : Engine) (color : Bool) (v : VertexId) : String :=
  let x := e.vertex v
  "  " ++ Paint.on color .cyan v.name ++ " " ++ x.label ++ " : "
    ++ Paint.on color .green (e.showVertex v) ++ " -> ["
    ++ Render.commaSeparated (x.successors.map VertexId.name) ++ "]"

def siteLine (e : Engine) (color : Bool) (s : SiteId) : Option String := do
  let site ← e.site? s
  let line := "  " ++ Paint.on color .yellow s.name ++ " " ++ site.rule.name
  let count := site.effects.installed.diagnostics.length
  return if 0 < count then
    line ++ " " ++ Paint.on color .red ("(" ++ count.repr ++ " diagnostics)")
  else line

def graphLines (e : Engine) (color : Bool) (n : Node) (r : NodeRecord) : List String :=
  let start := r.span.start
  (Paint.on color .bold n.id.name ++ " "
      ++ Paint.on color .dimmed ((start.line + 1).repr ++ ":" ++ start.column.repr))
    :: r.vertices.map (e.vertexLine color) ++ r.sites.toList.filterMap (e.siteLine color)

end Engine

namespace Workspace

def knownTree (w : Workspace) (path : String) : Except Fault Node :=
  match w.tree? path with
  | some tree => .ok tree
  | none => .error (.unknownDocument path)

def diagnostics (w : Workspace) (path : String) : Except Fault (List Report) := do
  return w.engine.reports (← w.knownTree path)

def unlines (lines : List String) : String := String.join (lines.map (· ++ "\n"))

def declarations (w : Workspace) (path : String) : Except Fault String := do
  let tree ← w.knownTree path
  return unlines ((w.engine.records tree).flatMap fun x => w.engine.declarationLines x.1 x.2)

def graphReport (w : Workspace) (color : Bool) (path : String) : Except Fault String := do
  let tree ← w.knownTree path
  return unlines ((w.engine.records tree).flatMap fun x => w.engine.graphLines color x.1 x.2)

def rerun (path : String) : WorkspaceM (Nat × Nat) := do
  let w ← get
  let sites := (w.tree? path).elim [] fun tree =>
    (w.engine.records tree).flatMap fun x => x.2.sites.toList
  onEngine (do
    modify fun e => e.scheduleAll sites
    return (sites.length, ← Engine.runAll))

end Workspace

end TypeFlow
