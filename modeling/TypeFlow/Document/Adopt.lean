import TypeFlow.Document.Scope

/-!
# Taking over installed state

A definition that did not change hands what it installed over to its new version: records, vertices,
sites, blocks and registrations only change the name of their node.
-/

set_option autoImplicit false

namespace TypeFlow.Engine

def renameOwned (e : Engine) (record : NodeRecord) (old new : NodeId)
    (rename : NodeId → NodeId) : Engine :=
  let e := record.sites.toList.foldl (fun e s =>
    e.modifySite s fun x => { x with node := new, effects := x.effects.renameNodes rename }) e
  let e := { e with graph := record.vertices.foldl (fun g v =>
    g.modify v fun x => { x with node := some new }) e.graph }
  let e := match record.block with
    | some b => e.modifyBlock b fun x => { x with node := new }
    | none => e
  record.registrations.foldl (fun e r => e.rekey (.node old) (.node new) r) e

def adoptNode (path : String) (rename : NodeId → NodeId) (e : Engine) (new : Node)
    (old : NodeId) : Engine :=
  match e.record? old with
  | none => e
  | some record =>
    let e := { e with nodes := e.nodes.erase old }
    let record := { record with
      path
      span := new.span
      nameSpan := new.nameSpan
      returns := record.returns.map rename }
    let e := e.renameOwned record old new.id rename
    { e with nodes := e.nodes.insert new.id record }

def adoptTree (e : Engine) (path : String) (pairing : Node.Pairing) (tree : Node) : Engine :=
  let moved := tree.walk.filterMap fun n => (pairing.old? n.id).map fun old => (n, old)
  let rename := fun n => ((moved.find? fun x => x.2 = n).map fun x => x.1.id).getD n
  moved.foldl (fun e x => e.adoptNode path rename x.1 x.2) e

end TypeFlow.Engine
