import TypeFlow.Tree.Alike

/-!
# Pairing unchanged definitions

When a tree replaces another, definitions that did not change keep their installed state. The bodies
of the program and of modules and classes with equal headers are compared statement by statement:
a reusable statement is paired with the first equal one that follows the last match, and a module or
class with the first of equal header. A pair of statements pairs their nodes in walking order.
-/

set_option autoImplicit false

namespace TypeFlow.Node

abbrev Pairing := List (NodeId × NodeId)

def containerBody? (n : Node) : Option (List Node) :=
  match n.form with
  | .program body | .moduleDef _ _ body | .classDef _ _ _ body => some body
  | _ => none

def sameHeader (a b : Node) : Bool :=
  match a.form, b.form with
  | .program _, .program _ => true
  | .moduleDef p t _, .moduleDef q u _ => p == q && t == u
  | .classDef p s t _, .classDef q r u _ => p == q && s == r && t == u
  | _, _ => false

def pairAll (new old : Node) : Pairing := (new.walk.map id).zip (old.walk.map id)

def seek (p : Node → Bool) : List Node → Option (Node × List Node)
  | [] => none
  | n :: ns => if p n then some (n, ns) else seek p ns

mutual

def pairing (new old : Node) : Pairing :=
  match new with
  | .mk i s f => if sameHeader (.mk i s f) old then pairForm f old else []

def pairForm (new : Form) (old : Node) : Pairing :=
  match new with
  | .program body => pairBody body (old.containerBody?.getD [])
  | .moduleDef _ _ body => pairBody body (old.containerBody?.getD [])
  | .classDef _ _ _ body => pairBody body (old.containerBody?.getD [])
  | _ => []

def pairBody : List Node → List Node → Pairing
  | [], _ => []
  | stmt :: rest, olds =>
    if stmt.isReusable then
      match seek (fun o => alike o stmt) olds with
      | some (o, behind) => pairAll stmt o ++ pairBody rest behind
      | none => pairBody rest olds
    else if stmt.containerBody?.isSome then
      match seek (fun o => sameHeader stmt o) olds with
      | some (o, behind) => pairing stmt o ++ pairBody rest behind
      | none => pairBody rest olds
    else pairBody rest olds

end

def Pairing.old? (p : Pairing) (new : NodeId) : Option NodeId :=
  (p.find? fun e => e.1 = new).map Prod.snd

end TypeFlow.Node
