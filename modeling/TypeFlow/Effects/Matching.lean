import TypeFlow.Effects.Staging

/-!
# Comparing types

An actual type fits a formal one if it is an instance of it, argument by argument. Comparing the
vertices of arguments compares their types in turn. Every comparison of two vertices only depends on
the two, so one that is nested deeper than there are pairs of vertices never ends.
-/

set_option autoImplicit false

namespace TypeFlow.Matching

open Staging

abbrev Compare := VertexId → VertexId → Staging Bool

def isSubclass (m target : ModuleId) : Staging Bool := do
  let (answer, consulted) := (← engine).world.isSubclass m target
  consulted.forM readSuperclass
  return answer

def compareAll (compare : Compare) : List VertexId → List VertexId → Staging Bool
  | x :: xs, y :: ys => do
    if ← compare x y then compareAll compare xs ys else return false
  | _, _ => return true

def classOf (m : ModuleId) : Staging ModuleId :=
  return if ((← engine).module m).isClass then Core.classModule else Core.module

def compareNominal (compare : Compare) : Ty → Ty → Staging Bool
  | .instanceOf a as, .instanceOf f fs => do
    if ← isSubclass a f then
      if a = f then compareAll compare as fs else return true
    else return false
  | .singletonOf a, .singletonOf f => isSubclass a f
  | .singletonOf a, .instanceOf f _ => do isSubclass (← classOf a) f
  | _, _ => return false

def compareBase (compare : Compare) (actual formal : Ty) : Staging Bool :=
  match Engine.baseType actual, Engine.baseType formal with
  | some a, some f => if a = actual ∧ f = formal then return false else compareNominal compare a f
  | _, _ => return false

def compareTypes (compare : Compare) : Ty → Ty → Staging Bool
  | _, .untyped | .untyped, _ | .bot, _ | _, .var .. => return true
  | .nil, .nil | .true, .true | .false, .false => return true
  | .instanceOf a as, .instanceOf f fs =>
    compareNominal compare (.instanceOf a as) (.instanceOf f fs)
  | .singletonOf a, .singletonOf f => compareNominal compare (.singletonOf a) (.singletonOf f)
  | .singletonOf a, .instanceOf f fs => compareNominal compare (.singletonOf a) (.instanceOf f fs)
  | .array (some as) _, .array (some fs) _ =>
    if as.length = fs.length then compareAll compare as fs else return false
  | .proc a, .proc f => return a == f
  | actual, formal => compareBase compare actual formal

def typeVar? : List Ty → Option VertexId
  | [] => none
  | .var _ v :: _ => some v
  | _ :: ts => typeVar? ts

def compareWithin : Nat → Compare
  | 0, _, _ => endless
  | n + 1, actual, formal => do
    let formals ← typesAt formal
    match typeVar? formals with
    | some v =>
      if v ≠ actual then addEdge actual v
      return true
    | none =>
      let actuals ← typesAt actual
      actuals.allM fun a => formals.anyM fun f => compareTypes (compareWithin n) a f

def fits (actual formal : VertexId) : Staging Bool := do
  let n := (← engine).graph.vertices.size
  compareWithin (n * n + 1) actual formal

end TypeFlow.Matching
