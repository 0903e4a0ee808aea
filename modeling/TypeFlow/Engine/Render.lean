import TypeFlow.Engine.State

/-!
# Types as text

A vertex is shown as the union of its types, sorted, so that the order of their arrival does not
show. `nil` makes a type optional, `true` and `false` together are `bool`. A vertex met again inside
its own types is shown as `untyped`, which ends the recursion: it cannot be deeper than there are
vertices.
-/

set_option autoImplicit false

namespace TypeFlow

namespace Render

inductive Part where
  | optional
  | true
  | false
  | bot
  | named

def part : Ty → Part
  | .nil => .optional
  | .true => .true
  | .false => .false
  | .bot => .bot
  | .instanceOf m _ =>
    if m = Core.nilClass then .optional
    else if m = Core.trueClass then .true
    else if m = Core.falseClass then .false
    else .named
  | _ => .named

def sorted (ss : List String) : List String := ss.mergeSort fun a b => decide (a ≤ b)

def commaSeparated (ss : List String) : String := String.intercalate ", " ss

def union (types : List Ty) (named : List String) : String :=
  let has := fun p => types.any fun t => p (part t)
  let optional := has fun | .optional => Bool.true | _ => Bool.false
  let hasTrue := has fun | .true => Bool.true | _ => Bool.false
  let hasFalse := has fun | .false => Bool.true | _ => Bool.false
  let bot := has fun | .bot => Bool.true | _ => Bool.false
  let flags :=
    if hasTrue && hasFalse then ["bool"]
    else if hasTrue then ["true"]
    else if hasFalse then ["false"]
    else []
  let suffix := if optional then "?" else ""
  match sorted ((OrderedSet.ofList named).toList ++ flags) with
  | [] => if optional then "nil" else if bot then "bot" else "untyped"
  | [s] => s ++ suffix
  | ss => "(" ++ String.intercalate " | " ss ++ ")" ++ suffix

def type (e : Engine) (vertex : VertexId → String) : Ty → String
  | .bot => "bot"
  | .nil => "nil"
  | .true => "true"
  | .false => "false"
  | .untyped => "untyped"
  | .instanceOf m args =>
    if args.isEmpty then e.world.name m
    else e.world.name m ++ "[" ++ commaSeparated (args.map vertex) ++ "]"
  | .singletonOf m => "singleton(" ++ e.world.name m ++ ")"
  | .array (some elems) _ => "[" ++ commaSeparated (elems.map vertex) ++ "]"
  | .array none elem => "Array[" ++ vertex elem ++ "]"
  | .proc b =>
    match e.block? b with
    | some block => "^(" ++ commaSeparated (block.params.map vertex) ++ ") -> " ++ vertex block.ret
    | none => "Proc"
  | .var name _ => name

def namedTypes (types : List Ty) : List Ty :=
  types.filter fun t => match part t with
    | .named => Bool.true
    | _ => Bool.false

def vertexWithin (e : Engine) : Nat → List VertexId → VertexId → String
  | 0, _, _ => "untyped"
  | n + 1, visiting, v =>
    if v ∈ visiting then "untyped"
    else
      let types := e.typesAt v
      union types ((namedTypes types).map (type e (vertexWithin e n (v :: visiting))))

def balanced : Nat → List Char → Bool
  | depth, [] => depth == 0
  | depth, c :: cs =>
    if c = '(' ∨ c = '[' then balanced (depth + 1) cs
    else if c = ')' ∨ c = ']' then
      match depth with
      | 0 => Bool.false
      | d + 1 => balanced d cs
    else balanced depth cs

def inner? : List Char → Option (List Char)
  | '(' :: cs => if cs.getLast? = some ')' then some cs.dropLast else none
  | _ => none

def stripParens (s : String) : String :=
  match inner? s.toList with
  | some cs => if balanced 0 cs then String.ofList cs else s
  | none => s

end Render

namespace Engine

def renderDepth (e : Engine) : Nat := e.graph.vertices.size + 1

def showVertex (e : Engine) (v : VertexId) : String := Render.vertexWithin e e.renderDepth [] v

def showType (e : Engine) (t : Ty) : String :=
  Render.type e (Render.vertexWithin e e.renderDepth []) t

end Engine

end TypeFlow
