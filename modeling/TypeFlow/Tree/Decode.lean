import TypeFlow.Json.Fields
import TypeFlow.Json.Reader
import TypeFlow.Tree.Node

/-!
# Reading trees

A node is a record tagged by `type` that also holds its span. Readers of nested values take a bound
on the nesting still to come; the nesting of the value itself is always enough.
-/

set_option autoImplicit false

namespace TypeFlow

open Json (Fields Reads)

def Pos.coordinate : Reads Nat := Reads.below (Nat.pow 2 32)

def Pos.decode : Reads Pos
  | .object fs => do
    return { line := ← Fields.required fs "line" Pos.coordinate,
             column := ← Fields.required fs "column" Pos.coordinate }
  | _ => none

def Span.decode : Reads Span
  | .object fs => do
    return { start := ← Fields.required fs "start" Pos.decode,
             stop := ← Fields.required fs "end" Pos.decode }
  | _ => none

namespace SigType

def decodeWithin : Nat → Reads SigType
  | n + 1, .object fs => do
    match ← Fields.required fs "type" Reads.text with
    | "instance" =>
      return .instanceOf (← Fields.required fs "cpath" Reads.texts)
        (← Fields.withDefault fs "args" (Reads.list (decodeWithin n)) [])
    | "singleton" => return .singletonOf (← Fields.required fs "cpath" Reads.texts)
    | "var" => return .var (← Fields.required fs "name" Reads.text)
    | "union" => return .union (← Fields.required fs "members" (Reads.list (decodeWithin n)))
    | "tuple" => return .tuple (← Fields.required fs "members" (Reads.list (decodeWithin n)))
    | "optional" => return .optional (← Fields.required fs "inner" (decodeWithin n))
    | "nil" => return .nil
    | "bool" => return .bool
    | "untyped" => return .untyped
    | "self" => return .receiver
    | _ => none
  | _, _ => none

def decode : Reads SigType := fun j => decodeWithin j.depth j

end SigType

def BlockType.decode : Reads BlockType
  | .object fs => do
    return { req := ← Fields.withDefault fs "req" (Reads.list SigType.decode) [],
             ret := ← Fields.required fs "ret" SigType.decode }
  | _ => none

def MethodType.decode : Reads MethodType
  | .object fs => do
    return {
      typeParams := ← Fields.withDefault fs "type_params" Reads.texts [],
      req := ← Fields.withDefault fs "req" (Reads.list SigType.decode) [],
      opt := ← Fields.withDefault fs "opt" (Reads.list SigType.decode) [],
      rest := ← Fields.optional fs "rest" SigType.decode,
      post := ← Fields.withDefault fs "post" (Reads.list SigType.decode) [],
      block := ← Fields.optional fs "block" BlockType.decode,
      ret := ← Fields.required fs "ret" SigType.decode }
  | _ => none

def SuperclassRef.decode : Reads SuperclassRef
  | .object fs => do
    return { path := ← Fields.required fs "cpath" Reads.texts,
             args := ← Fields.withDefault fs "args" (Reads.list SigType.decode) [] }
  | _ => none

def Target.decode : Reads Target
  | .object fs => do
    match ← Fields.required fs "type" Reads.text with
    | "local" => return .localVar (← Fields.required fs "name" Reads.text)
    | "ivar" => return .ivar (← Fields.required fs "name" Reads.text)
    | "gvar" => return .gvar (← Fields.required fs "name" Reads.text)
    | _ => none
  | _ => none

namespace Node

def decodeArg (node : Reads Node) : Reads Arg
  | .object fs => do
    return .mk (← Fields.required fs "value" node)
      (← Fields.withDefault fs "splat" Reads.flag false)
  | _ => none

def decodeOptParam (node : Reads Node) : Reads OptParam
  | .object fs => do
    return .mk (← Fields.required fs "name" Reads.text) (← Fields.required fs "default" node)
  | _ => none

def decodeParams (node : Reads Node) : Reads Params
  | .object fs => do
    return .mk (← Fields.withDefault fs "req" Reads.texts [])
      (← Fields.withDefault fs "opt" (Reads.list (decodeOptParam node)) [])
      (← Fields.optional fs "rest" Reads.text)
      (← Fields.withDefault fs "post" Reads.texts [])
      (← Fields.optional fs "block" Reads.text)
  | _ => none

def nameOf (fs : Fields) : Option String := Fields.required fs "name" Reads.text

def pathOf (fs : Fields) : Option ConstPath := Fields.required fs "cpath" Reads.texts

def typeParamsOf (fs : Fields) : Option (List String) :=
  Fields.withDefault fs "type_params" Reads.texts []

def singletonOf (fs : Fields) : Option Bool := Fields.withDefault fs "singleton" Reads.flag false

def bodyOf (node : Reads Node) (fs : Fields) : Option (List Node) :=
  Fields.required fs "body" (Reads.list node)

def valueOf (node : Reads Node) (fs : Fields) : Option Node := Fields.required fs "value" node

def argsOf (node : Reads Node) (fs : Fields) : Option (List Arg) :=
  Fields.withDefault fs "args" (Reads.list (decodeArg node)) []

def decodeForm (node : Reads Node) (fs : Fields) (tag : String) : Option Form :=
  match tag with
  | "program" => do return .program (← bodyOf node fs)
  | "module" => do return .moduleDef (← pathOf fs) (← typeParamsOf fs) (← bodyOf node fs)
  | "class" => do
    return .classDef (← pathOf fs) (← Fields.optional fs "superclass" SuperclassRef.decode)
      (← typeParamsOf fs) (← bodyOf node fs)
  | "def" => do
    return .methodDef (← nameOf fs) (← singletonOf fs)
      (← Fields.withDefault fs "params" (decodeParams node) Params.none) (← bodyOf node fs)
  | "return" => do return .ret (← Fields.optional fs "value" node)
  | "next" => do return .next (← Fields.optional fs "value" node)
  | "call" => do
    return .call (← Fields.optional fs "recv" node) (← nameOf fs)
      (← Fields.optional fs "name_span" Span.decode) (← argsOf node fs)
      (← Fields.optional fs "keywords" node) (← Fields.optional fs "block" node)
      (← Fields.optional fs "subclasses" Reads.flag)
  | "block" => do
    return .block (← Fields.withDefault fs "params" Reads.texts []) (← bodyOf node fs)
  | "yield" => do return .yield (← argsOf node fs)
  | "const" => do return .const (← nameOf fs) (← Fields.optional fs "scope" Reads.texts)
  | "const_write" => do return .constWrite (← nameOf fs) (← valueOf node fs)
  | "local_read" => do return .localRead (← nameOf fs)
  | "local_write" => do return .localWrite (← nameOf fs) (← valueOf node fs)
  | "ivar_read" => do return .ivarRead (← nameOf fs)
  | "ivar_write" => do return .ivarWrite (← nameOf fs) (← valueOf node fs)
  | "gvar_read" => do return .gvarRead (← nameOf fs)
  | "gvar_write" => do return .gvarWrite (← nameOf fs) (← valueOf node fs)
  | "multi_assign" => do
    return .multiAssign (← Fields.required fs "targets" (Reads.list Target.decode))
      (← valueOf node fs)
  | "if" => do
    return .cond (← Fields.required fs "cond" node)
      (← Fields.required fs "then_body" (Reads.list node))
      (← Fields.withDefault fs "else_body" (Reads.list node) [])
  | "self" => some .selfRef
  | "nil" => some .nil
  | "true" => some .true
  | "false" => some .false
  | "int" => do return .int (← Fields.required fs "value" Reads.int64)
  | "float" => do return .float (← Fields.required fs "value" Reads.double)
  | "str" => do return .str (← Fields.required fs "value" Reads.text)
  | "sym" => do return .sym (← Fields.required fs "value" Reads.text)
  | "array" => do return .array (← Fields.required fs "elems" (Reads.list node))
  | "alias" => do
    return .alias (← Fields.required fs "new_name" Reads.text)
      (← Fields.required fs "old_name" Reads.text)
  | "include" => do
    return .include (← pathOf fs) (← Fields.withDefault fs "args" (Reads.list SigType.decode) [])
  | "sig_def" => do
    return .sigDef (← nameOf fs) (← singletonOf fs)
      (← Fields.required fs "overloads" (Reads.list MethodType.decode))
      (← Fields.withDefault fs "overloading" Reads.flag false)
  | "sig_const" => do return .sigConst (← nameOf fs) (← Fields.required fs "ty" SigType.decode)
  | "sig_gvar" => do return .sigGvar (← nameOf fs) (← Fields.required fs "ty" SigType.decode)
  | _ => none

def decodeWithin : Nat → Reads Node
  | n + 1, .object fs => do
    let span ← Fields.withDefault fs "span" Span.decode {}
    let tag ← Fields.required fs "type" Reads.text
    return .mk ⟨0⟩ span (← decodeForm (decodeWithin n) fs tag)
  | _, _ => none

def decode : Reads Node := fun j => decodeWithin j.depth j

def admissible : Json → Bool
  | .object fs => fs.all fun f => f.1 == "span" || (f.2.readable && f.2.depth < Json.maxDepth)
  | _ => false

def parse? (source : String) : Option Node :=
  (Json.parse? source).bind fun j => if admissible j then decode j else none

end Node

end TypeFlow
