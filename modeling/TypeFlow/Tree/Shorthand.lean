import TypeFlow.Tree.Decode

/-!
# Terse trees

Constructors for trees written in code, and a terse written form of them: a list of a constructor's
name and its arguments. Paths are written in one text, their parts divided by `::`.
-/

set_option autoImplicit false

namespace TypeFlow

def ConstPath.split (part : List Char) : List Char → List (List Char)
  | ':' :: ':' :: cs => part.reverse :: split [] cs
  | c :: cs => split (c :: part) cs
  | [] => [part.reverse]

def ConstPath.ofText (s : String) : ConstPath := (ConstPath.split [] s.toList).map String.ofList

def Arg.plain (value : Node) : Arg := .mk value false

def Arg.spread (value : Node) : Arg := .mk value true

namespace Node

def onLine (n : Node) (line start stop : Nat) : Node :=
  .mk n.id ⟨⟨line, start⟩, ⟨line, stop⟩⟩ n.form

def moduleAt (path : String) (body : List Node) : Node :=
  ofForm (.moduleDef (ConstPath.ofText path) [] body)

def classAt (path : String) (superclass : Option String) (body : List Node) : Node :=
  ofForm (.classDef (ConstPath.ofText path)
    (superclass.map fun s => { path := ConstPath.ofText s }) [] body)

def callWith (recv : Option Node) (name : String) (args : List Arg) (block : Option Node) : Node :=
  ofForm (.call recv name none args none block none)

def sendTo (recv : Option Node) (name : String) (args : List Node) : Node :=
  callWith recv name (args.map Arg.plain) none

end Node

namespace Shorthand

open Json (Fields Reads)

def readType : Reads SigType
  | .string s =>
    match s.toList with
    | '\'' :: name => some (.var (String.ofList name))
    | _ => some (.plain (ConstPath.ofText s))
  | j => SigType.decode j

def readOpt (node : Reads Node) : Reads OptParam
  | .array (.string name :: value :: _) => (node value).map (.mk name)
  | _ => none

def readParams (node : Reads Node) : Reads Params
  | .object fs => do
    return .mk (← Fields.withDefault fs "req" Reads.texts [])
      (← Fields.withDefault fs "opt" (Reads.list (readOpt node)) [])
      (← Fields.optional fs "rest" Reads.text)
      (← Fields.withDefault fs "post" Reads.texts [])
      (← Fields.optional fs "block" Reads.text)
  | _ => none

def readArg (node : Reads Node) : Reads Arg
  | .object fs => (Fields.required fs "splat" node).map Arg.spread
  | j => (node j).map Arg.plain

def construct (node : Reads Node) : String → List Json → Option Node
  | "at", e :: line :: start :: stop :: _ => do
    return (← node e).onLine
      (← Pos.coordinate line) (← Pos.coordinate start) (← Pos.coordinate stop)
  | "program", body :: _ => do return .ofForm (.program (← Reads.list node body))
  | "module", path :: body :: _ => do return .moduleAt (← Reads.text path) (← Reads.list node body)
  | "class", path :: superclass :: body :: _ => do
    return .classAt (← Reads.text path) (← Reads.nullable Reads.text superclass)
      (← Reads.list node body)
  | "def", name :: params :: body :: _ => do
    return .ofForm (.methodDef (← Reads.text name) false (← readParams node params)
      (← Reads.list node body))
  | "sdef", name :: params :: body :: _ => do
    return .ofForm (.methodDef (← Reads.text name) true (← readParams node params)
      (← Reads.list node body))
  | "ret", [] => some (.ofForm (.ret none))
  | "ret", value :: _ => do return .ofForm (.ret (← Reads.nullable node value))
  | "next", [] => some (.ofForm (.next none))
  | "next", value :: _ => do return .ofForm (.next (← Reads.nullable node value))
  | "call", recv :: name :: args :: _ => do
    return .sendTo (← Reads.nullable node recv) (← Reads.text name) (← Reads.list node args)
  | "call_with", recv :: name :: args :: block :: _ => do
    return .callWith (← Reads.nullable node recv) (← Reads.text name)
      (← Reads.list (readArg node) args) (← Reads.nullable node block)
  | "block", params :: body :: _ => do
    return .ofForm (.block (← Reads.texts params) (← Reads.list node body))
  | "yield", args :: _ => do return .ofForm (.yield ((← Reads.list node args).map Arg.plain))
  | "const_read", name :: _ => do return .ofForm (.const (← Reads.text name) none)
  | "lvar", name :: _ => do return .ofForm (.localRead (← Reads.text name))
  | "ivar", name :: _ => do return .ofForm (.ivarRead (← Reads.text name))
  | "gvar", name :: _ => do return .ofForm (.gvarRead (← Reads.text name))
  | "const_write", name :: value :: _ => do
    return .ofForm (.constWrite (← Reads.text name) (← node value))
  | "lasgn", name :: value :: _ => do
    return .ofForm (.localWrite (← Reads.text name) (← node value))
  | "iasgn", name :: value :: _ => do
    return .ofForm (.ivarWrite (← Reads.text name) (← node value))
  | "gasgn", name :: value :: _ => do
    return .ofForm (.gvarWrite (← Reads.text name) (← node value))
  | "masgn", targets :: value :: _ => do
    return .ofForm (.multiAssign (← Reads.list Target.decode targets) (← node value))
  | "if", test :: thenBody :: elseBody :: _ => do
    return .ofForm (.cond (← node test) (← Reads.list node thenBody) (← Reads.list node elseBody))
  | "self", _ => some (.ofForm .selfRef)
  | "nil", _ => some (.ofForm .nil)
  | "true", _ => some (.ofForm .true)
  | "false", _ => some (.ofForm .false)
  | "int", value :: _ => do return .ofForm (.int (← Reads.int64 value))
  | "float", value :: _ => do return .ofForm (.float (← Reads.double value))
  | "str", value :: _ => do return .ofForm (.str (← Reads.text value))
  | "sym", value :: _ => do return .ofForm (.sym (← Reads.text value))
  | "array", elems :: _ => do return .ofForm (.array (← Reads.list node elems))
  | "alias", newName :: oldName :: _ => do
    return .ofForm (.alias (← Reads.text newName) (← Reads.text oldName))
  | "include", path :: _ => do
    return .ofForm (.include (ConstPath.ofText (← Reads.text path)) [])
  | "sig", name :: overloads :: _ => do
    return .ofForm (.sigDef (← Reads.text name) false (← Reads.list MethodType.decode overloads)
      false)
  | "sig_const", name :: type :: _ => do
    return .ofForm (.sigConst (← Reads.text name) (← readType type))
  | "sig_gvar", name :: type :: _ => do
    return .ofForm (.sigGvar (← Reads.text name) (← readType type))
  | _, _ => none

def readWithin : Nat → Reads Node
  | n + 1, .array (.string name :: args) => construct (readWithin n) name args
  | _, _ => none

def read : Reads Node := fun j => readWithin j.depth j

end Shorthand

end TypeFlow
