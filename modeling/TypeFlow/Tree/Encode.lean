import TypeFlow.Json.Fields
import TypeFlow.Tree.Node

/-!
# Writing trees

Every field of a node is written, also where it has its default. Identities are not.
-/

set_option autoImplicit false

namespace TypeFlow

def Pos.encode (p : Pos) : Json := .object [("line", .int p.line), ("column", .int p.column)]

def Span.encode (s : Span) : Json := .object [("start", s.start.encode), ("end", s.stop.encode)]

namespace SigType

mutual

def encode : SigType → Json
  | .instanceOf path args =>
    .object [("type", .string "instance"), ("cpath", Json.ofTexts path),
      ("args", .array (encodeList args))]
  | .singletonOf path => .object [("type", .string "singleton"), ("cpath", Json.ofTexts path)]
  | .var name => .object [("type", .string "var"), ("name", .string name)]
  | .union members => .object [("type", .string "union"), ("members", .array (encodeList members))]
  | .tuple members => .object [("type", .string "tuple"), ("members", .array (encodeList members))]
  | .optional inner => .object [("type", .string "optional"), ("inner", encode inner)]
  | .nil => .object [("type", .string "nil")]
  | .bool => .object [("type", .string "bool")]
  | .untyped => .object [("type", .string "untyped")]
  | .receiver => .object [("type", .string "self")]

def encodeList : List SigType → List Json
  | [] => []
  | t :: ts => encode t :: encodeList ts

end

def encodeAll (ts : List SigType) : Json := .array (encodeList ts)

end SigType

def BlockType.encode (b : BlockType) : Json :=
  .object [("req", SigType.encodeAll b.req), ("ret", b.ret.encode)]

def MethodType.encode (m : MethodType) : Json :=
  .object [
    ("type_params", Json.ofTexts m.typeParams),
    ("req", SigType.encodeAll m.req),
    ("opt", SigType.encodeAll m.opt),
    ("rest", Json.ofOption SigType.encode m.rest),
    ("post", SigType.encodeAll m.post),
    ("block", Json.ofOption BlockType.encode m.block),
    ("ret", m.ret.encode)]

def SuperclassRef.encode (s : SuperclassRef) : Json :=
  .object [("cpath", Json.ofTexts s.path), ("args", SigType.encodeAll s.args)]

def Target.encode : Target → Json
  | .localVar name => .object [("type", .string "local"), ("name", .string name)]
  | .ivar name => .object [("type", .string "ivar"), ("name", .string name)]
  | .gvar name => .object [("type", .string "gvar"), ("name", .string name)]

namespace Node

mutual

def encode : Node → Json
  | .mk _ span form =>
    .object (("span", span.encode) :: ("type", .string form.tag) :: encodeForm form)

def encodeForm : Form → List (String × Json)
  | .program body => [("body", .array (encodeList body))]
  | .moduleDef path typeParams body =>
    [("cpath", Json.ofTexts path), ("type_params", Json.ofTexts typeParams),
      ("body", .array (encodeList body))]
  | .classDef path superclass typeParams body =>
    [("cpath", Json.ofTexts path), ("superclass", Json.ofOption SuperclassRef.encode superclass),
      ("type_params", Json.ofTexts typeParams), ("body", .array (encodeList body))]
  | .methodDef name singleton params body =>
    [("name", .string name), ("singleton", .bool singleton), ("params", encodeParams params),
      ("body", .array (encodeList body))]
  | .ret value => [("value", encodeOption value)]
  | .next value => [("value", encodeOption value)]
  | .call recv name nameSpan args keywords block subclasses =>
    [("recv", encodeOption recv), ("name", .string name),
      ("name_span", Json.ofOption Span.encode nameSpan), ("args", .array (encodeArgs args)),
      ("keywords", encodeOption keywords), ("block", encodeOption block),
      ("subclasses", Json.ofOption Json.bool subclasses)]
  | .block params body => [("params", Json.ofTexts params), ("body", .array (encodeList body))]
  | .yield args => [("args", .array (encodeArgs args))]
  | .const name scope => [("name", .string name), ("scope", Json.ofOption Json.ofTexts scope)]
  | .constWrite name value => [("name", .string name), ("value", encode value)]
  | .localRead name => [("name", .string name)]
  | .localWrite name value => [("name", .string name), ("value", encode value)]
  | .ivarRead name => [("name", .string name)]
  | .ivarWrite name value => [("name", .string name), ("value", encode value)]
  | .gvarRead name => [("name", .string name)]
  | .gvarWrite name value => [("name", .string name), ("value", encode value)]
  | .multiAssign targets value =>
    [("targets", Json.ofList Target.encode targets), ("value", encode value)]
  | .cond test thenBody elseBody =>
    [("cond", encode test), ("then_body", .array (encodeList thenBody)),
      ("else_body", .array (encodeList elseBody))]
  | .selfRef => []
  | .nil => []
  | .true => []
  | .false => []
  | .int value => [("value", .int value)]
  | .float value => [("value", .float value)]
  | .str value => [("value", .string value)]
  | .sym value => [("value", .string value)]
  | .array elems => [("elems", .array (encodeList elems))]
  | .alias newName oldName => [("new_name", .string newName), ("old_name", .string oldName)]
  | .include path args => [("cpath", Json.ofTexts path), ("args", SigType.encodeAll args)]
  | .sigDef name singleton overloads overloading =>
    [("name", .string name), ("singleton", .bool singleton),
      ("overloads", Json.ofList MethodType.encode overloads), ("overloading", .bool overloading)]
  | .sigConst name type => [("name", .string name), ("ty", type.encode)]
  | .sigGvar name type => [("name", .string name), ("ty", type.encode)]

def encodeList : List Node → List Json
  | [] => []
  | n :: ns => encode n :: encodeList ns

def encodeOption : Option Node → Json
  | none => .null
  | some n => encode n

def encodeArgs : List Arg → List Json
  | [] => []
  | .mk value splat :: args =>
    .object [("value", encode value), ("splat", .bool splat)] :: encodeArgs args

def encodeParams : Params → Json
  | .mk req opt rest post block =>
    .object [("req", Json.ofTexts req), ("opt", .array (encodeOpts opt)),
      ("rest", Json.ofOption Json.string rest), ("post", Json.ofTexts post),
      ("block", Json.ofOption Json.string block)]

def encodeOpts : List OptParam → List Json
  | [] => []
  | .mk name value :: opts =>
    .object [("name", .string name), ("default", encode value)] :: encodeOpts opts

end

end Node

end TypeFlow
