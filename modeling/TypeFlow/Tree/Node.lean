import TypeFlow.Decimal.Double
import TypeFlow.Tree.Signature
import TypeFlow.Tree.Span

/-!
# Program trees

A node is a form of the language at a place in the text. Its identity is assigned when a tree is
numbered. The children of a node are listed in evaluation order, and walking a tree meets every
parent before its children.
-/

set_option autoImplicit false

namespace TypeFlow

inductive Target where
  | localVar (name : String)
  | ivar (name : String)
  | gvar (name : String)
  deriving DecidableEq, Repr

mutual

inductive Node where
  | mk (id : NodeId) (span : Span) (form : Form)

inductive Form where
  | program (body : List Node)
  | moduleDef (path : ConstPath) (typeParams : List String) (body : List Node)
  | classDef (path : ConstPath) (superclass : Option SuperclassRef) (typeParams : List String)
      (body : List Node)
  | methodDef (name : String) (singleton : Bool) (params : Params) (body : List Node)
  | ret (value : Option Node)
  | next (value : Option Node)
  | call (recv : Option Node) (name : String) (nameSpan : Option Span) (args : List Arg)
      (keywords : Option Node) (block : Option Node) (subclasses : Option Bool)
  | block (params : List String) (body : List Node)
  | yield (args : List Arg)
  | const (name : String) (scope : Option ConstPath)
  | constWrite (name : String) (value : Node)
  | localRead (name : String)
  | localWrite (name : String) (value : Node)
  | ivarRead (name : String)
  | ivarWrite (name : String) (value : Node)
  | gvarRead (name : String)
  | gvarWrite (name : String) (value : Node)
  | multiAssign (targets : List Target) (value : Node)
  | cond (test : Node) (thenBody elseBody : List Node)
  | selfRef
  | nil
  | true
  | false
  | int (value : Int)
  | float (value : Double)
  | str (value : String)
  | sym (value : String)
  | array (elems : List Node)
  | alias (newName oldName : String)
  | include (path : ConstPath) (args : List SigType)
  | sigDef (name : String) (singleton : Bool) (overloads : List MethodType) (overloading : Bool)
  | sigConst (name : String) (type : SigType)
  | sigGvar (name : String) (type : SigType)

inductive Arg where
  | mk (value : Node) (splat : Bool)

inductive OptParam where
  | mk (name : String) (value : Node)

inductive Params where
  | mk (req : List String) (opt : List OptParam) (rest : Option String) (post : List String)
      (block : Option String)

end

instance : Inhabited Node := ⟨.mk ⟨0⟩ {} .nil⟩

namespace OptParam

def name : OptParam → String
  | .mk n _ => n

def value : OptParam → Node
  | .mk _ v => v

end OptParam

namespace Arg

def value : Arg → Node
  | .mk v _ => v

def splat : Arg → Bool
  | .mk _ s => s

end Arg

namespace Params

def req : Params → List String
  | .mk r _ _ _ _ => r

def opt : Params → List OptParam
  | .mk _ o _ _ _ => o

def rest : Params → Option String
  | .mk _ _ r _ _ => r

def post : Params → List String
  | .mk _ _ _ p _ => p

def block : Params → Option String
  | .mk _ _ _ _ b => b

def none : Params := .mk [] [] .none [] .none

end Params

namespace Form

def tag : Form → String
  | .program .. => "program"
  | .moduleDef .. => "module"
  | .classDef .. => "class"
  | .methodDef .. => "def"
  | .ret .. => "return"
  | .next .. => "next"
  | .call .. => "call"
  | .block .. => "block"
  | .yield .. => "yield"
  | .const .. => "const"
  | .constWrite .. => "const_write"
  | .localRead .. => "local_read"
  | .localWrite .. => "local_write"
  | .ivarRead .. => "ivar_read"
  | .ivarWrite .. => "ivar_write"
  | .gvarRead .. => "gvar_read"
  | .gvarWrite .. => "gvar_write"
  | .multiAssign .. => "multi_assign"
  | .cond .. => "if"
  | .selfRef => "self"
  | .nil => "nil"
  | .true => "true"
  | .false => "false"
  | .int .. => "int"
  | .float .. => "float"
  | .str .. => "str"
  | .sym .. => "sym"
  | .array .. => "array"
  | .alias .. => "alias"
  | .include .. => "include"
  | .sigDef .. => "sig_def"
  | .sigConst .. => "sig_const"
  | .sigGvar .. => "sig_gvar"

def children : Form → List Node
  | .program body | .moduleDef _ _ body | .classDef _ _ _ body | .block _ body => body
  | .methodDef _ _ params body => params.opt.map OptParam.value ++ body
  | .ret value | .next value => value.toList
  | .call recv _ _ args keywords blk _ =>
    recv.toList ++ args.map Arg.value ++ keywords.toList ++ blk.toList
  | .yield args => args.map Arg.value
  | .constWrite _ value | .localWrite _ value | .ivarWrite _ value | .gvarWrite _ value
  | .multiAssign _ value => [value]
  | .cond test thenBody elseBody => test :: thenBody ++ elseBody
  | .array elems => elems
  | _ => []

end Form

namespace Node

def id : Node → NodeId
  | .mk i _ _ => i

def span : Node → Span
  | .mk _ s _ => s

def form : Node → Form
  | .mk _ _ f => f

def ofForm (form : Form) : Node := .mk ⟨0⟩ {} form

def children (n : Node) : List Node := n.form.children

def nameSpan (n : Node) : Option Span :=
  match n.form with
  | .call _ _ nameSpan _ _ _ _ => nameSpan
  | _ => none

def isReusable (n : Node) : Bool :=
  match n.form with
  | .methodDef .. | .sigDef .. | .sigConst .. | .sigGvar .. | .include .. | .alias .. => true
  | _ => false

mutual

def walk : Node → List Node
  | .mk i s f => .mk i s f :: walkForm f

def walkForm : Form → List Node
  | .program body => walkList body
  | .moduleDef _ _ body => walkList body
  | .classDef _ _ _ body => walkList body
  | .block _ body => walkList body
  | .methodDef _ _ params body => walkParams params ++ walkList body
  | .ret value => walkOption value
  | .next value => walkOption value
  | .call recv _ _ args keywords block _ =>
    walkOption recv ++ walkArgs args ++ walkOption keywords ++ walkOption block
  | .yield args => walkArgs args
  | .constWrite _ value => walk value
  | .localWrite _ value => walk value
  | .ivarWrite _ value => walk value
  | .gvarWrite _ value => walk value
  | .multiAssign _ value => walk value
  | .cond test thenBody elseBody => walk test ++ walkList thenBody ++ walkList elseBody
  | .array elems => walkList elems
  | _ => []

def walkList : List Node → List Node
  | [] => []
  | n :: ns => walk n ++ walkList ns

def walkOption : Option Node → List Node
  | none => []
  | some n => walk n

def walkArgs : List Arg → List Node
  | [] => []
  | .mk value _ :: args => walk value ++ walkArgs args

def walkParams : Params → List Node
  | .mk _ opt _ _ _ => walkOpts opt

def walkOpts : List OptParam → List Node
  | [] => []
  | .mk _ value :: opts => walk value ++ walkOpts opts

end

theorem walkList_eq (ns : List Node) : walkList ns = ns.flatMap walk := by
  induction ns with
  | nil => rfl
  | cons n ns ih => simp [walkList, ih]

theorem walkOption_eq (o : Option Node) : walkOption o = o.toList.flatMap walk := by
  cases o <;> simp [walkOption]

theorem walkArgs_eq (args : List Arg) : walkArgs args = (args.map Arg.value).flatMap walk := by
  induction args with
  | nil => rfl
  | cons a args ih => cases a; simp [walkArgs, ih, Arg.value]

theorem walkOpts_eq (opts : List OptParam) :
    walkOpts opts = (opts.map OptParam.value).flatMap walk := by
  induction opts with
  | nil => rfl
  | cons o opts ih => cases o; simp [walkOpts, ih, OptParam.value]

theorem walkParams_eq (p : Params) : walkParams p = (p.opt.map OptParam.value).flatMap walk := by
  cases p
  simp [walkParams, walkOpts_eq, Params.opt]

/-- Walking a tree is walking its children one after the other, after the root. -/
theorem walk_eq (n : Node) : n.walk = n :: n.children.flatMap walk := by
  obtain ⟨i, s, f⟩ := n
  cases f <;>
    simp [walk, walkForm, children, form, Form.children, walkList_eq, walkOption_eq, walkArgs_eq,
      walkParams_eq]

end Node

end TypeFlow
