import TypeFlow.Tree.Node

/-!
# Numbering a tree

Nodes receive consecutive numbers in the order in which a walk meets them. Each function takes the
next number to give out and returns the one after the last it gave.
-/

set_option autoImplicit false

namespace TypeFlow.Node

mutual

def number (next : Nat) : Node → Node × Nat
  | .mk _ s f =>
    let (f, after) := numberForm (next + 1) f
    (.mk ⟨next⟩ s f, after)

def numberForm (next : Nat) : Form → Form × Nat
  | .program body =>
    let (body, next) := numberList next body
    (.program body, next)
  | .moduleDef path typeParams body =>
    let (body, next) := numberList next body
    (.moduleDef path typeParams body, next)
  | .classDef path superclass typeParams body =>
    let (body, next) := numberList next body
    (.classDef path superclass typeParams body, next)
  | .methodDef name singleton params body =>
    let (params, next) := numberParams next params
    let (body, next) := numberList next body
    (.methodDef name singleton params body, next)
  | .ret value =>
    let (value, next) := numberOption next value
    (.ret value, next)
  | .next value =>
    let (value, next) := numberOption next value
    (.next value, next)
  | .call recv name nameSpan args keywords block subclasses =>
    let (recv, next) := numberOption next recv
    let (args, next) := numberArgs next args
    let (keywords, next) := numberOption next keywords
    let (block, next) := numberOption next block
    (.call recv name nameSpan args keywords block subclasses, next)
  | .block params body =>
    let (body, next) := numberList next body
    (.block params body, next)
  | .yield args =>
    let (args, next) := numberArgs next args
    (.yield args, next)
  | .constWrite name value =>
    let (value, next) := number next value
    (.constWrite name value, next)
  | .localWrite name value =>
    let (value, next) := number next value
    (.localWrite name value, next)
  | .ivarWrite name value =>
    let (value, next) := number next value
    (.ivarWrite name value, next)
  | .gvarWrite name value =>
    let (value, next) := number next value
    (.gvarWrite name value, next)
  | .multiAssign targets value =>
    let (value, next) := number next value
    (.multiAssign targets value, next)
  | .cond test thenBody elseBody =>
    let (test, next) := number next test
    let (thenBody, next) := numberList next thenBody
    let (elseBody, next) := numberList next elseBody
    (.cond test thenBody elseBody, next)
  | .array elems =>
    let (elems, next) := numberList next elems
    (.array elems, next)
  | f => (f, next)

def numberList (next : Nat) : List Node → List Node × Nat
  | [] => ([], next)
  | n :: ns =>
    let (n, next) := number next n
    let (ns, next) := numberList next ns
    (n :: ns, next)

def numberOption (next : Nat) : Option Node → Option Node × Nat
  | none => (none, next)
  | some n =>
    let (n, next) := number next n
    (some n, next)

def numberArgs (next : Nat) : List Arg → List Arg × Nat
  | [] => ([], next)
  | .mk value splat :: args =>
    let (value, next) := number next value
    let (args, next) := numberArgs next args
    (.mk value splat :: args, next)

def numberParams (next : Nat) : Params → Params × Nat
  | .mk req opt rest post block =>
    let (opt, next) := numberOpts next opt
    (.mk req opt rest post block, next)

def numberOpts (next : Nat) : List OptParam → List OptParam × Nat
  | [] => ([], next)
  | .mk name value :: opts =>
    let (value, next) := number next value
    let (opts, next) := numberOpts next opts
    (.mk name value :: opts, next)

end

end TypeFlow.Node
