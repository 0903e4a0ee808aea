import TypeFlow.Ident
import TypeFlow.Tree.Span

/-!
# Diagnostics

A diagnostic points at a node, either as a whole or at the method name it holds. Once its place in
a text is known it can be reported.
-/

set_option autoImplicit false

namespace TypeFlow

namespace Diagnostic

inductive Kind where
  | undefinedMethod
  | wrongArity
  | unresolvedOverload
  | returnTypeMismatch
  deriving DecidableEq, Repr

def Kind.name : Kind → String
  | .undefinedMethod => "undefined_method"
  | .wrongArity => "wrong_arity"
  | .unresolvedOverload => "unresolved_overload"
  | .returnTypeMismatch => "return_type_mismatch"

inductive Anchor where
  | node
  | methodName
  deriving DecidableEq, Repr

def Kind.anchor : Kind → Anchor
  | .returnTypeMismatch => .node
  | _ => .methodName

end Diagnostic

structure Diagnostic where
  node : NodeId
  kind : Diagnostic.Kind
  message : String
  deriving DecidableEq, Repr

def Diagnostic.anchor (d : Diagnostic) : Diagnostic.Anchor := d.kind.anchor

structure Report where
  path : String
  span : Span
  kind : Diagnostic.Kind
  message : String
  deriving DecidableEq, Repr

def Report.text (r : Report) : String :=
  r.path ++ ":" ++ (r.span.start.line + 1).repr ++ ":" ++ r.span.start.column.repr ++ ": "
    ++ r.message

end TypeFlow
