/-!
# Positions in a text

Lines and columns count from zero. A span holds the positions from its start up to, and not
including, its end.
-/

set_option autoImplicit false

namespace TypeFlow

structure Pos where
  line : Nat := 0
  column : Nat := 0
  deriving DecidableEq, Repr, Inhabited

def Pos.before (p q : Pos) : Bool :=
  p.line < q.line || (p.line == q.line && p.column < q.column)

structure Span where
  start : Pos := {}
  stop : Pos := {}
  deriving DecidableEq, Repr, Inhabited

def Span.contains (s : Span) (p : Pos) : Bool := !p.before s.start && p.before s.stop

end TypeFlow
