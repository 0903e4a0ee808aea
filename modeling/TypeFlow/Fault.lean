import TypeFlow.Ident

/-!
# Faults

What can go wrong while the engine works on a document. A fault leaves the engine in the state in
which it arose.
-/

set_option autoImplicit false

namespace TypeFlow

inductive Fault where
  /-- A site is not where the entity it depends on should list it. -/
  | missingReverseIndex (site : SiteId) (entity : String)
  /-- A method body has no vertex for one of its parameters. -/
  | malformedFormals (method param : String)
  /-- An update still shares state with the tree it replaced. -/
  | danglingReuse (path : String) (vertices sites : Nat)
  /-- The queue was not drained within the permitted number of runs. -/
  | fuelExhausted (runs : Nat)
  /-- The source of a document is not a tree. -/
  | parse (path : String)
  | unknownDocument (path : String)
  /-- Comparing two types leads back to comparing the same two. -/
  | endlessMatch
  deriving DecidableEq, Repr

def Fault.message : Fault → String
  | .missingReverseIndex site entity =>
    "site " ++ site.name ++ " is missing from the reverse index of " ++ entity
  | .malformedFormals method param =>
    "malformed formal arguments for `" ++ method ++ "`: no vertex for parameter `" ++ param ++ "`"
  | .danglingReuse path vertices sites =>
    "dangling reuse after updating `" ++ path ++ "`: " ++ vertices.repr ++ " vertices and "
      ++ sites.repr ++ " sites shared with the replaced tree"
  | .fuelExhausted runs => "fixpoint did not converge within " ++ runs.repr ++ " site runs"
  | .parse path => "failed to parse `" ++ path ++ "`"
  | .unknownDocument path => "unknown document `" ++ path ++ "`"
  | .endlessMatch => "type comparison does not end"

end TypeFlow
