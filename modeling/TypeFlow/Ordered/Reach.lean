/-!
# Walks that stop at what they have seen

`trail` follows one successor at a time and ends before it would repeat itself; `reach` explores all
successors depth first. `seek` explores depth first, too, and ends as soon as a successor is the
target; what it has seen is shared by all branches. The number of places that can be reached bounds
the steps of a trail and the depth of a search, the number of steps out of them an exploration.
-/

set_option autoImplicit false

namespace TypeFlow

variable {α : Type} [DecidableEq α]

def trailFrom (next : α → Option α) : Nat → List α → α → List α
  | 0, _, _ => []
  | n + 1, seen, a =>
    if a ∈ seen then []
    else a :: match next a with
      | none => []
      | some b => trailFrom next n (a :: seen) b

def trail (next : α → Option α) (bound : Nat) (a : α) : List α := trailFrom next bound [] a

def reachFrom (next : α → List α) : Nat → List α → List α → List α
  | 0, out, _ => out
  | _ + 1, out, [] => out
  | n + 1, out, a :: stack =>
    if a ∈ out then reachFrom next n out stack else reachFrom next n (out ++ [a]) (next a ++ stack)

def reach (next : α → List α) (bound : Nat) (start : List α) : List α :=
  reachFrom next bound [] start

def seekAny (target : α) (visit : α → List α → Bool × List α) : List α → List α → Bool × List α
  | [], seen => (false, seen)
  | b :: bs, seen =>
    if b = target then (true, seen)
    else match visit b seen with
      | (true, seen) => (true, seen)
      | (false, seen) => seekAny target visit bs seen

def seek (next : α → List α) (target : α) : Nat → α → List α → Bool × List α
  | 0, _, seen => (false, seen)
  | n + 1, a, seen =>
    if a ∈ seen then (false, seen) else seekAny target (seek next target n) (next a) (a :: seen)

end TypeFlow
