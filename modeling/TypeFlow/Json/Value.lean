import TypeFlow.Decimal.Double

/-!
# JSON values

Objects list their fields in the order of the text, repeated names included. A number or string
that is well formed but denotes nothing (a number beyond the largest double, half of a surrogate
pair) is `unreadable`, and so is an object one of whose names denotes nothing: a reader that skips
the value need not mind, any other refuses it.
-/

set_option autoImplicit false

namespace TypeFlow

inductive Json where
  | null
  | bool (value : Bool)
  | int (value : Int)
  | float (value : Double)
  | string (value : String)
  | array (items : List Json)
  | object (fields : List (String × Json))
  | unreadable
  deriving Repr, Inhabited

namespace Json

mutual

def depth : Json → Nat
  | .array items => itemsDepth items + 1
  | .object fields => fieldsDepth fields + 1
  | _ => 0

def itemsDepth : List Json → Nat
  | [] => 0
  | j :: rest => max j.depth (itemsDepth rest)

def fieldsDepth : List (String × Json) → Nat
  | [] => 0
  | (_, j) :: rest => max j.depth (fieldsDepth rest)

end

mutual

def readable : Json → Bool
  | .array items => itemsReadable items
  | .object fields => fieldsReadable fields
  | .unreadable => false
  | _ => true

def itemsReadable : List Json → Bool
  | [] => true
  | j :: rest => j.readable && itemsReadable rest

def fieldsReadable : List (String × Json) → Bool
  | [] => true
  | (_, j) :: rest => j.readable && fieldsReadable rest

end

def maxDepth : Nat := 127

mutual

def collapse : Json → Json
  | .array items => .array (collapseItems items)
  | .object fields => .object (collapseFields fields)
  | j => j

def collapseItems : List Json → List Json
  | [] => []
  | j :: rest => j.collapse :: collapseItems rest

def collapseFields : List (String × Json) → List (String × Json)
  | [] => []
  | (name, j) :: rest =>
    let rest := collapseFields rest
    if rest.any fun f => f.1 == name then rest else (name, j.collapse) :: rest

end

end Json

end TypeFlow
