import TypeFlow.Json.Value

/-!
# Records in JSON

A record is an object whose known fields occur at most once; other fields are skipped. A field may
be required, have a default that stands for its absence, or be optional, in which case `null` is
absence too.
-/

set_option autoImplicit false

namespace TypeFlow.Json

abbrev Fields := List (String × Json)

abbrev Reads (α : Type) := Json → Option α

namespace Reads

def text : Reads String
  | .string s => some s
  | _ => none

def flag : Reads Bool
  | .bool b => some b
  | _ => none

def below (bound : Nat) : Reads Nat
  | .int n => if 0 ≤ n ∧ n < bound then some n.toNat else none
  | _ => none

def int64 : Reads Int
  | .int n => if -(Nat.pow 2 63 : Int) ≤ n ∧ n < (Nat.pow 2 63 : Int) then some n else none
  | _ => none

def double : Reads Double
  | .int n => some (Double.ofInt n)
  | .float x => some x
  | _ => none

def list {α : Type} (read : Reads α) : Reads (List α)
  | .array items => items.mapM read
  | _ => none

def nullable {α : Type} (read : Reads α) : Reads (Option α)
  | .null => some none
  | j => (read j).map some

def texts : Reads (List String) := list text

def fields : Reads Fields
  | .object fs => some fs
  | _ => none

end Reads

namespace Fields

def single? (fs : Fields) (name : String) : Option (Option Json) :=
  match fs.filter fun f => f.1 == name with
  | [] => some none
  | [f] => some (some f.2)
  | _ => none

def required {α : Type} (fs : Fields) (name : String) (read : Reads α) : Option α :=
  match fs.single? name with
  | some (some j) => read j
  | _ => none

def withDefault {α : Type} (fs : Fields) (name : String) (read : Reads α) (default : α) :
    Option α :=
  match fs.single? name with
  | some (some j) => read j
  | some none => some default
  | none => none

def optional {α : Type} (fs : Fields) (name : String) (read : Reads α) : Option (Option α) :=
  fs.withDefault name (Reads.nullable read) none

end Fields

def ofTexts (ss : List String) : Json := .array (ss.map .string)

def ofOption {α : Type} (write : α → Json) : Option α → Json
  | none => .null
  | some a => write a

def ofList {α : Type} (write : α → Json) (as : List α) : Json := .array (as.map write)

end TypeFlow.Json
