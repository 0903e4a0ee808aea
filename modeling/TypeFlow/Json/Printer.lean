import TypeFlow.Decimal.Shortest
import TypeFlow.Json.Text

/-!
# Writing JSON

Values are written without blanks, fields in the order in which they stand. What denotes nothing is
written as `null`.
-/

set_option autoImplicit false

namespace TypeFlow.Json

mutual

def render : Json → String
  | .null => "null"
  | .bool b => if b then "true" else "false"
  | .int n => toString n
  | .float x => x.text
  | .string s => Text.quote s
  | .array items => "[" ++ renderItems items ++ "]"
  | .object fields => "\x7b" ++ renderFields fields ++ "\x7d"
  | .unreadable => "null"

def renderItems : List Json → String
  | [] => ""
  | [j] => j.render
  | j :: rest => j.render ++ "," ++ renderItems rest

def renderFields : List (String × Json) → String
  | [] => ""
  | [(name, j)] => Text.quote name ++ ":" ++ j.render
  | (name, j) :: rest => Text.quote name ++ ":" ++ j.render ++ "," ++ renderFields rest

end

end TypeFlow.Json
