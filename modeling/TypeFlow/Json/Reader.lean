import TypeFlow.Json.Numeral
import TypeFlow.Json.Text

/-!
# Reading JSON

The grammar is strict: no comments, no trailing commas, nothing but blanks around the value.
Reading a text never looks at more than its characters, so their number bounds the recursion.
-/

set_option autoImplicit false

namespace TypeFlow.Json

def isBlank (c : Char) : Bool := c == ' ' || c == '\n' || c == '\t' || c == '\r'

def skipBlanks (cs : List Char) : List Char := cs.dropWhile isBlank

def readText (cs : List Char) : Option (Option String × List Char) :=
  (Text.scan cs).map fun (pieces, rest) => ((Text.join pieces).map String.ofList, rest)

def readName (cs : List Char) : Option (Option String × List Char) := do
  let (name, cs) ← readText cs
  match skipBlanks cs with
  | ':' :: cs => some (name, cs)
  | _ => none

def ofFields (fields : List (Option String × Json)) : Json :=
  match fields.mapM fun f => f.1.map fun name => (name, f.2) with
  | some fields => .object fields
  | none => .unreadable

mutual

def readValue : Nat → List Char → Option (Json × List Char)
  | 0, _ => none
  | n + 1, cs =>
    match skipBlanks cs with
    | '"' :: cs => (readText cs).map fun (s, rest) => (s.elim .unreadable .string, rest)
    | '[' :: cs =>
      match skipBlanks cs with
      | ']' :: rest => some (.array [], rest)
      | cs => (readItems n cs).map fun (items, rest) => (.array items, rest)
    | '\x7b' :: cs =>
      match skipBlanks cs with
      | '\x7d' :: rest => some (.object [], rest)
      | cs => (readFields n cs).map fun (fields, rest) => (ofFields fields, rest)
    | 'n' :: 'u' :: 'l' :: 'l' :: rest => some (.null, rest)
    | 't' :: 'r' :: 'u' :: 'e' :: rest => some (.bool true, rest)
    | 'f' :: 'a' :: 'l' :: 's' :: 'e' :: rest => some (.bool false, rest)
    | cs => (Numeral.scan cs).map fun (numeral, rest) => (numeral.value, rest)

def readItems : Nat → List Char → Option (List Json × List Char)
  | 0, _ => none
  | n + 1, cs => do
    let (item, cs) ← readValue n cs
    match skipBlanks cs with
    | ',' :: cs =>
      let (items, rest) ← readItems n cs
      return (item :: items, rest)
    | ']' :: rest => return ([item], rest)
    | _ => none

def readFields : Nat → List Char → Option (List (Option String × Json) × List Char)
  | 0, _ => none
  | n + 1, cs => do
    let (name, cs) ← (match skipBlanks cs with
      | '"' :: cs => readName cs
      | _ => none)
    let (value, cs) ← readValue n cs
    match skipBlanks cs with
    | ',' :: cs =>
      let (fields, rest) ← readFields n cs
      return ((name, value) :: fields, rest)
    | '\x7d' :: rest => return ([(name, value)], rest)
    | _ => none

end

def parse? (text : String) : Option Json :=
  let cs := text.toList
  match readValue (cs.length + 1) cs with
  | some (value, rest) => if (skipBlanks rest).isEmpty then some value else none
  | none => none

def parseStrict? (text : String) : Option Json :=
  (parse? text).filter fun value => value.readable && value.depth ≤ maxDepth

end TypeFlow.Json
