import TypeFlow.Json.Value

/-!
# Numerals

The text of a number is a sign, whole digits, and optionally places after the point and an
exponent. A numeral without either that fits 64 bits denotes a whole number. Every other numeral,
and minus zero, denotes a double: digits are collected while they fit 64 bits, the rest only shift
the decimal point, and the collected number is scaled by a rounded power of ten.
-/

set_option autoImplicit false

namespace TypeFlow.Json

structure Numeral where
  negative : Bool
  whole : List Nat
  places : List Nat := []
  hasPoint : Bool := false
  exponent : Option (Bool × List Nat) := none
  deriving DecidableEq, Repr

namespace Numeral

def isDigit (c : Char) : Bool := '0' ≤ c && c ≤ '9'

def digitValue (c : Char) : Nat := c.toNat - '0'.toNat

def scanDigits (cs : List Char) : List Nat × List Char :=
  ((cs.takeWhile isDigit).map digitValue, cs.dropWhile isDigit)

def scanWhole : List Char → Option (List Nat × List Char)
  | '0' :: cs => some ([0], cs)
  | cs =>
    match scanDigits cs with
    | ([], _) => none
    | (ds, rest) => some (ds, rest)

def scanPlaces : List Char → Option (Option (List Nat) × List Char)
  | '.' :: cs =>
    match scanDigits cs with
    | ([], _) => none
    | (ds, rest) => some (some ds, rest)
  | cs => some (none, cs)

def scanExponentDigits (negative : Bool) (cs : List Char) :
    Option (Option (Bool × List Nat) × List Char) :=
  match scanDigits cs with
  | ([], _) => none
  | (ds, rest) => some (some (negative, ds), rest)

def scanExponent : List Char → Option (Option (Bool × List Nat) × List Char)
  | c :: cs =>
    if c = 'e' ∨ c = 'E' then
      match cs with
      | '+' :: cs => scanExponentDigits false cs
      | '-' :: cs => scanExponentDigits true cs
      | cs => scanExponentDigits false cs
    else some (none, c :: cs)
  | [] => some (none, [])

def scanUnsigned (negative : Bool) (cs : List Char) : Option (Numeral × List Char) := do
  let (whole, cs) ← scanWhole cs
  let (places, cs) ← scanPlaces cs
  let (exponent, cs) ← scanExponent cs
  return ({ negative, whole, places := places.getD [], hasPoint := places.isSome, exponent }, cs)

def scan : List Char → Option (Numeral × List Char)
  | '-' :: cs => scanUnsigned true cs
  | cs => scanUnsigned false cs

def maxWord : Nat := Nat.pow 2 64 - 1

def collect (start : Nat) : List Nat → Nat × List Nat
  | [] => (start, [])
  | d :: ds => if start * 10 + d ≤ maxWord then collect (start * 10 + d) ds else (start, d :: ds)

def exponentValue (ds : List Nat) : Nat := ds.foldl (fun n d => n * 10 + d) 0

def power (k : Nat) : Option Double := Double.ofNat? false (Nat.pow 10 k)

def shrink : Nat → Double → Nat → Option Double
  | 0, x, _ => some x
  | n + 1, x, k =>
    if k ≤ 308 then do Double.div? x (← power k)
    else if x.isZero then some x
    else do shrink n (← Double.div? x (← power 308)) (k - 308)

def scaled (significand : Nat) (k : Int) : Option Double := do
  let x ← Double.ofNat? false significand
  if 0 ≤ k then
    if k ≤ 308 then Double.mul? x (← power k.toNat)
    else if x.isZero then some x
    else none
  else shrink (k.natAbs / 308 + 1) x k.natAbs

def maxExponent : Nat := Nat.pow 2 31 - 1

def magnitude (n : Numeral) : Option Double :=
  let (significand, wholeLeft) := collect 0 n.whole
  let (significand, placesLeft) := collect significand n.places
  let point : Int := (wholeLeft.length : Int) - ((n.places.length - placesLeft.length : Nat) : Int)
  match n.exponent with
  | none => scaled significand point
  | some (negative, ds) =>
    let e := exponentValue ds
    if maxExponent < e then
      if significand = 0 ∨ negative then some {} else none
    else scaled significand (if negative then point - e else point + e)

def toDouble? (n : Numeral) : Option Double :=
  (n.magnitude).map fun x => { x with negative := n.negative }

def value (n : Numeral) : Json :=
  let whole := exponentValue n.whole
  if !n.hasPoint && n.exponent.isNone && !n.negative && whole ≤ maxWord then .int whole
  else if !n.hasPoint && n.exponent.isNone && n.negative && 0 < whole
      && whole ≤ Nat.pow 2 63 then
    .int (-(whole : Int))
  else
    match n.toDouble? with
    | some x => .float x
    | none => .unreadable

end Numeral

end TypeFlow.Json
