/-!
# Finite binary floating-point numbers

A `Double` is `± mantissa · 2 ^ exponent` with at most 53 significant bits and an exponent of at
least -1074. Every value is the rounding of an exact quotient of natural numbers, a tie going to
the even neighbour; a quotient that rounds beyond the largest number has no value.
-/

set_option autoImplicit false

namespace TypeFlow

structure Double where
  negative : Bool := false
  mantissa : Nat := 0
  exponent : Int := -1074
  deriving DecidableEq, Repr, Inhabited

namespace Double

def roundQuotient (num den : Nat) : Nat :=
  let q := num / den
  let r := num % den
  if 2 * r < den then q
  else if 2 * r = den then (if q % 2 = 0 then q else q + 1)
  else q + 1

def scale (num den : Nat) (k : Int) : Nat × Nat :=
  if 0 ≤ k then (num * Nat.pow 2 k.toNat, den) else (num, den * Nat.pow 2 (-k).toNat)

def binaryOrder (num den : Nat) : Int :=
  let guess : Int := (Nat.log2 num : Int) - (Nat.log2 den : Int)
  let (n, d) := scale num den (-guess)
  if d ≤ n then guess else guess - 1

def ofQuotient? (negative : Bool) (num den : Nat) : Option Double :=
  if num = 0 then some { negative }
  else
    let exponent := max (binaryOrder num den - 52) (-1074)
    let (n, d) := scale num den (-exponent)
    let m := roundQuotient n d
    let (m, exponent) := if m = Nat.pow 2 53 then (Nat.pow 2 52, exponent + 1) else (m, exponent)
    if exponent ≤ 971 then some { negative, mantissa := m, exponent } else none

def ofNat? (negative : Bool) (n : Nat) : Option Double := ofQuotient? negative n 1

def ofInt (n : Int) : Double := (ofNat? (n < 0) n.natAbs).getD {}

def isZero (x : Double) : Bool := x.mantissa == 0

def quotient (x : Double) : Nat × Nat := scale x.mantissa 1 x.exponent

def mul? (x y : Double) : Option Double :=
  let (a, b) := x.quotient
  let (c, d) := y.quotient
  ofQuotient? (x.negative != y.negative) (a * c) (b * d)

def div? (x y : Double) : Option Double :=
  let (a, b) := x.quotient
  let (c, d) := y.quotient
  ofQuotient? (x.negative != y.negative) (a * d) (b * c)

def sameValue (x y : Double) : Bool := (x.isZero && y.isZero) || x == y

theorem sameValue_refl (x : Double) : x.sameValue x = true := by
  simp [sameValue]

end Double

end TypeFlow
