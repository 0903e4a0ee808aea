import TypeFlow.Decimal.Double

/-!
# Shortest decimals

The shortest decimal of a double is the decimal with the fewest digits that lies in the interval of
reals which round to it; of two such decimals the nearer one is taken. The ends of the interval
belong to it when the mantissa is even.
-/

set_option autoImplicit false

namespace TypeFlow.Double

structure Decimal where
  digits : Nat
  power : Int
  deriving DecidableEq, Repr

def compareScaled (a : Nat) (k : Int) (b : Nat) (p : Int) : Ordering :=
  compare (a * Nat.pow 10 k.toNat * Nat.pow 2 (-p).toNat)
    (b * Nat.pow 2 p.toNat * Nat.pow 10 (-k).toNat)

def readsBack (mantissa : Nat) (exponent : Int) (a : Nat) (k : Int) : Bool :=
  let below := if mantissa = Nat.pow 2 52 ∧ -1074 < exponent then 1 else 2
  let lower := compareScaled a k (4 * mantissa - below) (exponent - 2)
  let upper := compareScaled a k (4 * mantissa + 2) (exponent - 2)
  if mantissa % 2 = 0 then lower != .lt && upper != .gt else lower == .gt && upper == .lt

def wholePart (mantissa : Nat) (exponent : Int) (k : Int) : Nat :=
  (mantissa * Nat.pow 2 exponent.toNat * Nat.pow 10 (-k).toNat)
    / (Nat.pow 10 k.toNat * Nat.pow 2 (-exponent).toNat)

def decimalOrder (mantissa : Nat) (exponent : Int) : Int :=
  let fits := fun (n : Nat) => compareScaled 1 ((n : Int) - 325) mantissa exponent == .gt
  ((List.range 640).find? fits).elim 0 fun n => (n : Int) - 325

def withDigits? (mantissa : Nat) (exponent : Int) (count : Nat) : Option Decimal :=
  let k := decimalOrder mantissa exponent - count
  let low := wholePart mantissa exponent k
  let lowHits := readsBack mantissa exponent low k
  let highHits := readsBack mantissa exponent (low + 1) k
  -- The value lies nearer to `low` when it is below the middle `(2 * low + 1) / 2` of the two.
  let nearLow := compareScaled (2 * low + 1) k (2 * mantissa) exponent
  if lowHits && highHits then
    match nearLow with
    | .gt => some ⟨low, k⟩
    | .lt => some ⟨low + 1, k⟩
    | .eq => some ⟨if low % 2 = 0 then low else low + 1, k⟩
  else if lowHits then some ⟨low, k⟩
  else if highHits then some ⟨low + 1, k⟩
  else none

def Decimal.trim : Nat → Decimal → Decimal
  | 0, d => d
  | n + 1, d => if d.digits ≠ 0 ∧ d.digits % 10 = 0 then trim n ⟨d.digits / 10, d.power + 1⟩ else d

def shortest (x : Double) : Decimal :=
  if x.isZero then ⟨0, 0⟩
  else
    ((List.range 17).findSome? fun n => withDigits? x.mantissa x.exponent (n + 1)).elim
      ⟨0, 0⟩ (Decimal.trim 17)

def text (x : Double) : String :=
  let d := x.shortest
  let digits := (Nat.toDigits 10 d.digits)
  let point : Int := digits.length + d.power
  let body : List Char :=
    if d.digits = 0 then ['0', '.', '0']
    else if 0 ≤ d.power ∧ point ≤ 16 then digits ++ List.replicate d.power.toNat '0' ++ ['.', '0']
    else if 0 < point ∧ point ≤ 16 then
      digits.take point.toNat ++ ['.'] ++ digits.drop point.toNat
    else if -5 < point ∧ point ≤ 0 then
      ['0', '.'] ++ List.replicate (-point).toNat '0' ++ digits
    else
      let order := (toString (point - 1)).toList
      match digits with
      | [c] => c :: 'e' :: order
      | c :: rest => c :: '.' :: rest ++ 'e' :: order
      | [] => []
  String.ofList (if x.negative then '-' :: body else body)

end TypeFlow.Double
