import FilterSql.Decimal.Binary64

/-!
The shortest decimal of a double: the fewest digits that read back to it, and of those the nearest.
A candidate is accepted only by rounding it and comparing, so what is found reads back by the way it
was found. Where no candidate of 17 digits is accepted the exact value stands in.
-/

namespace FilterSql

/-- The number `digits · 10^exponent`. -/
structure Decimal where
  digits : Nat
  exponent : Int
deriving DecidableEq

namespace Decimal

def digitCount (n : Nat) : Nat := (Nat.toDigits 10 n).length

/-- The magnitude as a fraction. -/
def ratio (d : Decimal) : Nat × Nat :=
  if 0 ≤ d.exponent then (d.digits * Nat.pow 10 d.exponent.toNat, 1)
  else (d.digits, Nat.pow 10 (-d.exponent).toNat)

/-- The double that the decimal reads as. -/
def read? (negative : Bool) (d : Decimal) : Option Binary64 :=
  Binary64.ofRatio? negative d.ratio.1 d.ratio.2

end Decimal

namespace Binary64

/-- The magnitude of a double in units of `10^k`. -/
def inTens (x : Binary64) (k : Int) : Nat × Nat :=
  let (num, den) := x.ratio
  if 0 ≤ k then (num, den * Nat.pow 10 k.toNat) else (num * Nat.pow 10 (-k).toNat, den)

/-- The power of ten of the first digit of a double that is not zero. -/
def leadingPower (x : Binary64) : Int :=
  let (num, den) := x.ratio
  let guess : Int := (Decimal.digitCount num : Int) - Decimal.digitCount den
  let (n, d) := x.inTens guess
  if n < d then guess - 1 else guess

def readsBack (x : Binary64) (d : Decimal) : Bool := d.read? x.negative == some x

/-- The nearest multiple of `10^k` beside a double that reads back to it, a tie to the even one. -/
def onGrid? (x : Binary64) (k : Int) : Option Decimal :=
  let (n, d) := x.inTens k
  let below : Decimal := ⟨n / d, k⟩
  let above : Decimal := ⟨n / d + 1, k⟩
  if n % d = 0 then if x.readsBack below then some below else none
  else
    match x.readsBack below, x.readsBack above with
    | true, true => some ⟨roundDiv n d, k⟩
    | true, false => some below
    | false, true => some above
    | false, false => none

/-- Every binary fraction is a decimal fraction. -/
def exactDecimal (x : Binary64) : Decimal :=
  if 0 ≤ x.exponent then ⟨x.significand * Nat.pow 2 x.exponent.toNat, 0⟩
  else ⟨x.significand * Nat.pow 5 (-x.exponent).toNat, x.exponent⟩

/-- The shortest decimal that reads back to a double. -/
def shortest (x : Binary64) : Decimal :=
  let first := x.leadingPower
  ((List.range 17).findSome? fun (i : Nat) => x.onGrid? (first - i)).getD x.exactDecimal

end Binary64

end FilterSql
