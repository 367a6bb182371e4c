import FilterSql.Decimal.Shortest

/-!
How a double is written. The digits are those of the shortest decimal. They stand around a point
while the first of them is at most 15 places before it or 5 behind it, and before a power of ten
otherwise.
-/

namespace FilterSql.Binary64

/-- The digits of a number without the zeros at its end. -/
def significantDigits (n : Nat) : List Char :=
  ((Nat.toDigits 10 n).reverse.dropWhile (· == '0')).reverse

/-- Digits around a point, the first of them at `10^power`. -/
def positional (digits : List Char) (power : Int) : List Char :=
  if power < 0 then
    '0' :: '.' :: (List.replicate (-power - 1).toNat '0' ++ digits)
  else
    let count := power.toNat + 1
    let whole := digits.take count ++ List.replicate (count - digits.length) '0'
    let rest := digits.drop count
    whole ++ '.' :: (if rest.isEmpty then ['0'] else rest)

/-- One digit, a point only if more follow, and the power with its sign. -/
def scientific (digits : List Char) (power : Int) : List Char :=
  let sign := if power < 0 then '-' else '+'
  let rest := digits.drop 1
  digits.take 1 ++ (if rest.isEmpty then [] else '.' :: rest) ++
    'e' :: sign :: Nat.toDigits 10 power.natAbs

def magnitudeText (x : Binary64) : List Char :=
  if x.isZero then ['0', '.', '0']
  else
    let d := x.shortest
    let power := d.exponent + Decimal.digitCount d.digits - 1
    let digits := significantDigits d.digits
    if -5 ≤ power ∧ power ≤ 15 then positional digits power else scientific digits power

def text (x : Binary64) : String :=
  String.ofList (if x.negative then '-' :: x.magnitudeText else x.magnitudeText)

end FilterSql.Binary64
