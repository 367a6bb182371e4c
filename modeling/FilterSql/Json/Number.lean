import FilterSql.Decimal.Layout

/-!
JSON numbers. A number written without fraction and exponent is an integer while it fits a signed or
unsigned 64-bit word; everything else is a double, `-0` and the larger integers among them. An integer
is never equal to a double.

Reading a double goes through a 64-bit significand: digits are taken while they fit, later ones only
move the exponent, and the scaling by a power of ten is one rounded multiplication or division (a
chain of them below `10^-308`). So a long numeral can miss the nearest double by a unit or more.
-/

namespace FilterSql

inductive Number where
  | int (value : Int)
  | float (value : Binary64)
deriving DecidableEq

/-- A numeral taken apart. The fraction is empty if there is no point. -/
structure Numeral where
  negative : Bool
  whole : List Nat
  fraction : List Nat
  power : Option (Bool × List Nat)
deriving DecidableEq

namespace Numeral

/-- The digits at the front of a text, and what follows them. -/
def digits (cs : List Char) : List Nat × List Char :=
  ((cs.takeWhile Char.isDigit).map fun c => c.toNat - '0'.toNat, cs.dropWhile Char.isDigit)

def toNat (ds : List Nat) : Nat := ds.foldl (fun n d => n * 10 + d) 0

/-- At least one digit, and no zero before another digit. -/
def wholePart? (cs : List Char) : Option (List Nat × List Char) :=
  match digits cs with
  | ([], _) => none
  | (0 :: _ :: _, _) => none
  | found => some found

def fractionPart? : List Char → Option (List Nat × List Char)
  | '.' :: rest =>
    match digits rest with
    | ([], _) => none
    | found => some found
  | rest => some ([], rest)

/-- The digits of an exponent, which end the text. -/
def powerDigits? (negative : Bool) (cs : List Char) : Option (Bool × List Nat) :=
  match digits cs with
  | ([], _) => none
  | (ds, []) => some (negative, ds)
  | _ => none

/-- The exponent, or nothing, up to the end of the text. -/
def powerPart? : List Char → Option (Option (Bool × List Nat))
  | [] => some none
  | mark :: rest =>
    if mark = 'e' ∨ mark = 'E' then
      match rest with
      | '-' :: ds => (powerDigits? true ds).map some
      | '+' :: ds => (powerDigits? false ds).map some
      | ds => (powerDigits? false ds).map some
    else none

def unsigned? (negative : Bool) (cs : List Char) : Option Numeral := do
  let (whole, cs) ← wholePart? cs
  let (fraction, cs) ← fractionPart? cs
  let power ← powerPart? cs
  return ⟨negative, whole, fraction, power⟩

/-- Takes a whole text apart. -/
def read? : List Char → Option Numeral
  | '-' :: cs => unsigned? true cs
  | cs => unsigned? false cs

/-- The integer that a numeral without fraction and exponent stands for, if a word holds it. -/
def integer? (n : Numeral) : Option Int :=
  if n.fraction.isEmpty && n.power.isNone then
    let value := toNat n.whole
    if n.negative then if 0 < value ∧ value ≤ Nat.pow 2 63 then some (-value) else none
    else if value < Nat.pow 2 64 then some value else none
  else none

/-- Takes digits of the whole part while the significand fits 64 bits, and counts the others. -/
def takeWhole (significand : Nat) : List Nat → Nat × Nat
  | [] => (significand, 0)
  | d :: ds =>
    if significand * 10 + d < Nat.pow 2 64 then takeWhole (significand * 10 + d) ds
    else (significand, ds.length + 1)

/-- Takes digits of the fraction while the significand fits 64 bits, and counts those taken. -/
def takeFraction (significand taken : Nat) : List Nat → Nat × Nat
  | [] => (significand, taken)
  | d :: ds =>
    if significand * 10 + d < Nat.pow 2 64 then takeFraction (significand * 10 + d) (taken + 1) ds
    else (significand, taken)

/-- The significand of a numeral, and the power of ten that its digits leave over. -/
def significand (n : Numeral) : Nat × Int :=
  let (whole, dropped) := takeWhole 0 n.whole
  let (all, taken) := takeFraction whole 0 n.fraction
  (all, (dropped : Int) - taken)

def tenPower? (n : Nat) : Option Binary64 := Binary64.ofRatio? false (Nat.pow 10 n) 1

/-- Divides by a power of ten, in steps of `10^308` while the power is larger than that. -/
def scaleDown? (x : Binary64) (power : Nat) : Option Binary64 := do
  if power ≤ 308 then
    x.div? (← tenPower? power)
  else if x.isZero then
    return x
  else
    scaleDown? (← x.div? (← tenPower? 308)) (power - 308)
termination_by power

/-- Multiplies by a power of ten; none if the result is too large. -/
def scaleUp? (x : Binary64) (power : Nat) : Option Binary64 := do
  if power ≤ 308 then
    x.mul? (← tenPower? power)
  else if x.isZero then
    return x
  else
    none

def scale? (significand : Nat) (power : Int) : Option Binary64 := do
  let x ← Binary64.ofRatio? false significand 1
  if power < 0 then scaleDown? x power.natAbs else scaleUp? x power.natAbs

/-- The largest exponent that can be written. -/
def maxPower : Nat := Nat.pow 2 31 - 1

/-- The magnitude of a numeral as a double; none if it is too large. -/
def magnitude? (n : Numeral) : Option Binary64 :=
  let (significand, shift) := n.significand
  match n.power with
  | none => scale? significand shift
  | some (down, ds) =>
    let power := toNat ds
    if maxPower < power then
      if significand = 0 ∨ down then some (Binary64.zero false) else none
    else scale? significand (if down then shift - power else shift + power)

/-- The number that a numeral stands for; none if it is too large. -/
def value? (n : Numeral) : Option Number :=
  match n.integer? with
  | some i => some (.int i)
  | none => n.magnitude?.map fun x => .float (if n.negative then x.neg else x)

end Numeral

namespace Number

/-- Reads a whole text as a number. -/
def read? (cs : List Char) : Option Number := (Numeral.read? cs).bind Numeral.value?

/-- Equality of values. -/
def same : Number → Number → Bool
  | .int a, .int b => a == b
  | .float x, .float y => x.same y
  | _, _ => false

def intText (i : Int) : String :=
  String.ofList ((if i < 0 then ['-'] else []) ++ Nat.toDigits 10 i.natAbs)

def text : Number → String
  | .int i => intText i
  | .float x => x.text

/-- The value as a signed 64-bit integer. A double has none, whatever its value. -/
def toInt64? : Number → Option Int
  | .int i => if -(Nat.pow 2 63 : Int) ≤ i ∧ i < Nat.pow 2 63 then some i else none
  | .float _ => none

end Number

end FilterSql
