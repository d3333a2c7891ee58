/-
Decimals, and the shortest one that stands for a double.

A decimal is a coefficient and a power of ten.  Every finite double is exactly a
decimal with 1074 places, since a unit is `5 ^ 1074 / 10 ^ 1074`.  The shortest
decimal is found by cutting that exact one after one digit, after two, and so on:
of the two neighbours on each grid, the first that rounds back to the double is
taken, the closer of two, and the upper one when the double lies halfway.
-/
import ListSugar.Double.Basic

namespace ListSugar

/-- The number `coeff * 10 ^ exponent`. -/
structure Decimal where
  coeff : Nat
  exponent : Int
deriving DecidableEq, Repr

namespace Decimal

/-- The value of a digit character. -/
def digitValue (c : Char) : Nat := c.toNat - '0'.toNat

/-- The number that a run of digits writes. -/
def valueOf (digits : List Char) : Nat :=
  digits.foldl (fun n c => 10 * n + digitValue c) 0

/-- The decimal that the digits before and after a point write. -/
def ofDigits (whole fraction : List Char) : Decimal :=
  ⟨valueOf (whole ++ fraction), -(fraction.length : Int)⟩

/-- The double nearest to a decimal. -/
def toDouble (d : Decimal) : Double :=
  Double.nearest (d.coeff * 10 ^ d.exponent.toNat) (10 ^ (-d.exponent).toNat)

/-- The digits of the coefficient, most significant first. -/
def digits (d : Decimal) : List Char := Nat.toDigits 10 d.coeff

/-- The digits without the zeros at their end. -/
def significant (d : Decimal) : List Char :=
  (d.digits.reverse.dropWhile (· == '0')).reverse

/-- How many digits stand before the decimal point; at or below zero when the number
is a fraction that begins with zeros. -/
def point (d : Decimal) : Int := d.digits.length + d.exponent

end Decimal

namespace Double

/-- The number of decimal places of a unit. -/
def unitPlaces : Nat := 1074

/-- The exact value of a finite double, without its sign. -/
def exactValue (d : Double) : Decimal :=
  ⟨d.units * 5 ^ unitPlaces, -(unitPlaces : Int)⟩

/-- Of the two decimals around the magnitude of `d` that drop `cut` digits of the exact
value, the one that reads back as `d`. -/
def cutAt? (d : Double) (cut : Nat) : Option Decimal :=
  let scale := 10 ^ cut
  let low : Decimal := ⟨d.exactValue.coeff / scale, cut + d.exactValue.exponent⟩
  let high : Decimal := ⟨d.exactValue.coeff / scale + 1, cut + d.exactValue.exponent⟩
  let lowReads := low.toDouble = d.abs
  let highReads := high.toDouble = d.abs
  if lowReads ∧ (¬ highReads ∨ 2 * (d.exactValue.coeff % scale) < scale) then some low
  else if highReads then some high
  else none

/-- The decimal of fewest digits that reads back as the magnitude of `d`.  Seventeen
digits always suffice; were they not to, the exact value would stand. -/
def shortest (d : Double) : Decimal :=
  let size := d.exactValue.digits.length
  ((List.range 17).findSome? fun k => d.cutAt? (size - (k + 1))).getD d.exactValue

end Double

end ListSugar
