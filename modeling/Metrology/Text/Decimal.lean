import Metrology.Text.Numeral

/-!
# Decimals of limited length

A decimal keeps as many of a number's digits as one machine word holds and counts
the others in its exponent.  As a double its value is the product of two rounded
numbers, the word and the power of ten, so near the largest double it can come out
finite or not where the number itself would not.
-/

namespace Metrology

/-- The number `significand * 10 ^ exponent`. -/
structure Decimal where
  significand : Nat := 0
  exponent : Int := 0
  /-- Whether a digit was left out. -/
  full : Bool := false
deriving DecidableEq

namespace Decimal

/-- The number of significands. -/
def bound : Nat := Nat.pow 2 64

/-- The significand with one more digit. -/
def extended (d : Decimal) (digit : Char) : Nat :=
  10 * d.significand + (digit.toNat - '0'.toNat)

/-- Adds a digit before the point; from the first one that finds no room on, digits only count
as powers of ten. -/
def pushWhole (d : Decimal) (digit : Char) : Decimal :=
  if !d.full && d.extended digit < bound then { d with significand := d.extended digit }
  else { d with exponent := d.exponent + 1, full := true }

/-- Adds a digit after the point; from the first one that finds no room on, digits are left
out. -/
def pushFraction (d : Decimal) (digit : Char) : Decimal :=
  if !d.full && d.extended digit < bound then
    { d with significand := d.extended digit, exponent := d.exponent - 1 }
  else { d with full := true }

/-- Lets digits in again, as the first one after the point may find room that the last one
before it did not. -/
def reopen (d : Decimal) : Decimal := { d with full := false }

/-- Multiplies by a power of ten. -/
def shift (d : Decimal) (power : Int) : Decimal := { d with exponent := d.exponent + power }

/-- The binary digits of a double. -/
def precision : Nat := 53

/-- The largest power of ten that is a double. -/
def maxPower : Int := 308

/-- Whether the product of the significand and the power of ten, both rounded to doubles, is a
finite double. -/
def isFinite (d : Decimal) : Bool :=
  if d.significand = 0 || d.exponent < 0 then true
  else if maxPower < d.exponent then false
  else
    Numeral.roundBits precision d.significand *
      Numeral.roundBits precision (Nat.pow 10 d.exponent.natAbs) < Numeral.doubleBound

end Decimal
end Metrology
